import TiFs.DirectoryForest
import TiFs.SnapshotProgress

/-! The work queue of `directory_copy_recursive` on a forest of directories: every step of
a snapshot uses up some of what is left to do below the directories in the queue. -/

namespace TiFs

open KeyValue Relation

def subDirectories (items : List DirectoryItem) : List StorageIno :=
  (items.filter fun item => item.typ = .directory).map DirectoryItem.ino

def copiedBelow (origin : Store) (dir : StorageIno) : List StorageIno :=
  subDirectories (scannedChildren origin dir)

/-- At most four steps for a child, and five for the directory as a whole. -/
def copyCost (origin : Store) (dir : StorageIno) : ℕ := 5 + 4 * (scannedChildren origin dir).length

def cloneLeft {cfg : TiFsConfig} : Option (Op cfg) → ℕ
  | some (.clone task) =>
      match task.phase with
      | .increment => 3
      | .map => 2
      | .done => 1
  | _ => 0

section Left

variable {cfg : TiFsConfig} (size : StorageIno → ℕ)

def Copying.left (copying : Copying) : ℕ := (copying.copyJobs.map fun job => size job.1).sum

def childrenLeft (items : List DirectoryItem) : ℕ :=
  4 * items.length + ((subDirectories items).map size).sum

/-- How many steps a call can still take, if `size` steps are enough for a directory and
all that is below it. -/
def SnapshotPhase.left (ops : List (Op cfg)) : SnapshotPhase → ℕ
  | .fetchRoot _ => 4 + size rootInode
  | .reserveRoot _ _ => 3 + size rootInode
  | .addRoot _ _ _ => 2 + size rootInode
  | .nextJob copying => 1 + copying.left size
  | .reserve copying _ srcList => 5 + copying.left size + childrenLeft size srcList
  | .link copying _ srcDstMapping =>
      4 + copying.left size + childrenLeft size (srcDstMapping.map Prod.fst)
  | .cloneAttrs copying srcDstMapping =>
      3 + copying.left size + childrenLeft size (srcDstMapping.map Prod.fst)
  | .cloneData copying _ rest => 2 + copying.left size + childrenLeft size (rest.map Prod.fst)
  | .cloning copying _ rest op =>
      2 + copying.left size + childrenLeft size (rest.map Prod.fst) + cloneLeft ops[op]?
  | .returned _ => 0

theorem childrenLeft_cons (item : DirectoryItem) (rest : List DirectoryItem) :
    childrenLeft size (item :: rest) =
      4 + (if item.typ = .directory then size item.ino else 0) + childrenLeft size rest := by
  by_cases isDir : item.typ = .directory
  · simp only [childrenLeft, subDirectories, isDir, decide_true, List.filter_cons_of_pos, List.map_cons,
      List.sum_cons, List.length_cons, if_true]
    omega
  · simp only [childrenLeft, subDirectories, isDir, decide_false, Bool.false_eq_true, not_false_eq_true,
      List.filter_cons_of_neg, List.length_cons, if_false]
    omega

theorem Copying.left_cons (snapshotDir : StorageDirItem) (job : ParentStorageIno × ParentStorageIno)
    (copyJobs : List (ParentStorageIno × ParentStorageIno)) :
    Copying.left size ⟨snapshotDir, job :: copyJobs⟩ =
      size job.1 + Copying.left size ⟨snapshotDir, copyJobs⟩ := by
  simp [Copying.left]

theorem Copying.left_snoc (copying : Copying) (job : ParentStorageIno × ParentStorageIno) :
    Copying.left size ⟨copying.snapshotDir, copying.copyJobs ++ [job]⟩ = copying.left size + size job.1 := by
  simp [Copying.left]

end Left

namespace SnapshotSystem

variable {cfg : TiFsConfig} {origin : Store} {ambient : Ambient} {size : StorageIno → ℕ}

def Attended (state : SnapshotSystem cfg) : Prop :=
  ∀ i, state.phase.op = some i → ∃ task, state.blocks.ops[i]? = some (.clone task)

def Below (size : StorageIno → ℕ) (bound : ℕ) (state : SnapshotSystem cfg) : Prop :=
  state.Attended ∧ state.phase.left size state.blocks.ops < bound

theorem below_of_free {bound : ℕ} {state : SnapshotSystem cfg} (free : state.phase.op = none)
    (less : state.phase.left size state.blocks.ops < bound) : state.Below size bound := by
  refine ⟨?_, less⟩
  intro i isOp
  rw [free] at isOp
  cases isOp

theorem below_transact {A : Type} {bound : ℕ} {state : SnapshotSystem cfg} {body : Mini A}
    {next : A → SnapshotPhase} (positive : 0 < bound) (free : ∀ result, (next result).op = none)
    (less : ∀ result ops, (next result).left size (ops : List (Op cfg)) < bound) :
    (state.transact body next).Below size bound := by
  unfold transact
  split
  · next result after ran => exact below_of_free (free result) (less result _)
  · exact below_of_free rfl positive

theorem below_readSource {A : Type} {bound : ℕ} {state : SnapshotSystem cfg} {body : Mini A}
    {next : A → SnapshotSystem cfg} (positive : 0 < bound)
    (less : ∀ result after, atomically body origin = .ok (result, after) → (next result).Below size bound) :
    (state.readSource origin body next).Below size bound := by
  unfold readSource
  split
  · next result after ran => exact less result after ran
  · exact below_of_free rfl positive

theorem below_startClone {state : SnapshotSystem cfg} {copying : Copying} {sizeMap : AttrMaps}
    {rest : List (DirectoryItem × StorageIno)} {dst : StorageIno} {hashes : BlockHashes} {bound : ℕ}
    (lengths : ∀ entry ∈ hashes.entries, entry.2.length = cfg.hashLen)
    (less : 5 + copying.left size + childrenLeft size (rest.map Prod.fst) < bound) :
    (state.startClone copying sizeMap rest dst hashes).Below size bound := by
  unfold startClone
  rw [dif_pos lengths]
  have last : (state.blocks.ops ++ [(Work.clone dst hashes lengths).start])[state.blocks.ops.length]? =
      some (Work.clone dst hashes lengths).start := by
    rw [List.getElem?_append_right le_rfl, Nat.sub_self]
    rfl
  constructor
  · intro i isOp
    rw [← Option.some.inj isOp]
    exact ⟨_, last⟩
  · simp only [SnapshotPhase.left]
    rw [last]
    simp only [Work.start, cloneLeft]
    omega

theorem lengths_of_scanned {hashes : BlockHashes} {ino : StorageIno} {range : Nat × Nat}
    (found : ∀ index : Nat, hashes.lookup index =
      if range.1 ≤ index ∧ index < range.2 then scanned cfg origin ino index else none) :
    ∀ entry ∈ hashes.entries, entry.2.length = cfg.hashLen := by
  intro entry listed
  have isHash : hashes.lookup entry.1 = some entry.2 := AList.mem_lookup_iff.mpr listed
  rw [found] at isHash
  split at isHash
  · exact scanned_length isHash
  · cases isHash

theorem below_cloning {state : SnapshotSystem cfg} {copying : Copying} {sizeMap : AttrMaps}
    {rest : List (DirectoryItem × StorageIno)} {op : Nat}
    (current : state.phase = .cloning copying sizeMap rest op) (attended : state.Attended) :
    (state.advance origin ambient).Below size (state.phase.left size state.blocks.ops) := by
  obtain ⟨task, present⟩ := attended op (by rw [current]; rfl)
  obtain ⟨bound, _⟩ := List.getElem?_eq_some_iff.mp present
  obtain ⟨later, after, ran, move⟩ := task.exists_move state.blocks.store
  have stepped : state.blocks.step (.advance op ambient) =
      some ⟨after, state.blocks.ops.set op (.clone later)⟩ := by
    have moved : (Op.clone task).step ambient state.blocks.store = .ok (.clone later, after) := by
      rw [Op.step, ran]
      rfl
    simp only [BlockSystem.step, present, moved]
  have placed : (state.blocks.ops.set op (.clone later))[op]? = some (.clone later) :=
    List.getElem?_set_self bound
  -- A clone that is not done moves on, and the call notices when it is.
  have advanced : task.phase ≠ .done → state.advance origin ambient =
      ⟨⟨after, state.blocks.ops.set op (.clone later)⟩, .cloning copying sizeMap rest op⟩ := by
    intro unfinished
    unfold advance
    simp only [current, present, stepped]
    rcases task with ⟨dst, hashes, phase, lengths⟩
    cases phase with
    | increment => rfl
    | map => rfl
    | done => exact absurd rfl unfinished
  have kept : cloneLeft (some (Op.clone later)) < cloneLeft (some (Op.clone task)) →
      Below size (state.phase.left size state.blocks.ops)
        ⟨⟨after, state.blocks.ops.set op (.clone later)⟩, .cloning copying sizeMap rest op⟩ := by
    intro fewer
    constructor
    · intro i isOp
      rw [← Option.some.inj isOp]
      exact ⟨later, placed⟩
    · rw [current]
      simp only [SnapshotPhase.left]
      rw [placed, present]
      omega
  cases move with
  | incremented prev after isPhase counted =>
      rw [advanced (by rw [isPhase]; simp)]
      apply kept
      simp only [cloneLeft, isPhase]
      omega
  | placed decrements after isPhase replaced =>
      rw [advanced (by rw [isPhase]; simp)]
      apply kept
      simp only [cloneLeft, isPhase]
      omega
  | finished isPhase =>
      have returned : state.advance origin ambient = ⟨state.blocks, .cloneData copying sizeMap rest⟩ := by
        rcases task with ⟨dst, hashes, phase, lengths⟩
        subst isPhase
        unfold advance
        simp only [current, present]
      rw [returned]
      apply below_of_free rfl
      rw [current]
      simp only [SnapshotPhase.left]
      rw [present]
      simp only [cloneLeft, isPhase]
      omega

theorem below_nextJob {blocks : BlockSystem cfg} {copying : Copying}
    (covers : ∀ dir, copyCost origin dir + ((copiedBelow origin dir).map size).sum ≤ size dir) :
    (advance origin ambient ⟨blocks, .nextJob copying⟩).Below size
      (SnapshotPhase.left size blocks.ops (.nextJob copying)) := by
  rcases copying with ⟨snapshotDir, _ | ⟨⟨originDir, destination⟩, copyJobs⟩⟩
  · apply below_of_free rfl
    simp only [advance, SnapshotPhase.left]
    omega
  · have enough := covers originDir
    apply below_readSource
    · simp only [SnapshotPhase.left]
      omega
    · intro srcList after ran
      rw [scan_run] at ran
      obtain ⟨rfl, _⟩ := Prod.mk.inj (Except.ok.inj ran)
      have cost : copyCost origin originDir + ((copiedBelow origin originDir).map size).sum =
          5 + childrenLeft size (scannedChildren origin originDir) := by
        simp only [copyCost, copiedBelow, childrenLeft]
        omega
      split
      · apply below_of_free rfl
        simp only [SnapshotPhase.left, Copying.left_cons]
        omega
      · apply below_of_free rfl
        simp only [SnapshotPhase.left, Copying.left_cons]
        omega

theorem below_cloneData {blocks : BlockSystem cfg} {copying : Copying} {sizeMap : AttrMaps}
    {rest : List (DirectoryItem × StorageIno)} :
    (advance origin ambient ⟨blocks, .cloneData copying sizeMap rest⟩).Below size
      (SnapshotPhase.left size blocks.ops (.cloneData copying sizeMap rest)) := by
  rcases rest with _ | ⟨⟨src, dst⟩, rest⟩
  · apply below_of_free rfl
    simp only [advance, SnapshotPhase.left]
    omega
  · cases isTyp : src.typ with
    | file =>
        simp only [advance, SnapshotPhase.left, List.map_cons, childrenLeft_cons, isTyp, reduceCtorEq,
          if_false]
        split
        · next srcSize sized =>
            apply below_readSource
            · omega
            · intro hashes after ran
              obtain ⟨found, isRead, inFound⟩ :=
                readRange_spec cfg origin src.ino (clonedBlockRange cfg srcSize)
              rw [isRead] at ran
              obtain ⟨rfl, _⟩ := Prod.mk.inj (Except.ok.inj ran)
              apply below_startClone (lengths_of_scanned inFound)
              omega
        · apply below_of_free rfl
          simp only [SnapshotPhase.left]
          omega
    | directory =>
        simp only [advance, SnapshotPhase.left, List.map_cons, childrenLeft_cons, isTyp, if_true]
        apply below_of_free rfl
        simp only [SnapshotPhase.left, Copying.left_snoc]
        omega
    | symlink =>
        simp only [advance, SnapshotPhase.left, List.map_cons, childrenLeft_cons, isTyp, reduceCtorEq,
          if_false]
        apply below_of_free rfl
        simp only [SnapshotPhase.left]
        omega

/-- Every step leaves less to do. -/
theorem below_advance {state : SnapshotSystem cfg} (attended : state.Attended)
    (covers : ∀ dir, copyCost origin dir + ((copiedBelow origin dir).map size).sum ≤ size dir)
    (running : ∀ result, state.phase ≠ .returned result) :
    (state.advance origin ambient).Below size (state.phase.left size state.blocks.ops) := by
  rcases state with ⟨blocks, phase⟩
  cases phase with
  | fetchRoot name =>
      apply below_readSource
      · simp only [SnapshotPhase.left]
        omega
      · intro rootAttr after ran
        apply below_of_free rfl
        simp only [SnapshotPhase.left]
        omega
  | reserveRoot name rootAttr =>
      apply below_transact
      · simp only [SnapshotPhase.left]
        omega
      · exact fun _ => rfl
      · intro newIno ops
        simp only [SnapshotPhase.left]
        omega
  | addRoot name rootAttr newIno =>
      apply below_transact
      · simp only [SnapshotPhase.left]
        omega
      · intro result
        cases result <;> rfl
      · intro result ops
        cases result with
        | newlyCreated snapshotDir =>
            simp only [SnapshotPhase.left, Copying.left, List.map_cons, List.map_nil, List.sum_singleton]
            omega
        | existedAlready item =>
            simp only [SnapshotPhase.left]
            omega
  | nextJob copying => exact below_nextJob covers
  | reserve copying destination srcList =>
      apply below_transact
      · simp only [SnapshotPhase.left]
        omega
      · exact fun _ => rfl
      · intro newInos ops
        have children : ((srcList.zipIdx.map fun child => (child.1, newInos + child.2)).map Prod.fst) =
            srcList := numbered_fst newInos srcList
        simp only [SnapshotPhase.left]
        rw [children]
        omega
  | link copying destination srcDstMapping =>
      apply below_transact
      · simp only [SnapshotPhase.left]
        omega
      · exact fun _ => rfl
      · intro _ ops
        simp only [SnapshotPhase.left]
        omega
  | cloneAttrs copying srcDstMapping =>
      apply below_transact
      · simp only [SnapshotPhase.left]
        omega
      · exact fun _ => rfl
      · intro maps ops
        simp only [SnapshotPhase.left]
        omega
  | cloneData copying sizeMap rest => exact below_cloneData
  | cloning copying sizeMap rest op => exact below_cloning rfl attended
  | returned result => exact absurd rfl (running result)

def advanceAll (origin : Store) (state : SnapshotSystem cfg) (ambients : List Ambient) : SnapshotSystem cfg :=
  ambients.foldl (fun state ambient => state.advance origin ambient) state

theorem advanceAll_returned {result : Except FsError (GotOrMade StorageDirItem)} (ambients : List Ambient)
    {state : SnapshotSystem cfg} (returned : state.phase = .returned result) :
    (state.advanceAll origin ambients).phase = .returned result := by
  induction ambients generalizing state with
  | nil => exact returned
  | cons ambient rest ih =>
      apply ih
      change (state.advance origin ambient).phase = .returned result
      rw [advance, returned]

theorem returned_of_left (covers : ∀ dir, copyCost origin dir + ((copiedBelow origin dir).map size).sum ≤ size dir)
    (ambients : List Ambient) {state : SnapshotSystem cfg} (attended : state.Attended)
    (enough : state.phase.left size state.blocks.ops ≤ ambients.length) :
    ∃ result, (state.advanceAll origin ambients).phase = .returned result := by
  induction ambients generalizing state with
  | nil =>
      rcases state with ⟨blocks, phase⟩
      cases phase with
      | returned result => exact ⟨result, rfl⟩
      | _ =>
          simp only [SnapshotPhase.left, List.length_nil] at enough
          omega
  | cons ambient rest ih =>
      by_cases isReturned : ∃ result, state.phase = .returned result
      · obtain ⟨result, returned⟩ := isReturned
        exact ⟨result, advanceAll_returned (ambient :: rest) returned⟩
      · have less : (state.advance origin ambient).Below size (state.phase.left size state.blocks.ops) :=
          below_advance attended covers fun result returned => isReturned ⟨result, returned⟩
        apply ih less.1
        have fewer := less.2
        rw [List.length_cons] at enough
        omega

end SnapshotSystem

theorem subDirectory_of_copied {origin : Store} {dir below : StorageIno}
    (listed : below ∈ copiedBelow origin dir) : SubDirectory origin dir below := by
  obtain ⟨item, member, rfl⟩ := List.mem_map.mp listed
  obtain ⟨scanned, isDir⟩ := List.mem_filter.mp member
  have found := dirEntry_of_scanned scanned
  rw [of_decide_eq_true isDir] at found
  exact ⟨item.name, found⟩

theorem finite_parents (store : Store) : {dir | ∃ below, below ∈ copiedBelow store dir}.Finite := by
  have owners : (Set.preimage some (store.keys.image Key.owner : Set (Option StorageIno))).Finite :=
    (Finset.finite_toSet _).preimage (Option.some_injective StorageIno).injOn
  apply owners.subset
  intro dir copied
  obtain ⟨below, listed⟩ := copied
  obtain ⟨name, found⟩ := subDirectory_of_copied listed
  rw [Set.mem_preimage, Finset.mem_coe, Finset.mem_image]
  refine ⟨.directoryChild dir name, ?_, rfl⟩
  rw [Finmap.mem_keys]
  exact Finmap.mem_of_lookup_eq_some found

/-- On a forest of directories a snapshot returns after finitely many steps, as many as
the store it copies decides: its queue has become empty, or it has failed. -/
theorem copy_ends (cfg : TiFsConfig) {origin : Store} (forest : IsForest origin) :
    ∃ steps, ∀ (blocks : BlockSystem cfg) (name : ByteString) (ambients : List Ambient),
      steps ≤ ambients.length →
      ∃ result, (SnapshotSystem.advanceAll origin ⟨blocks, .fetchRoot name⟩ ambients).phase =
        .returned result := by
  have acyclic : Forest.Acyclic fun dir below => below ∈ copiedBelow origin dir := by
    apply forest.acyclic.mono
    intro dir below listed
    exact subDirectory_of_copied listed
  have wellFounded := acyclic.wellFounded (finite_parents origin)
  refine ⟨4 + Forest.weight (copiedBelow origin) (copyCost origin) wellFounded rootInode, ?_⟩
  intro blocks name ambients enough
  apply @SnapshotSystem.returned_of_left _ _ (Forest.weight (copiedBelow origin) (copyCost origin) wellFounded)
  · intro dir
    exact (Forest.weight_eq (copiedBelow origin) (copyCost origin) wellFounded dir).ge
  · intro i isOp
    cases isOp
  · exact enough

/-- On an initialised store, whatever the clients interleave and retry: the directories are
a forest and a snapshot of them ends, as long as no directory is moved below itself. -/
theorem directories_stay_forest (cfg : TiFsConfig) (call : InitCall) (now : SystemTime) (state : Namespace)
    (run : Run (Namespace.Step cfg) (fun state event => state.NamesOutside event ∧ state.StaysOutside event)
      (Namespace.initial cfg call now) state) :
    IsForest state.db.data ∧ ∃ steps, ∀ (blocks : BlockSystem cfg) (name : ByteString)
      (ambients : List Ambient), steps ≤ ambients.length →
      ∃ result, (SnapshotSystem.advanceAll state.db.data ⟨blocks, .fetchRoot name⟩ ambients).phase =
        .returned result := by
  have kept : ∃ kinds, state.Wooded cfg kinds := by
    apply run.invariant (fun state => ∃ kinds, state.Wooded cfg kinds) _ ⟨_, wooded_initial cfg call now⟩
    intro before event after holds taken allowed
    obtain ⟨kinds, wooded⟩ := holds
    exact wooded_step wooded taken allowed.1 allowed.2
  obtain ⟨kinds, wooded⟩ := kept
  exact ⟨wooded.wooded.forest, copy_ends cfg wooded.wooded.forest⟩

/-- What is moved has no entries, and is not moved into itself. -/
def MovesEmpty (store : Store) (parent : ParentStorageIno) (name : ByteString)
    (newParent : ParentStorageIno) : Prop :=
  ∀ item ∈ dirEntry store parent name, childNames store item.ino = ∅ ∧ newParent ≠ item.ino

theorem MovesEmpty.outside {store : Store} {parent newParent : ParentStorageIno} {name : ByteString}
    (moves : MovesEmpty store parent name newParent) : Outside store parent name newParent := by
  intro item found _ reach
  obtain ⟨empty, different⟩ := moves item found
  apply different
  refine eq_of_reach ?_ reach
  intro entry
  by_contra present
  have listed := (mem_childNames store item.ino entry).mpr present
  rw [empty] at listed
  exact Finset.notMem_empty entry listed

instance (store : Store) (parent : ParentStorageIno) (name : ByteString) (newParent : ParentStorageIno) :
    Decidable (MovesEmpty store parent name newParent) :=
  inferInstanceAs (Decidable
    (∀ item ∈ dirEntry store parent name, childNames store item.ino = ∅ ∧ newParent ≠ item.ino))

def Namespace.issuesEmptyMoves (state : Namespace) : Event → Bool
  | .spawn (.create args) => IsDirectory state.db.data args.parent
  | .spawn (.rename parent name newParent _) =>
      IsDirectory state.db.data newParent ∧ MovesEmpty state.db.data parent name newParent
  | .spawn _ => false
  | _ => true

def Namespace.commitsEmptyMoves (state : Namespace) : Event → Bool
  | .commit client => (state.stageAt client).all fun
      | .renameChild parent name newParent _ => MovesEmpty state.db.data parent name newParent
      | _ => true
  | _ => true

theorem Namespace.namesOutside {state : Namespace} {event : Event}
    (issued : state.issuesEmptyMoves event = true) : state.NamesOutside event := by
  cases event with
  | spawn call =>
      cases call with
      | create args =>
          change IsDirectory state.db.data args.parent
          exact of_decide_eq_true issued
      | rename parent name newParent newName =>
          have both := of_decide_eq_true issued
          exact ⟨both.1, both.2.outside⟩
      | link parent name ino => cases issued
      | removeFile parent name => cases issued
      | removeDirectory parent name => cases issued
      | openFile ino useId => cases issued
      | closeFile ino useId => cases issued
  | begin client now => exact trivial
  | commit client => exact trivial
  | retry client => exact trivial
  | abandon client => exact trivial
  | fileData writes => exact trivial

theorem Namespace.staysOutside {state : Namespace} {event : Event}
    (commits : state.commitsEmptyMoves event = true) : state.StaysOutside event := by
  cases event with
  | commit client =>
      intro proc present attempt _ stage isStage
      have staged : state.stageAt client = some stage := by
        rw [Namespace.stageAt, show state.procs[client]? = some proc from present]
        exact isStage
      simp only [Namespace.commitsEmptyMoves, staged, Option.all_some] at commits
      cases stage with
      | renameChild parent name newParent newName =>
          intro _
          exact (of_decide_eq_true commits).outside
      | _ => exact trivial
  | spawn call => exact trivial
  | begin client now => exact trivial
  | retry client => exact trivial
  | abandon client => exact trivial
  | fileData writes => exact trivial

def makeTwoDirectories : List Event :=
  [.spawn (.create (Operation.rootChild [97] .directory)), .begin 0 2, .commit 0, .begin 0 2, .commit 0,
   .spawn (.create (Operation.rootChild [98] .directory)), .begin 1 3, .commit 1, .begin 1 3, .commit 1]

/-- `a` is moved into `b`. -/
theorem directories_stay_forest_moved :
    ∃ state, Run (Namespace.Step (paddingConfig 2 (by decide)))
        (fun state event => state.NamesOutside event ∧ state.StaysOutside event)
        (Namespace.initial (paddingConfig 2 (by decide)) ⟨0, 0, .reserve⟩ 1) state ∧
      dirEntry state.db.data 11 [97] = some ⟨10, .directory⟩ ∧ IsForest state.db.data := by
  obtain ⟨state, run, check⟩ := Namespace.exists_run (paddingConfig 2 (by decide))
    (fun state event => state.issuesEmptyMoves event = true ∧ state.commitsEmptyMoves event = true)
    (Namespace.initial (paddingConfig 2 (by decide)) ⟨0, 0, .reserve⟩ 1)
    (makeTwoDirectories ++ [.spawn (.rename rootInode [97] 11 [97]), .begin 2 4, .commit 2])
    (fun state => decide (dirEntry state.db.data 11 [97] = some ⟨10, .directory⟩)) (by decide +kernel)
  have allowed := run.weaken fun _ _ checked =>
    And.intro (Namespace.namesOutside checked.1) (Namespace.staysOutside checked.2)
  exact ⟨state, allowed, of_decide_eq_true check, (directories_stay_forest _ _ _ state allowed).1⟩

/-- `a` is moved into `b` and `b` into `a`: neither rename reads or writes an entry of the
other, and both commit. -/
theorem renames_close_cycle :
    ¬ ∀ (cfg : TiFsConfig) (call : InitCall) (now : SystemTime) (state : Namespace),
      Run (Namespace.Step cfg) Namespace.NamesOutside (Namespace.initial cfg call now) state →
      IsForest state.db.data := by
  intro holds
  obtain ⟨state, run, check⟩ := Namespace.exists_run (paddingConfig 2 (by decide))
    (fun state event => state.issuesEmptyMoves event = true)
    (Namespace.initial (paddingConfig 2 (by decide)) ⟨0, 0, .reserve⟩ 1)
    (makeTwoDirectories ++ [.spawn (.rename rootInode [97] 11 [97]), .spawn (.rename rootInode [98] 10 [98]),
      .begin 2 4, .begin 3 4, .commit 2, .commit 3])
    (fun state => decide (dirEntry state.db.data 11 [97] = some ⟨10, .directory⟩ ∧
      dirEntry state.db.data 10 [98] = some ⟨11, .directory⟩)) (by decide +kernel)
  obtain ⟨inB, inA⟩ := of_decide_eq_true check
  have forest := holds _ _ _ state (run.weaken fun _ _ checked => Namespace.namesOutside checked)
  apply forest.acyclic 10
  exact (TransGen.single ⟨[98], inA⟩).tail ⟨[97], inB⟩

end TiFs
