import TiFs.Library.Forest
import TiFs.RemovedDirectories

/-! The directories as a forest. A rename reads and writes two entries and looks at no
other directory, so the tree is kept only as long as a directory is not moved below
itself at the time of the commit. -/

namespace TiFs

open KeyValue Relation

def SubDirectory (store : Store) (parent child : StorageIno) : Prop :=
  ∃ name, dirEntry store parent name = some ⟨child, .directory⟩

structure IsForest (store : Store) : Prop where
  acyclic : Forest.Acyclic (SubDirectory store)
  single : ∀ child parent name other entry, dirEntry store parent name = some ⟨child, .directory⟩ →
    dirEntry store other entry = some ⟨child, .directory⟩ → (parent, name) = (other, entry)

/-- The rename does not move a directory into itself or below itself. -/
def Outside (store : Store) (parent : ParentStorageIno) (name : ByteString)
    (newParent : ParentStorageIno) : Prop :=
  ∀ item ∈ dirEntry store parent name, item.typ = .directory →
    ¬ ReflTransGen (SubDirectory store) item.ino newParent

/-- The calls that leave the number of links of a directory alone, each issued with an
existing directory for its new entry, and each rename with one outside of what it moves. -/
def Namespace.NamesOutside (state : Namespace) : Event → Prop
  | .spawn (.create args) => IsDirectory state.db.data args.parent
  | .spawn (.rename parent name newParent _) =>
      IsDirectory state.db.data newParent ∧ Outside state.db.data parent name newParent
  | .spawn (.link _ _ _) => False
  | .spawn (.openFile _ _) => False
  | .spawn (.closeFile _ _) => False
  | _ => True

/-- When a rename that has found its new name free commits, its new directory is still
outside of what it moves. -/
def Stage.StaysOutside (start store : Store) : Stage → Prop
  | .renameChild parent name newParent newName =>
      dirEntry start newParent newName = none → Outside store parent name newParent
  | _ => True

def Namespace.StaysOutside (state : Namespace) : Event → Prop
  | .commit client => ∀ proc ∈ state.procs[client]?, ∀ attempt ∈ proc.attempt, ∀ stage ∈ proc.stage,
      stage.StaysOutside attempt.start.data state.db.data
  | _ => True

def Stage.Rooted (kinds : Kinds) : Stage → Prop
  | .reserveNewIno args => kinds args.parent ≠ none
  | .addNewInode args _ => kinds args.parent ≠ none
  | .renameChild _ _ newParent _ => kinds newParent ≠ none
  | .addExistingInode _ _ _ => False
  | .openInode _ _ => False
  | .closeInode _ _ => False
  | _ => True

def Rooted (kinds : Kinds) (store : Store) : Prop :=
  ∀ parent name, dirEntry store parent name ≠ none → kinds parent ≠ none

theorem Kinds.Grows.ne_none {kinds later : Kinds} (grows : kinds.Grows later) {ino : StorageIno}
    (known : kinds ino ≠ none) : later ino ≠ none := by
  obtain ⟨typ, isKind⟩ := Option.ne_none_iff_exists'.mp known
  rw [grows ino typ isKind]
  exact Option.some_ne_none typ

theorem Stage.Rooted.grow {kinds later : Kinds} {stage : Stage} (rooted : stage.Rooted kinds)
    (grows : kinds.Grows later) : stage.Rooted later := by
  cases stage with
  | reserveNewIno args => exact grows.ne_none rooted
  | addNewInode args newIno => exact grows.ne_none rooted
  | renameChild parent name newParent newName => exact grows.ne_none rooted
  | addExistingInode parent name ino => exact rooted.elim
  | openInode ino useId => exact rooted.elim
  | closeInode ino useId => exact rooted.elim
  | removeChild parent name allowedTypes => exact trivial
  | checkForDelete item => exact trivial
  | deleteMetadata ino kinds => exact trivial
  | removeEmptyDirectory parent name => exact trivial

section Edits

variable {store after : Store} {parent : ParentStorageIno} {name : ByteString} {child : StorageIno}
  {typ : StorageDirItemKind}

theorem IsForest.fewer (forest : IsForest store)
    (entries : ∀ above entry item, dirEntry after above entry = some item →
      dirEntry store above entry = some item) : IsForest after where
  acyclic := by
    apply forest.acyclic.mono
    intro above below edge
    obtain ⟨entry, found⟩ := edge
    exact ⟨entry, entries above entry _ found⟩
  single := by
    intro child above entry other also first second
    exact forest.single child above entry other also (entries _ _ _ first) (entries _ _ _ second)

/-- The only entry of an inode is put under a directory that is not below the inode. -/
theorem IsForest.put (forest : IsForest store)
    (entries : ∀ above entry item, dirEntry after above entry = some item →
      dirEntry store above entry = some item ∧ (item.typ = .directory → item.ino ≠ child) ∨
        (above, entry) = (parent, name) ∧ item = ⟨child, typ⟩)
    (apart : typ = .directory → ¬ ReflTransGen (SubDirectory store) child parent) : IsForest after := by
  constructor
  · by_cases isDir : typ = .directory
    · refine forest.acyclic.add ?_ (apart isDir)
      intro above below edge
      obtain ⟨entry, found⟩ := edge
      rcases entries above entry _ found with ⟨old, _⟩ | ⟨slot, isNew⟩
      · exact Or.inl ⟨entry, old⟩
      · exact Or.inr ⟨(Prod.mk.inj slot).1, (StorageDirItem.mk.inj isNew).1⟩
    · apply forest.acyclic.mono
      intro above below edge
      obtain ⟨entry, found⟩ := edge
      rcases entries above entry _ found with ⟨old, _⟩ | ⟨_, isNew⟩
      · exact ⟨entry, old⟩
      · exact absurd (StorageDirItem.mk.inj isNew).2.symm isDir
  · intro inode above entry other also first second
    rcases entries above entry _ first with ⟨old, different⟩ | ⟨slot, isNew⟩
    · rcases entries other also _ second with ⟨also, _⟩ | ⟨_, isNew⟩
      · exact forest.single inode above entry other _ old also
      · exact absurd (StorageDirItem.mk.inj isNew).1 (different rfl)
    · rcases entries other also _ second with ⟨_, different⟩ | ⟨other, _⟩
      · exact absurd (StorageDirItem.mk.inj isNew).1 (different rfl)
      · exact slot.trans other.symm

theorem eq_of_reach {below : StorageIno} (empty : ∀ entry, dirEntry store child entry = none)
    (reach : ReflTransGen (SubDirectory store) child below) : below = child := by
  rcases reach.cases_head with same | ⟨next, edge, _⟩
  · exact same.symm
  · obtain ⟨entry, found⟩ := edge
    rw [empty entry] at found
    cases found

end Edits

section Commit

variable {cfg : TiFsConfig} {now : SystemTime} {kinds : Kinds} {start db : Db Key.Value}
  {writes : List Write} {next : Option Stage} {stage : Stage}

structure Wooded (kinds : Kinds) (store : Store) : Prop where
  forest : IsForest store
  rooted : Rooted kinds store

theorem Wooded.fewer {store after : Store} (wooded : Wooded kinds store)
    (entries : ∀ above entry item, dirEntry after above entry = some item →
      dirEntry store above entry = some item) : Wooded kinds after where
  forest := wooded.forest.fewer entries
  rooted := by
    intro above entry present
    obtain ⟨item, found⟩ := Option.ne_none_iff_exists'.mp present
    apply wooded.rooted above entry
    rw [entries above entry item found]
    exact Option.some_ne_none item

theorem Wooded.removed {store : Store} (wooded : Wooded kinds store) (parent : ParentStorageIno)
    (name : ByteString) (childIno : StorageIno) :
    Wooded kinds (applyAll store (removedLinks parent name childIno)) := by
  apply wooded.fewer
  intro above entry item found
  rw [dirEntry_removedLinks] at found
  split at found
  · cases found
  · exact found

theorem Wooded.created {store : Store} (wooded : Wooded kinds store) (kinded : Kinded kinds store)
    {args : NewInode} {newIno : StorageIno} (fresh : kinds newIno = none)
    (known : kinds args.parent ≠ none) :
    Wooded kinds (applyAll store (createdWrites args newIno now)) := by
  have entries : ∀ above entry, dirEntry (applyAll store (createdWrites args newIno now)) above entry =
      if (above, entry) = (args.parent, args.name) then some ⟨newIno, args.typ⟩
      else dirEntry store above entry := by
    intro above entry
    rw [dirEntry, lookup_createdWrites rfl]
    exact dirEntry_addedLinks _ _ _ _ _ _
  constructor
  · apply @IsForest.put store _ args.parent args.name newIno args.typ wooded.forest
    · intro above entry item found
      rw [entries] at found
      split at found
      · next slot => exact Or.inr ⟨slot, (Option.some.inj found).symm⟩
      · left
        refine ⟨found, ?_⟩
        intro _ isNew
        have isKind := kinded.entries above entry item found
        rw [isNew, fresh] at isKind
        cases isKind
    · intro _ reach
      have empty : ∀ entry, dirEntry store newIno entry = none := by
        intro entry
        by_contra present
        exact wooded.rooted newIno entry present fresh
      rw [eq_of_reach empty reach] at known
      exact known fresh
  · intro above entry present
    rw [entries] at present
    split at present
    · next slot =>
        rw [(Prod.mk.inj slot).1]
        exact known
    · exact wooded.rooted above entry present

theorem Wooded.moved {store : Store} (wooded : Wooded kinds store) (kinded : Kinded kinds store) {parent newParent : ParentStorageIno}
    {name newName : ByteString} {item : StorageDirItem}
    (found : dirEntry store parent name = some item) (known : kinds newParent ≠ none)
    (outside : Outside store parent name newParent) :
    Wooded kinds (applyAll store (addedLinks newParent newName item ++
      removedLinks parent name item.ino)) := by
  have entries : ∀ above entry, dirEntry (applyAll store (addedLinks newParent newName item ++
      removedLinks parent name item.ino)) above entry = if (above, entry) = (parent, name) then none
      else if (above, entry) = (newParent, newName) then some item else dirEntry store above entry := by
    intro above entry
    rw [applyAll_append, dirEntry_removedLinks, dirEntry_addedLinks]
  constructor
  · apply @IsForest.put store _ newParent newName item.ino item.typ wooded.forest
    · intro above entry other isOther
      rw [entries] at isOther
      split at isOther
      · cases isOther
      · next elsewhere =>
          split at isOther
          · next slot => exact Or.inr ⟨slot, (Option.some.inj isOther).symm⟩
          · left
            refine ⟨isOther, ?_⟩
            intro isDir same
            -- A directory has no second entry, and its first one is the source.
            apply elsewhere
            have isKind := kinded.entries above entry other isOther
            rw [same, kinded.entries parent name item found, isDir] at isKind
            apply wooded.forest.single item.ino above entry parent name
            · rw [isOther, ← same, ← isDir]
            · rw [found, ← Option.some.inj isKind]
    · intro isDir
      exact outside item found isDir
  · intro above entry present
    rw [entries] at present
    split at present
    · exact absurd rfl present
    · split at present
      · next slot =>
          rw [(Prod.mk.inj slot).1]
          exact known
      · exact wooded.rooted above entry present

theorem wooded_commit {stages : Nat → Option Stage} {client : Nat} (wooded : Wooded kinds db.data)
    (typed : Typed kinds db.data stages) (staged : stages client = some stage)
    (kinded : Kinded kinds start.data) (extended : start.Extends db)
    (may : Db.MayCommit start db writes) (effect : Effect cfg now start.data stage writes next)
    (rooted : stage.Rooted kinds) (outside : stage.StaysOutside start.data db.data) :
    Wooded kinds (db.commit writes).data := by
  have current : ∀ key ∈ writes.map Mutation.key, db.data.lookup key = start.data.lookup key :=
    fun key written => extended.read_current may written
  have plain : (∀ above entry, Key.directoryChild above entry ∉ writes.map Mutation.key) →
      Wooded kinds (applyAll db.data writes) := by
    intro unwritten
    apply wooded.fewer
    intro above entry item found
    rw [dirEntry, lookup_applyAll_of_notMem _ _ _ (unwritten above entry)] at found
    exact found
  change Wooded kinds (applyAll db.data writes)
  cases effect with
  | reservedRoot args blank => exact plain (by simp [initWrites])
  | reserved args dynMeta stored => exact plain (by simp)
  | created args newIno free =>
      exact wooded.created typed.kinded (typed.reserved client args newIno staged).1 rooted
  | linked parent name ino desc free stored => exact rooted.elim
  | removed parent name allowedTypes item found => exact wooded.removed parent name item.ino
  | descriptionDeleted item unlinked => exact plain (by simp)
  | metadataDeleted ino kind rest => exact plain (by simp)
  | directoryRemoved parent name item found => exact wooded.removed parent name item.ino
  | sourceDropped parent name newParent newName item found => exact wooded.removed parent name item.ino
  | moved parent name newParent newName item desc found free stored =>
      have present : dirEntry db.data parent name = some item :=
        (current _ (by simp [addedLinks, removedLinks])).trans found
      -- The entry and the description were read at different times and agree all the same.
      have isKind := kinded.described item.ino desc stored
      rw [typed.kinded.entries parent name item present] at isKind
      rw [← Option.some.inj isKind]
      exact wooded.moved typed.kinded present rooted (outside free)
  | opened ino useId desc linkedDesc stored linked free => exact rooted.elim
  | closed ino useId item found => exact rooted.elim
  | nothing stage => exact plain fun _ _ => List.not_mem_nil

end Commit

structure Namespace.Wooded (cfg : TiFsConfig) (kinds : Kinds) (state : Namespace) : Prop where
  sound : state.Sound cfg
  typed : state.Typed kinds
  stages : ∀ proc ∈ state.procs, ∀ stage, proc.stage = some stage → stage.Rooted kinds
  wooded : TiFs.Wooded kinds state.db.data

theorem Call.first_rooted {kinds : Kinds} {state : Namespace} {call : Call} {stage : Stage}
    (kinded : Kinded kinds state.db.data) (issued : state.NamesOutside (.spawn call))
    (first : call.first = some stage) : stage.Rooted kinds := by
  have known : ∀ ino, IsDirectory state.db.data ino → kinds ino ≠ none := by
    intro ino isDir
    obtain ⟨desc, described, _⟩ := isDir
    rw [kinded.described ino desc described]
    exact Option.some_ne_none desc.typ
  cases call with
  | create args =>
      rw [← Option.some.inj first]
      exact known args.parent issued
  | link parent name ino => exact issued.elim
  | removeFile parent name =>
      rw [← Option.some.inj first]
      exact trivial
  | removeDirectory parent name =>
      rw [← Option.some.inj first]
      exact trivial
  | rename parent name newParent newName =>
      simp only [Call.first] at first
      split at first
      · rw [← Option.some.inj first]
        exact known newParent issued.1
      · cases first
  | openFile ino useId => exact issued.elim
  | closeFile ino useId => exact issued.elim

theorem Effect.next_rooted {cfg : TiFsConfig} {now : SystemTime} {store : Store} {kinds : Kinds}
    {stage next : Stage} {writes : List Write} (rooted : stage.Rooted kinds)
    (effect : Effect cfg now store stage writes (some next)) : next.Rooted kinds := by
  cases effect with
  | reservedRoot args blank => exact rooted
  | reserved args dynMeta stored => exact rooted
  | removed parent name allowedTypes item found => exact trivial
  | descriptionDeleted item unlinked => exact trivial
  | metadataDeleted ino kind rest => exact trivial

theorem wooded_step {cfg : TiFsConfig} {kinds : Kinds} {before after : Namespace} {event : Event}
    (holds : before.Wooded cfg kinds) (taken : Namespace.Step cfg before event after)
    (issued : before.NamesOutside event) (outside : before.StaysOutside event) :
    ∃ later, after.Wooded cfg later := by
  obtain ⟨later, grows, _, typed⟩ := typed_step holds.sound holds.typed taken
  refine ⟨later, sound_step holds.sound taken, typed, ?_, ?_⟩
  · apply stages_step (Stage.Rooted later) _ _ holds.sound taken
    · intro proc member stage isStage
      exact (holds.stages proc member stage isStage).grow grows
    · intro call isSpawn stage first
      rw [isSpawn] at issued
      exact (Call.first_rooted holds.typed.typed.kinded issued first).grow grows
    · intro now store stage writes next rooted effect
      exact effect.next_rooted rooted
  · have old : TiFs.Wooded kinds after.db.data := by
      cases move_of_step taken with
      | spawned call => exact holds.wooded
      | began client now stage next txn idle ran => exact holds.wooded
      | stopped _ client => exact holds.wooded
      | retried client stage attempt running => exact holds.wooded
      | committed client stage attempt running may =>
          have member := List.mem_of_getElem? running
          obtain ⟨current, now, isStage, extended, effect⟩ := holds.sound _ member attempt rfl
          have staged : before.stageAt client = some current := by
            rw [Namespace.stageAt, running]
            exact isStage
          exact wooded_commit holds.wooded holds.typed.typed staged
            (holds.typed.begun _ member attempt rfl) extended may effect
            (holds.stages _ member current isStage) (outside _ running attempt rfl current isStage)
      | wrote writes plain =>
          apply holds.wooded.fewer
          intro above entry item found
          rw [← found]
          symm
          apply lookup_applyAll_of_notMem
          intro written
          obtain ⟨write, listed, isKey⟩ := List.mem_map.mp written
          have outsideNames := plain write listed
          rw [isKey] at outsideNames
          cases outsideNames
    refine ⟨old.forest, ?_⟩
    intro parent name present
    exact grows.ne_none (old.rooted parent name present)

/-- The number above the root counts as made here, so that every entry is below such a number. -/
def initialKinds (store : Store) : Kinds :=
  Function.update (storedKinds store) parentOfRootInode (some .directory)

theorem wooded_initStore (cfg : TiFsConfig) (call : InitCall) (now : SystemTime) (kinds : Kinds)
    (above : kinds parentOfRootInode ≠ none) : TiFs.Wooded kinds (Operation.initStore cfg call now) := by
  have empty : ∀ parent name, dirEntry (applyAll ∅ (initWrites cfg)) parent name = none := by
    intro parent name
    rw [dirEntry, lookup_applyAll_of_notMem _ _ _ (by simp [initWrites])]
    rfl
  have bare : TiFs.Wooded (fun ino => if ino = parentOfRootInode then some .directory else none)
      (applyAll ∅ (initWrites cfg)) := by
    constructor
    · constructor
      · intro node cycle
        obtain ⟨next, edge, _⟩ := TransGen.head'_iff.mp cycle
        obtain ⟨name, found⟩ := edge
        rw [empty] at found
        cases found
      · intro child parent name other entry found
        rw [empty] at found
        cases found
    · intro parent name present
      exact absurd (empty parent name) present
  have kinded : Kinded (fun ino => if ino = parentOfRootInode then some .directory else none)
      (applyAll ∅ (initWrites cfg)) := by
    constructor
    · intro ino desc described
      rw [inoDescription, lookup_applyAll_of_notMem _ _ _ (by simp [initWrites])] at described
      cases described
    · intro parent name item found
      rw [empty] at found
      cases found
  have created : TiFs.Wooded _ (Operation.initStore cfg call now) :=
    bare.created kinded (by decide) (by exact Option.some_ne_none _)
  refine ⟨created.forest, ?_⟩
  intro parent name present
  rw [entry_initStore present]
  exact above

theorem counter_initStore (cfg : TiFsConfig) (call : InitCall) (now : SystemTime) :
    metaMutable (Operation.initStore cfg call now) = some ⟨firstDataInode⟩ := by
  rw [metaMutable, Operation.initStore,
    lookup_applyAll_of_notMem _ _ _ (counter_notMem_createdWrites call.args rootInode now)]
  exact lookup_put_self _ Key.metaMutable _

theorem wooded_initial (cfg : TiFsConfig) (call : InitCall) (now : SystemTime) :
    (Namespace.initial cfg call now).Wooded cfg (initialKinds (Operation.initStore cfg call now)) := by
  have typed := (@typed_of_settled (Namespace.initial cfg call now).db (settled_initStore cfg call now)).typed
  have absent : storedKinds (Operation.initStore cfg call now) parentOfRootInode = none := by
    by_contra present
    have described : inoDescription (Operation.initStore cfg call now) parentOfRootInode ≠ none := by
      intro missing
      apply present
      rw [storedKinds, missing]
      rfl
    exact absurd (described_initStore described) (by decide)
  have none : ∀ proc, proc ∉ (Namespace.initial cfg call now).procs := fun _ => List.not_mem_nil
  constructor
  · exact fun proc member => absurd member (none proc)
  · constructor
    · constructor
      · exact typed.kinded.grow (Kinds.grows_update absent _)
      · intro ino unissued
        have later : ino ≠ parentOfRootInode := by
          intro isZero
          change Unissued (Operation.initStore cfg call now) ino at unissued
          rw [Unissued, counter_initStore, isZero] at unissued
          exact absurd unissued (by decide)
        rw [initialKinds, Function.update_of_ne later]
        exact typed.unissued ino unissued
      · intro client args ino staged
        cases staged
      · intro client other args also ino staged
        cases staged
    · exact fun proc member => absurd member (none proc)
  · exact fun proc member => absurd member (none proc)
  · apply wooded_initStore
    rw [initialKinds, Function.update_self]
    exact Option.some_ne_none _

end TiFs
