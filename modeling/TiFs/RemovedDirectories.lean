import TiFs.InodeKinds
import TiFs.Orphans

/-! Directories that have lost their links have no entries, as long as a removal and an
addition of entries do not overlap. The removal scans the entries of the directory and
writes its link; an addition writes an entry and reads nothing of the directory, so the
two have no written key in common. -/

namespace TiFs

open KeyValue

def IsDirectory (store : Store) (ino : StorageIno) : Prop :=
  ∃ desc ∈ inoDescription store ino, desc.typ = .directory

def ChildrenLinked (store : Store) : Prop :=
  ∀ dir, IsDirectory store dir → dir ≠ rootInode → (∃ name, dirEntry store dir name ≠ none) →
    Linked store dir

instance (store : Store) (ino : StorageIno) : Decidable (IsDirectory store ino) :=
  inferInstanceAs (Decidable (∃ desc ∈ inoDescription store ino, desc.typ = .directory))

theorem linked_iff (store : Store) (ino : StorageIno) :
    (∃ link, link ∈ parentLinks store ino) ↔ Linked store ino := by
  constructor
  · intro listed
    obtain ⟨⟨parent, name⟩, member⟩ := listed
    exact ⟨parent, name, (mem_parentLinks _ _ _ _).mp member⟩
  · intro linked
    obtain ⟨parent, name, link⟩ := linked
    exact ⟨(parent, name), (mem_parentLinks _ _ _ _).mpr link⟩

instance (store : Store) (ino : StorageIno) : Decidable (Linked store ino) :=
  decidable_of_iff (parentLinks store ino).Nonempty (linked_iff store ino)

/-- The directory operations, each issued with a linked directory for its new entry. -/
def Namespace.NamesLinked (state : Namespace) : Event → Prop
  | .spawn (.create args) =>
      IsDirectory state.db.data args.parent ∧ Linked state.db.data args.parent
  | .spawn (.link parent _ _) => IsDirectory state.db.data parent ∧ Linked state.db.data parent
  | .spawn (.rename _ _ newParent _) =>
      IsDirectory state.db.data newParent ∧ Linked state.db.data newParent
  | .spawn (.openFile _ _) => False
  | .spawn (.closeFile _ _) => False
  | _ => True

def Expendable (store : Store) (dir : StorageIno) (parent : ParentStorageIno) (name : ByteString) : Prop :=
  childNames store dir = ∅ ∨ LinkedElsewhere store dir parent name

/-- When a transaction commits, the directory that it adds an entry to is still linked,
and the directory that it removes is still empty. A rename that found its new name
taken at its start, and so only removes, is no rename of a directory with entries. -/
def Stage.Apart (start store : Store) : Stage → Prop
  | .addNewInode args _ => dirEntry start args.parent args.name = none →
      args.parent = rootInode ∨ Linked store args.parent
  | .addExistingInode parent name _ => dirEntry start parent name = none →
      parent = rootInode ∨ Linked store parent
  | .removeEmptyDirectory parent name => ∀ item ∈ dirEntry store parent name,
      Expendable store item.ino parent name
  | .renameChild parent name newParent newName =>
      (dirEntry start newParent newName = none → newParent = rootInode ∨ Linked store newParent) ∧
      (dirEntry start newParent newName ≠ none → ∀ item ∈ dirEntry store parent name,
        item.typ = .directory → Expendable store item.ino parent name)
  | _ => True

def Namespace.Apart (state : Namespace) : Event → Prop
  | .commit client => ∀ proc ∈ state.procs[client]?, ∀ attempt ∈ proc.attempt, ∀ stage ∈ proc.stage,
      stage.Apart attempt.start.data state.db.data
  | _ => True

/-- The stages of the calls that are looked at here; an unlink takes no directory. -/
def Stage.isEntryChange : Stage → Bool
  | .removeChild _ _ allowedTypes => .directory ∉ allowedTypes
  | .openInode _ _ => false
  | .closeInode _ _ => false
  | _ => true

def Housed (kinds : Kinds) (store : Store) : Prop :=
  ∀ dir, kinds dir = some .directory → dir ≠ rootInode → (∃ name, dirEntry store dir name ≠ none) →
    Linked store dir

section Housed

variable {kinds later : Kinds} {store after : Store} {parent newParent : ParentStorageIno}
  {name newName : ByteString} {item : StorageDirItem}

theorem Housed.congr (housed : Housed kinds store)
    (same : ∀ key : Key, key.isLink = true → after.lookup key = store.lookup key) :
    Housed kinds after := by
  intro dir isDir notRoot entered
  rw [linked_congr same]
  apply housed dir isDir notRoot
  obtain ⟨name, present⟩ := entered
  refine ⟨name, ?_⟩
  rw [← show dirEntry after dir name = dirEntry store dir name from same (.directoryChild dir name) rfl]
  exact present

theorem Housed.add (housed : Housed kinds store) (still : parent = rootInode ∨ Linked store parent)
    (fresh : ∀ ino, later ino = kinds ino ∨
      Linked (applyAll store (addedLinks parent name item)) ino) :
    Housed later (applyAll store (addedLinks parent name item)) := by
  have kept : ∀ ino, Linked store ino → Linked (applyAll store (addedLinks parent name item)) ino := by
    intro ino linked
    obtain ⟨above, entry, link⟩ := linked
    exact ⟨above, entry, (hasParentLink_addedLinks _ _ _ _ _ _ _).mpr (Or.inr link)⟩
  intro dir isDir notRoot entered
  rcases fresh dir with same | linked
  · obtain ⟨entry, present⟩ := entered
    rw [dirEntry_addedLinks] at present
    apply kept
    by_cases here : dir = parent
    · rw [here] at notRoot ⊢
      exact still.resolve_left notRoot
    · rw [if_neg (fun slot => here (Prod.mk.inj slot).1)] at present
      exact housed dir (same.symm.trans isDir) notRoot ⟨entry, present⟩
  · exact linked

theorem Housed.remove (housed : Housed kinds store)
    (expendable : kinds item.ino = some .directory → Expendable store item.ino parent name) :
    Housed kinds (applyAll store (removedLinks parent name item.ino)) := by
  intro dir isDir notRoot entered
  obtain ⟨entry, present⟩ := entered
  rw [dirEntry_removedLinks] at present
  have before : dirEntry store dir entry ≠ none := by
    split at present
    · exact absurd rfl present
    · exact present
  by_cases same : dir = item.ino
  · rw [same] at isDir before ⊢
    rcases expendable isDir with empty | elsewhere
    · have listed := (mem_childNames store item.ino entry).mpr before
      rw [empty] at listed
      exact absurd listed (Finset.notMem_empty entry)
    · obtain ⟨⟨above, other⟩, listed, different⟩ := elsewhere
      refine ⟨above, other, (hasParentLink_removedLinks _ _ _ _ _ _ _).mpr ⟨?_, ?_⟩⟩
      · exact fun gone => different gone.2
      · exact (mem_parentLinks _ _ _ _).mp listed
  · obtain ⟨above, other, link⟩ := housed dir isDir notRoot ⟨entry, before⟩
    refine ⟨above, other, (hasParentLink_removedLinks _ _ _ _ _ _ _).mpr ⟨?_, link⟩⟩
    exact fun gone => same gone.1

theorem Housed.move (housed : Housed kinds store)
    (still : newParent = rootInode ∨ Linked store newParent)
    (different : (newParent, newName) ≠ (parent, name)) (typ : StorageDirItemKind) :
    Housed kinds (applyAll store (addedLinks newParent newName ⟨item.ino, typ⟩ ++
      removedLinks parent name item.ino)) := by
  rw [applyAll_append]
  apply Housed.remove
  · exact housed.add still fun _ => Or.inl rfl
  · intro _
    right
    refine ⟨(newParent, newName), ?_, different⟩
    apply (mem_parentLinks _ _ _ _).mpr
    exact (hasParentLink_addedLinks _ _ _ _ _ _ _).mpr (Or.inl ⟨rfl, rfl⟩)

theorem lookup_createdWrites {args : NewInode} {newIno : StorageIno} {now : SystemTime} {key : Key}
    (isLink : key.isLink = true) :
    (applyAll store (createdWrites args newIno now)).lookup key =
      (applyAll store (addedLinks args.parent args.name ⟨newIno, args.typ⟩)).lookup key := by
  rw [lookup_applyAll_filter store _ Key.isLink key isLink, filter_createdWrites]
  rw [applyAll_perm store (by simp) (List.Perm.swap _ _ _)]
  rfl

end Housed

section Commit

variable {cfg : TiFsConfig} {now : SystemTime} {kinds later : Kinds} {start db : Db Key.Value}
  {writes : List Write} {next : Option Stage} {stage : Stage}

theorem housed_commit {txn : Txn Key.Value} (housed : Housed kinds db.data)
    (kinded : Kinded kinds db.data) (extended : start.Extends db)
    (may : Db.MayCommit start db writes)
    (ran : stage.body cfg now ⟨start.data, []⟩ = .ok (next, txn)) (isBuffer : writes = txn.buffer)
    (apart : stage.Apart start.data db.data) (listed : stage.isEntryChange = true) :
    Housed kinds (db.commit writes).data := by
  have current : ∀ key ∈ writes.map Mutation.key, db.data.lookup key = start.data.lookup key :=
    fun key written => extended.read_current may written
  have plain : (∀ key : Key, key.isLink = true → key ∉ writes.map Mutation.key) →
      Housed kinds (applyAll db.data writes) := by
    intro outside
    apply housed.congr
    intro key isLink
    exact lookup_applyAll_of_notMem db.data writes key (outside key isLink)
  -- The entry that a removal takes is the one that it has read.
  have taken : ∀ {parent name ino}, Key.directoryChild parent name ∈
      (removedLinks parent name ino).map Mutation.key := by
    intro parent name ino
    simp [removedLinks]
  have effect : Effect cfg now start.data stage writes next := isBuffer ▸ body_effect stage ran
  change Housed kinds (applyAll db.data writes)
  cases effect with
  | reservedRoot args blank =>
      apply plain
      intro key isLink written
      simp only [initWrites, List.map_cons, List.map_nil, Mutation.put_key, List.mem_cons,
        List.not_mem_nil, or_false] at written
      rcases written with rfl | rfl <;> cases isLink
  | reserved args dynMeta stored =>
      apply plain
      intro key isLink written
      rw [List.mem_singleton.mp written] at isLink
      cases isLink
  | created args newIno free =>
      have added : Housed kinds (applyAll db.data
          (addedLinks args.parent args.name ⟨newIno, args.typ⟩)) :=
        housed.add (apart free) fun _ => Or.inl rfl
      apply added.congr
      intro key isLink
      exact lookup_createdWrites isLink
  | linked parent name ino desc free stored =>
      apply housed.add (apart free)
      intro _
      exact Or.inl rfl
  | removed parent name allowedTypes item found =>
      apply housed.remove
      intro isDir
      have present : dirEntry db.data parent name = some item := (current _ taken).trans found
      have isKind := kinded.entries parent name item present
      rw [isDir] at isKind
      obtain ⟨result, removed, _⟩ := of_bind_pure ran
      obtain ⟨isItem, allowed, _⟩ := removeChild_ok removed
      obtain rfl := Option.some.inj (found.symm.trans isItem)
      rw [← Option.some.inj isKind] at allowed
      exact absurd allowed (of_decide_eq_true listed)
  | descriptionDeleted item unlinked =>
      apply plain
      intro key isLink written
      rw [List.mem_singleton.mp written] at isLink
      cases isLink
  | metadataDeleted ino kind rest =>
      apply plain
      intro key isLink written
      rw [List.mem_singleton.mp written] at isLink
      cases isLink
  | directoryRemoved parent name item found =>
      apply housed.remove
      intro _
      exact apart item ((current _ taken).trans found)
  | sourceDropped parent name newParent newName item found =>
      apply housed.remove
      intro isDir
      have present : dirEntry db.data parent name = some item := (current _ taken).trans found
      have isKind := kinded.entries parent name item present
      rw [isDir] at isKind
      exact apart.2 (rename_taken ran isBuffer.symm) item present (Option.some.inj isKind).symm
  | moved parent name newParent newName item desc found free stored =>
      apply housed.move (apart.1 free)
      intro same
      obtain ⟨rfl, rfl⟩ := Prod.mk.inj same
      rw [found] at free
      cases free
  | opened ino useId desc linkedDesc stored linked free => cases listed
  | closed ino useId item found => cases listed
  | nothing stage => exact plain fun _ _ => List.not_mem_nil

end Commit

structure Namespace.Housed (cfg : TiFsConfig) (state : Namespace) : Prop where
  sound : state.Sound cfg
  ran : ∀ proc ∈ state.procs, proc.Ran cfg
  listed : ∀ proc ∈ state.procs, ∀ stage, proc.stage = some stage → stage.isEntryChange = true
  housed : ∃ kinds, state.Typed kinds ∧ TiFs.Housed kinds state.db.data

theorem Call.first_isEntryChange {state : Namespace} {call : Call} {stage : Stage}
    (issued : state.NamesLinked (.spawn call)) (first : call.first = some stage) :
    stage.isEntryChange = true := by
  cases call with
  | create args =>
      rw [← Option.some.inj first]
      rfl
  | link parent name ino =>
      simp only [Call.first] at first
      split at first
      · cases first
      · rw [← Option.some.inj first]
        rfl
  | removeFile parent name =>
      rw [← Option.some.inj first]
      rfl
  | removeDirectory parent name =>
      rw [← Option.some.inj first]
      rfl
  | rename parent name newParent newName =>
      simp only [Call.first] at first
      split at first
      · rw [← Option.some.inj first]
        rfl
      · cases first
  | openFile ino useId => exact issued.elim
  | closeFile ino useId => exact issued.elim

theorem Effect.next_isEntryChange {cfg : TiFsConfig} {now : SystemTime} {store : Store} {stage next : Stage}
    {writes : List Write} (effect : Effect cfg now store stage writes (some next)) :
    next.isEntryChange = true := by
  cases effect <;> rfl

theorem housed_step {cfg : TiFsConfig} {before after : Namespace} {event : Event}
    (housed : before.Housed cfg) (taken : Namespace.Step cfg before event after)
    (issued : before.NamesLinked event) (apart : before.Apart event) : after.Housed cfg := by
  obtain ⟨kinds, typed, kept⟩ := housed.housed
  obtain ⟨later, grows, fresh, typedAfter⟩ := typed_step housed.sound typed taken
  refine ⟨sound_step housed.sound taken, ran_step housed.ran taken, ?_, later, typedAfter, ?_⟩
  · apply stages_step (fun stage => stage.isEntryChange = true) _ _ housed.sound taken housed.listed
    · intro call isSpawn stage first
      rw [isSpawn] at issued
      exact Call.first_isEntryChange issued first
    · intro now store stage writes next _ effect
      exact effect.next_isEntryChange
  · have old : TiFs.Housed kinds after.db.data := by
      cases move_of_step taken with
      | spawned call => exact kept
      | began client now stage next txn idle ran => exact kept
      | stopped _ client => exact kept
      | retried client stage attempt running => exact kept
      | committed client stage attempt running may =>
          have member := List.mem_of_getElem? running
          obtain ⟨_, _, _, extended, _⟩ := housed.sound _ member attempt rfl
          obtain ⟨current, now, txn, isStage, ran, isBuffer⟩ := housed.ran _ member attempt rfl
          exact housed_commit kept typed.typed.kinded extended may ran isBuffer
            (apart _ running attempt rfl current isStage) (housed.listed _ member current isStage)
      | wrote writes outside =>
          apply kept.congr
          intro key isLink
          apply lookup_applyAll_of_notMem
          intro written
          obtain ⟨write, member, rfl⟩ := List.mem_map.mp written
          have plain := outside write member
          rw [Key.isNamespace_of_isLink isLink] at plain
          cases plain
    -- A kind that is new belongs to an inode that the step has linked.
    intro dir isDir notRoot entered
    rcases fresh dir with same | linked
    · exact old dir (same.symm.trans isDir) notRoot entered
    · exact linked

def storedKinds (store : Store) : Kinds := fun ino => (inoDescription store ino).map InoDescription.typ

theorem kinded_of_settled {store : Store} (settled : Settled store) : Kinded (storedKinds store) store where
  described := by
    intro ino desc described
    rw [storedKinds, described]
    rfl
  entries := by
    intro parent name item found
    obtain ⟨desc, described, isTyp⟩ := settled.described parent name item found
    rw [storedKinds, described, ← isTyp]
    rfl

theorem typed_of_settled {db : Db Key.Value} (settled : Settled db.data) :
    Namespace.Typed (storedKinds db.data) ⟨db, []⟩ := by
  constructor
  · constructor
    · exact kinded_of_settled settled
    · intro ino unissued
      rw [storedKinds, settled.unissued ino unissued]
      rfl
    · intro client args ino staged
      cases staged
    · intro client other args also ino staged
      cases staged
  · intro proc member
    cases member

theorem settled_initStore (cfg : TiFsConfig) (call : InitCall) (now : SystemTime) :
    Settled (Operation.initStore cfg call now) :=
  (Operation.tidy_create Operation.tidy_empty (Operation.init_run cfg call ⟨now, 0⟩)).filed.settled

theorem entry_initStore {cfg : TiFsConfig} {call : InitCall} {now : SystemTime} {dir : StorageIno}
    {name : ByteString} (present : dirEntry (Operation.initStore cfg call now) dir name ≠ none) :
    dir = parentOfRootInode := by
  by_contra different
  apply present
  rw [dirEntry, Operation.initStore, lookup_applyAll_of_notMem, lookup_applyAll_of_notMem]
  · rfl
  · simp [initWrites]
  · intro written
    rcases createdWrites_keys written with ⟨kind, isRecord⟩ | isEntry | isLink
    · cases isRecord
    · exact different (Key.directoryChild.inj isEntry).1
    · cases isLink

theorem described_initStore {cfg : TiFsConfig} {call : InitCall} {now : SystemTime} {ino : StorageIno}
    (present : inoDescription (Operation.initStore cfg call now) ino ≠ none) : ino = rootInode := by
  by_contra different
  apply present
  rw [inoDescription, Operation.initStore, lookup_applyAll_of_notMem, lookup_applyAll_of_notMem]
  · rfl
  · simp [initWrites]
  · intro written
    rcases createdWrites_keys written with ⟨kind, isRecord⟩ | isEntry | isLink
    · exact different (Key.inodeX.inj isRecord).1
    · cases isEntry
    · cases isLink

def Namespace.initial (cfg : TiFsConfig) (call : InitCall) (now : SystemTime) : Namespace :=
  ⟨⟨Operation.initStore cfg call now, fun _ => 0⟩, []⟩

theorem housed_initial (cfg : TiFsConfig) (call : InitCall) (now : SystemTime) :
    (Namespace.initial cfg call now).Housed cfg := by
  have none : ∀ proc, proc ∉ (Namespace.initial cfg call now).procs := fun _ => List.not_mem_nil
  refine ⟨fun proc member => absurd member (none proc), fun proc member => absurd member (none proc),
    fun proc member => absurd member (none proc), _, typed_of_settled (settled_initStore cfg call now), ?_⟩
  intro dir isDir notRoot entered
  obtain ⟨name, present⟩ := entered
  have described : inoDescription (Operation.initStore cfg call now) dir ≠ .none := by
    intro missing
    change (inoDescription (Operation.initStore cfg call now) dir).map InoDescription.typ = _ at isDir
    rw [missing] at isDir
    cases isDir
  exact absurd (described_initStore described) notRoot

/-- On an initialised store, whatever the clients interleave and retry: a directory with
entries is linked, as long as additions and removals keep apart. -/
theorem children_linked (cfg : TiFsConfig) (call : InitCall) (now : SystemTime) (state : Namespace)
    (run : Run (Namespace.Step cfg) (fun state event => state.NamesLinked event ∧ state.Apart event)
      (Namespace.initial cfg call now) state) : ChildrenLinked state.db.data := by
  have housed : state.Housed cfg := by
    apply run.invariant (Namespace.Housed cfg) _ (housed_initial cfg call now)
    intro before event after housed taken allowed
    exact housed_step housed taken allowed.1 allowed.2
  obtain ⟨kinds, typed, kept⟩ := housed.housed
  intro dir isDir notRoot entered
  obtain ⟨desc, described, isTyp⟩ := isDir
  apply kept dir _ notRoot entered
  rw [typed.typed.kinded.described dir desc described, isTyp]

instance (state : Namespace) : DecidablePred state.NamesLinked
  | .spawn (.create args) =>
      inferInstanceAs (Decidable (IsDirectory state.db.data args.parent ∧ Linked state.db.data args.parent))
  | .spawn (.link parent _ _) =>
      inferInstanceAs (Decidable (IsDirectory state.db.data parent ∧ Linked state.db.data parent))
  | .spawn (.rename _ _ newParent _) =>
      inferInstanceAs (Decidable (IsDirectory state.db.data newParent ∧ Linked state.db.data newParent))
  | .spawn (.removeFile _ _) => isTrue trivial
  | .spawn (.removeDirectory _ _) => isTrue trivial
  | .spawn (.openFile _ _) => isFalse id
  | .spawn (.closeFile _ _) => isFalse id
  | .begin _ _ => isTrue trivial
  | .commit _ => isTrue trivial
  | .retry _ => isTrue trivial
  | .abandon _ => isTrue trivial
  | .fileData _ => isTrue trivial

instance (store : Store) (dir : StorageIno) (parent : ParentStorageIno) (name : ByteString) :
    Decidable (Expendable store dir parent name) :=
  inferInstanceAs (Decidable (childNames store dir = ∅ ∨ LinkedElsewhere store dir parent name))

instance (start store : Store) : DecidablePred (Stage.Apart start store)
  | .addNewInode args _ => inferInstanceAs (Decidable (dirEntry start args.parent args.name = none →
      args.parent = rootInode ∨ Linked store args.parent))
  | .addExistingInode parent name _ => inferInstanceAs (Decidable (dirEntry start parent name = none →
      parent = rootInode ∨ Linked store parent))
  | .removeEmptyDirectory parent name => inferInstanceAs (Decidable
      (∀ item ∈ dirEntry store parent name, Expendable store item.ino parent name))
  | .renameChild parent name newParent newName => inferInstanceAs (Decidable
      ((dirEntry start newParent newName = none → newParent = rootInode ∨ Linked store newParent) ∧
      (dirEntry start newParent newName ≠ none → ∀ item ∈ dirEntry store parent name,
        item.typ = .directory → Expendable store item.ino parent name)))
  | .reserveNewIno _ => isTrue trivial
  | .removeChild _ _ _ => isTrue trivial
  | .checkForDelete _ => isTrue trivial
  | .deleteMetadata _ _ => isTrue trivial
  | .openInode _ _ => isTrue trivial
  | .closeInode _ _ => isTrue trivial

instance (state : Namespace) : DecidablePred state.Apart
  | .commit client => inferInstanceAs (Decidable (∀ proc ∈ state.procs[client]?, ∀ attempt ∈ proc.attempt,
      ∀ stage ∈ proc.stage, stage.Apart attempt.start.data state.db.data))
  | .spawn _ => isTrue trivial
  | .begin _ _ => isTrue trivial
  | .retry _ => isTrue trivial
  | .abandon _ => isTrue trivial
  | .fileData _ => isTrue trivial

theorem Namespace.exists_run (cfg : TiFsConfig) (allowed : Namespace → Event → Prop)
    [∀ state event, Decidable (allowed state event)] (first : Namespace) (events : List Event)
    (check : Namespace → Bool)
    (ran : (runAll (restrict allowed (Namespace.step cfg)) first events).any check = true) :
    ∃ last, Run (Namespace.Step cfg) allowed first last ∧ check last = true :=
  Run.of_restrict (fun _ _ _ taken => taken) events check ran

def makeDirectory : List Event :=
  [.spawn (.create (Operation.rootChild [100] .directory)), .begin 0 2, .commit 0, .begin 0 2, .commit 0]

def beginFile : List Event :=
  [.spawn (.create ⟨10, [120], .file, 0o644, 0, 0, 0, none⟩), .begin 1 3, .commit 1, .begin 1 3]

/-- The file is created and the directory is renamed to `e`. -/
theorem children_linked_renamed :
    ∃ state, Run (Namespace.Step (paddingConfig 2 (by decide)))
        (fun state event => state.NamesLinked event ∧ state.Apart event)
        (Namespace.initial (paddingConfig 2 (by decide)) ⟨0, 0, .reserve⟩ 1) state ∧
      dirEntry state.db.data 10 [120] = some ⟨11, .file⟩ ∧ ChildrenLinked state.db.data := by
  obtain ⟨state, run, check⟩ := Namespace.exists_run (paddingConfig 2 (by decide))
    (fun state event => state.NamesLinked event ∧ state.Apart event)
    (Namespace.initial (paddingConfig 2 (by decide)) ⟨0, 0, .reserve⟩ 1)
    (makeDirectory ++ beginFile ++
      [.commit 1, .spawn (.rename rootInode [100] rootInode [101]), .begin 2 4, .commit 2])
    (fun state => decide (dirEntry state.db.data 10 [120] = some ⟨11, .file⟩)) (by decide +kernel)
  exact ⟨state, run, of_decide_eq_true check, children_linked _ _ _ state run⟩

def Namespace.removalBegun (state : Namespace) (client : Nat) (parent : ParentStorageIno)
    (name : ByteString) (childIno : StorageIno) : Namespace :=
  state.setProc client ⟨some (.removeEmptyDirectory parent name),
    some ⟨state.db, removedLinks parent name childIno, none⟩⟩

theorem Namespace.begin_removal {cfg : TiFsConfig} {state : Namespace} {client : Nat}
    {now : SystemTime} {parent : ParentStorageIno} {name : ByteString} {childIno : StorageIno}
    (idle : state.procs[client]? = some ⟨some (.removeEmptyDirectory parent name), none⟩)
    (found : dirEntry state.db.data parent name = some ⟨childIno, .directory⟩)
    (empty : childNames state.db.data childIno = ∅) :
    Namespace.Step cfg state (.begin client now) (state.removalBegun client parent name childIno) := by
  have ran : (Stage.removeEmptyDirectory parent name).body cfg now ⟨state.db.data, []⟩ =
      .ok (none, ⟨state.db.data, removedLinks parent name childIno⟩) := by
    rw [Stage.body, bind_ok (Operation.removeEmpty_run found rfl empty)]
    rfl
  unfold Namespace.Step Namespace.step
  simp only [idle, ran]
  rfl

def Proc.isIdle (stage : Stage) (proc : Proc) : Bool :=
  decide (proc.stage = some stage) && proc.attempt.isNone

theorem Proc.eq_idle {proc : Option Proc} {stage : Stage} (check : proc.any (Proc.isIdle stage) = true) :
    proc = some ⟨some stage, none⟩ := by
  obtain ⟨⟨current, attempt⟩, isProc, checked⟩ := (Option.any_eq_true _ _).mp check
  unfold Proc.isIdle at checked
  simp only [Bool.and_eq_true, decide_eq_true_eq, Option.isNone_iff_eq_none] at checked
  rw [isProc, checked.1, checked.2]

def Namespace.isStranded (state : Namespace) : Bool :=
  state.procs.all (fun proc => proc.stage.isNone) &&
    decide (IsDirectory state.db.data 10 ∧ dirEntry state.db.data 10 [120] = some ⟨11, .file⟩ ∧
      ¬ Linked state.db.data 10)

theorem Namespace.not_childrenLinked {state : Namespace} (stranded : state.isStranded = true) :
    (∀ proc ∈ state.procs, proc.stage = none) ∧ ¬ ChildrenLinked state.db.data := by
  obtain ⟨returned, checked⟩ := Bool.and_eq_true_iff.mp stranded
  obtain ⟨isDir, entered, unlinked⟩ := of_decide_eq_true checked
  constructor
  · intro proc member
    exact Option.isNone_iff_eq_none.mp (List.all_eq_true.mp returned proc member)
  · intro linked
    apply unlinked
    apply linked 10 isDir (by decide)
    refine ⟨[120], ?_⟩
    rw [entered]
    exact Option.some_ne_none _

/-- The directory is scanned and removed while the file in it is on its way, and no
commit is refused. -/
theorem file_in_removed_directory :
    ¬ ∀ (cfg : TiFsConfig) (call : InitCall) (now : SystemTime) (state : Namespace),
      Run (Namespace.Step cfg) Namespace.NamesLinked (Namespace.initial cfg call now) state →
      (∀ proc ∈ state.procs, proc.stage = none) → ChildrenLinked state.db.data := by
  intro holds
  obtain ⟨state, run, check⟩ := Namespace.exists_run (paddingConfig 2 (by decide)) Namespace.NamesLinked
    (Namespace.initial (paddingConfig 2 (by decide)) ⟨0, 0, .reserve⟩ 1)
    (makeDirectory ++ beginFile ++ [.spawn (.removeDirectory rootInode [100])])
    (fun state => state.procs[2]?.any (Proc.isIdle (.removeEmptyDirectory rootInode [100])) &&
      decide (dirEntry state.db.data rootInode [100] = some ⟨10, .directory⟩ ∧
        childNames state.db.data 10 = ∅) &&
      (runAll (restrict Namespace.NamesLinked (Namespace.step (paddingConfig 2 (by decide))))
        (state.removalBegun 2 rootInode [100] 10) [.commit 2, .commit 1]).any Namespace.isStranded)
    (by decide +kernel)
  obtain ⟨begun, ended⟩ := Bool.and_eq_true_iff.mp check
  obtain ⟨idle, scanned⟩ := Bool.and_eq_true_iff.mp begun
  obtain ⟨found, empty⟩ := of_decide_eq_true scanned
  obtain ⟨last, rest, stranded⟩ := Namespace.exists_run _ _ _ _ _ ended
  have removal : Namespace.Step (paddingConfig 2 (by decide)) state (.begin 2 4)
      (state.removalBegun 2 rootInode [100] 10) :=
    Namespace.begin_removal (Proc.eq_idle idle) found empty
  obtain ⟨returned, broken⟩ := Namespace.not_childrenLinked stranded
  exact broken (holds _ _ _ last ((run.snoc _ removal trivial).trans rest) returned)

/-- A rename of the directory with the file in it onto the taken name `e` removes its link,
with one call at a time. -/
theorem directory_lost_by_rename :
    ∃ state, Run (Namespace.Step (paddingConfig 2 (by decide))) Namespace.NamesLinked
        (Namespace.initial (paddingConfig 2 (by decide)) ⟨0, 0, .reserve⟩ 1) state ∧
      (∀ proc ∈ state.procs, proc.stage = none) ∧ ¬ ChildrenLinked state.db.data := by
  obtain ⟨state, run, stranded⟩ := Namespace.exists_run (paddingConfig 2 (by decide)) Namespace.NamesLinked
    (Namespace.initial (paddingConfig 2 (by decide)) ⟨0, 0, .reserve⟩ 1)
    (makeDirectory ++ beginFile ++ [.commit 1, .spawn (.create (Operation.rootChild [101] .directory)),
      .begin 2 4, .commit 2, .begin 2 4, .commit 2,
      .spawn (.rename rootInode [100] rootInode [101]), .begin 3 5, .commit 3])
    Namespace.isStranded (by decide +kernel)
  exact ⟨state, run, Namespace.not_childrenLinked stranded⟩

end TiFs