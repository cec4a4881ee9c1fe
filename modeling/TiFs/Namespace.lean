import TiFs.Directory

/-! The directory operations of any number of clients, each a sequence of
optimistic transactions, and everything one such transaction can do. -/

namespace TiFs

open KeyValue

/-- The calls of the storage interface that change directories. `create` serves
mknod, mkdir, symlink and the creation of the root directory. -/
inductive Call where
  | create (args : NewInode)
  | link (parent : ParentStorageIno) (name : ByteString) (ino : StorageIno)
  | removeFile (parent : ParentStorageIno) (name : ByteString)
  | removeDirectory (parent : ParentStorageIno) (name : ByteString)
  | rename (parent : ParentStorageIno) (name : ByteString) (newParent : ParentStorageIno)
      (newName : ByteString)
  | openFile (ino : StorageIno) (useId : Uuid)
  | closeFile (ino : StorageIno) (useId : Uuid)
  deriving DecidableEq, Repr

/-- The transaction a call runs next. -/
inductive Stage where
  | reserveNewIno (args : NewInode)
  | addNewInode (args : NewInode) (newIno : StorageIno)
  | addExistingInode (parent : ParentStorageIno) (name : ByteString) (ino : StorageIno)
  | removeChild (parent : ParentStorageIno) (name : ByteString)
      (allowedTypes : List StorageDirItemKind)
  | checkForDelete (unlinked : StorageDirItem)
  | deleteMetadata (ino : StorageIno) (kinds : List InoMetadata)
  | removeEmptyDirectory (parent : ParentStorageIno) (name : ByteString)
  | renameChild (parent : ParentStorageIno) (name : ByteString) (newParent : ParentStorageIno)
      (newName : ByteString)
  | openInode (ino : StorageIno) (useId : Uuid)
  | closeInode (ino : StorageIno) (useId : Uuid)
  deriving DecidableEq, Repr

/-- A call that is already answered needs no transaction. -/
def Call.first : Call → Option Stage
  | .create args => some (.reserveNewIno args)
  | .link parent name ino =>
      if parent < rootInode then none else some (.addExistingInode parent name ino)
  | .removeFile parent name => some (.removeChild parent name [.file, .symlink])
  | .removeDirectory parent name => some (.removeEmptyDirectory parent name)
  | .rename parent name newParent newName =>
      match checkFileName name, checkFileName newName with
      | .ok (), .ok () => some (.renameChild parent name newParent newName)
      | _, _ => none
  | .openFile ino useId => some (.openInode ino useId)
  | .closeFile ino useId => some (.closeInode ino useId)

/-- The body of a stage's transaction and the stage that follows it. The blocks
of a deleted file are cleared by transactions on other keys. -/
def Stage.body (cfg : TiFsConfig) (now : SystemTime) : Stage → Mini (Option Stage)
  | .reserveNewIno args => do
      let newIno ← metaMutableReserveNewIno cfg
      return some (.addNewInode args newIno)
  | .addNewInode args newIno => do
      let _ ← directoryAddChildCheckedNewInode args newIno now
      return none
  | .addExistingInode parent name ino => do
      let _ ← directoryAddChildCheckedExistingInode parent name ino
      return none
  | .removeChild parent name allowedTypes => do
      let unlinkedItem ← directoryRemoveChild parent name allowedTypes
      return some (.checkForDelete unlinkedItem)
  | .checkForDelete unlinkedItem => do
      match ← inodeCheckForDeleteAndDeleteAtomicallyDescription unlinkedItem.ino with
      | .deletedInoDesc => return some (.deleteMetadata unlinkedItem.ino InoMetadata.iter)
      | .stillUsed => return none
  | .deleteMetadata _ [] => return none
  | .deleteMetadata ino (kind :: rest) => do
      delete (.inodeX ino kind)
      return some (.deleteMetadata ino rest)
  | .removeEmptyDirectory parent name => do
      let _ ← directoryRemoveChildEmptyDirectory parent name
      return none
  | .renameChild parent name newParent newName => do
      directoryRenameChild parent name newParent newName
      return none
  | .openInode ino useId => do
      inodeOpen ino useId
      return none
  | .closeInode ino useId => do
      inodeClose ino useId
      return none

/-- A begun transaction: its start, the writes its body buffered there, and the
stage the call is in once it has committed. -/
structure Attempt where
  start : Db Key.Value
  writes : List Write
  next : Option Stage

structure Proc where
  stage : Option Stage
  attempt : Option Attempt

structure Namespace where
  db : Db Key.Value
  procs : List Proc

/-- Keys that hold the directory tree; the transactions on file data write none
of them. -/
def Key.isNamespace : Key → Bool
  | .metaMutable => true
  | .inodeX _ .description => true
  | .directoryChild _ _ => true
  | .parentLink _ _ _ => true
  | _ => false

inductive Event where
  | spawn (call : Call)
  | begin (client : Nat) (now : SystemTime)
  | commit (client : Nat)
  | retry (client : Nat)
  | abandon (client : Nat)
  | fileData (writes : List Write)

namespace Namespace

def setProc (state : Namespace) (client : Nat) (proc : Proc) : Namespace :=
  { state with procs := state.procs.set client proc }

def step (cfg : TiFsConfig) (state : Namespace) : Event → Option Namespace
  | .spawn call => some { state with procs := state.procs ++ [⟨call.first, none⟩] }
  | .begin client now =>
      match state.procs[client]? with
      | some ⟨some stage, none⟩ =>
          match stage.body cfg now ⟨state.db.data, []⟩ with
          | .ok (next, txn) =>
              some (state.setProc client ⟨some stage, some ⟨state.db, txn.buffer, next⟩⟩)
          -- The transaction is rolled back and the call returns the error.
          | .error _ => some (state.setProc client ⟨none, none⟩)
      | _ => none
  | .commit client =>
      match state.procs[client]? with
      | some ⟨_, some attempt⟩ =>
          if ∀ write ∈ attempt.writes, state.db.version write.key = attempt.start.version write.key then
            some ({ state with db := state.db.commit attempt.writes }.setProc client ⟨attempt.next, none⟩)
          else none
      | _ => none
  | .retry client =>
      match state.procs[client]? with
      | some ⟨stage, some _⟩ => some (state.setProc client ⟨stage, none⟩)
      | _ => none
  | .abandon client =>
      if client < state.procs.length then some (state.setProc client ⟨none, none⟩) else none
  | .fileData writes =>
      if ∀ write ∈ writes, write.key.isNamespace = false then
        some { state with db := state.db.commit writes }
      else none

def Step (cfg : TiFsConfig) (before : Namespace) (event : Event) (after : Namespace) : Prop :=
  step cfg before event = some after

def blank : Namespace := ⟨⟨∅, fun _ => 0⟩, []⟩

end Namespace

inductive Effect (cfg : TiFsConfig) (now : SystemTime) (store : Store) :
    Stage → List Write → Option Stage → Prop
  | reservedRoot (args : NewInode) (blank : store.lookup .metaMutable = none) :
      Effect cfg now store (.reserveNewIno args) (initWrites cfg) (some (.addNewInode args rootInode))
  | reserved (args : NewInode) (dynMeta : MetaMutable)
      (stored : store.lookup .metaMutable = some dynMeta) :
      Effect cfg now store (.reserveNewIno args)
        [Mutation.put .metaMutable ⟨dynMeta.inodeNext + 1⟩]
        (some (.addNewInode args dynMeta.inodeNext))
  | created (args : NewInode) (newIno : StorageIno)
      (free : dirEntry store args.parent args.name = none) :
      Effect cfg now store (.addNewInode args newIno) (createdWrites args newIno now) none
  | linked (parent : ParentStorageIno) (name : ByteString) (ino : StorageIno)
      (desc : InoDescription) (free : dirEntry store parent name = none)
      (stored : inoDescription store ino = some desc) :
      Effect cfg now store (.addExistingInode parent name ino)
        (addedLinks parent name ⟨ino, desc.typ⟩) none
  | removed (parent : ParentStorageIno) (name : ByteString)
      (allowedTypes : List StorageDirItemKind) (item : StorageDirItem)
      (found : dirEntry store parent name = some item) :
      Effect cfg now store (.removeChild parent name allowedTypes)
        (removedLinks parent name item.ino) (some (.checkForDelete item))
  | descriptionDeleted (item : StorageDirItem)
      (unlinked : ∀ parent name, ¬ hasParentLink store item.ino parent name) :
      Effect cfg now store (.checkForDelete item)
        [Mutation.delete (.inodeX item.ino .description)]
        (some (.deleteMetadata item.ino InoMetadata.iter))
  | metadataDeleted (ino : StorageIno) (kind : InoMetadata) (rest : List InoMetadata) :
      Effect cfg now store (.deleteMetadata ino (kind :: rest))
        [Mutation.delete (.inodeX ino kind)] (some (.deleteMetadata ino rest))
  | directoryRemoved (parent : ParentStorageIno) (name : ByteString) (item : StorageDirItem)
      (found : dirEntry store parent name = some item) :
      Effect cfg now store (.removeEmptyDirectory parent name)
        (removedLinks parent name item.ino) none
  | sourceDropped (parent : ParentStorageIno) (name : ByteString)
      (newParent : ParentStorageIno) (newName : ByteString) (item : StorageDirItem)
      (found : dirEntry store parent name = some item) :
      Effect cfg now store (.renameChild parent name newParent newName)
        (removedLinks parent name item.ino) none
  | moved (parent : ParentStorageIno) (name : ByteString) (newParent : ParentStorageIno)
      (newName : ByteString) (item : StorageDirItem) (desc : InoDescription)
      (found : dirEntry store parent name = some item)
      (free : dirEntry store newParent newName = none)
      (stored : inoDescription store item.ino = some desc) :
      Effect cfg now store (.renameChild parent name newParent newName)
        (addedLinks newParent newName ⟨item.ino, desc.typ⟩ ++ removedLinks parent name item.ino) none
  | opened (ino : StorageIno) (useId : Uuid) (desc linkedDesc : InoDescription)
      (stored : inoDescription store ino = some desc)
      (linked : inoDescription store desc.ino = some linkedDesc)
      (free : dirEntry store openedInodeParentInode (uuidToString useId) = none) :
      Effect cfg now store (.openInode ino useId)
        (addedLinks openedInodeParentInode (uuidToString useId) ⟨desc.ino, linkedDesc.typ⟩) none
  | closed (ino : StorageIno) (useId : Uuid) (item : StorageDirItem)
      (found : dirEntry store openedInodeParentInode (uuidToString useId) = some item) :
      Effect cfg now store (.closeInode ino useId)
        (removedLinks openedInodeParentInode (uuidToString useId) item.ino) none
  | nothing (stage : Stage) : Effect cfg now store stage [] none

theorem of_bind_pure {A : Type} {body : Mini A} {next : A → Option Stage} {store : Store}
    {result : Option Stage} {after : Txn Key.Value}
    (ran : (body >>= fun value => pure (next value)) ⟨store, []⟩ = .ok (result, after)) :
    ∃ value, body ⟨store, []⟩ = .ok (value, after) ∧ result = next value := by
  obtain ⟨value, between, first, rest⟩ := bind_eq_ok ran
  obtain ⟨rfl, rfl⟩ := Prod.mk.inj (Except.ok.inj rest)
  exact ⟨value, first, rfl⟩

section BodyEffect

variable {cfg : TiFsConfig} {now : SystemTime} {store : Store} {next : Option Stage}
  {after : Txn Key.Value}

theorem reserve_effect {args : NewInode}
    (ran : (Stage.reserveNewIno args).body cfg now ⟨store, []⟩ = .ok (next, after)) :
    Effect cfg now store (.reserveNewIno args) after.buffer next := by
  obtain ⟨newIno, first, rfl⟩ := of_bind_pure ran
  cases stored : (Txn.mk store []).view.lookup .metaMutable with
  | none =>
      rw [reserve_blank cfg stored] at first
      obtain ⟨rfl, rfl⟩ := Prod.mk.inj (Except.ok.inj first)
      exact .reservedRoot args stored
  | some dynMeta =>
      rw [reserve_next cfg stored] at first
      obtain ⟨rfl, rfl⟩ := Prod.mk.inj (Except.ok.inj first)
      exact .reserved args dynMeta stored

theorem addNew_effect {args : NewInode} {newIno : StorageIno}
    (ran : (Stage.addNewInode args newIno).body cfg now ⟨store, []⟩ = .ok (next, after)) :
    Effect cfg now store (.addNewInode args newIno) after.buffer next := by
  obtain ⟨result, first, rfl⟩ := of_bind_pure ran
  cases found : dirEntry (Txn.mk store []).view args.parent args.name with
  | none =>
      rw [addNew_created found] at first
      obtain ⟨_, rfl⟩ := Prod.mk.inj (Except.ok.inj first)
      exact .created args newIno found
  | some existing =>
      rw [addNew_existed found] at first
      obtain ⟨_, rfl⟩ := Prod.mk.inj (Except.ok.inj first)
      exact .nothing _

theorem addExisting_effect {parent : ParentStorageIno} {name : ByteString} {ino : StorageIno}
    (ran : (Stage.addExistingInode parent name ino).body cfg now ⟨store, []⟩ = .ok (next, after)) :
    Effect cfg now store (.addExistingInode parent name ino) after.buffer next := by
  obtain ⟨result, first, rfl⟩ := of_bind_pure ran
  cases found : dirEntry (Txn.mk store []).view parent name with
  | some existing =>
      rw [addExisting_existed found] at first
      obtain ⟨_, rfl⟩ := Prod.mk.inj (Except.ok.inj first)
      exact .nothing _
  | none =>
      cases stored : inoDescription (Txn.mk store []).view ino with
      | none =>
          rw [addExisting_missing found stored] at first
          cases first
      | some desc =>
          rw [addExisting_created found stored] at first
          obtain ⟨_, rfl⟩ := Prod.mk.inj (Except.ok.inj first)
          exact .linked parent name ino desc found stored

theorem checkForDelete_effect {item : StorageDirItem}
    (ran : (Stage.checkForDelete item).body cfg now ⟨store, []⟩ = .ok (next, after)) :
    Effect cfg now store (.checkForDelete item) after.buffer next := by
  obtain ⟨result, between, first, rest⟩ := bind_eq_ok ran
  by_cases linked : ∃ parent name, hasParentLink (Txn.mk store []).view item.ino parent name
  · rw [checkForDelete_used linked] at first
    obtain ⟨rfl, rfl⟩ := Prod.mk.inj (Except.ok.inj first)
    obtain ⟨rfl, rfl⟩ := Prod.mk.inj (Except.ok.inj rest)
    exact .nothing _
  · push Not at linked
    rw [checkForDelete_deleted linked] at first
    obtain ⟨rfl, rfl⟩ := Prod.mk.inj (Except.ok.inj first)
    obtain ⟨rfl, rfl⟩ := Prod.mk.inj (Except.ok.inj rest)
    exact .descriptionDeleted item linked

theorem rename_effect {parent newParent : ParentStorageIno} {name newName : ByteString}
    (ran : (Stage.renameChild parent name newParent newName).body cfg now ⟨store, []⟩ =
      .ok (next, after)) :
    Effect cfg now store (.renameChild parent name newParent newName) after.buffer next := by
  obtain ⟨result, first, rfl⟩ := of_bind_pure ran
  cases found : dirEntry (Txn.mk store []).view parent name with
  | none =>
      rw [rename_missing found] at first
      cases first
  | some item =>
      cases target : dirEntry (Txn.mk store []).view newParent newName with
      | some existing =>
          rw [rename_existed found target] at first
          obtain ⟨_, rfl⟩ := Prod.mk.inj (Except.ok.inj first)
          exact .sourceDropped parent name newParent newName item found
      | none =>
          cases stored : inoDescription (Txn.mk store []).view item.ino with
          | none =>
              rw [rename_noDescription found target stored] at first
              cases first
          | some desc =>
              rw [rename_moved found target stored] at first
              obtain ⟨_, rfl⟩ := Prod.mk.inj (Except.ok.inj first)
              exact .moved parent name newParent newName item desc found target stored

theorem body_effect (stage : Stage)
    (ran : stage.body cfg now ⟨store, []⟩ = .ok (next, after)) :
    Effect cfg now store stage after.buffer next := by
  cases stage with
  | reserveNewIno args => exact reserve_effect ran
  | addNewInode args newIno => exact addNew_effect ran
  | addExistingInode parent name ino => exact addExisting_effect ran
  | removeChild parent name allowedTypes =>
      obtain ⟨item, first, rfl⟩ := of_bind_pure ran
      obtain ⟨found, _, rfl⟩ := removeChild_ok first
      exact .removed parent name allowedTypes item found
  | checkForDelete item => exact checkForDelete_effect ran
  | deleteMetadata ino kinds =>
      cases kinds with
      | nil =>
          obtain ⟨rfl, rfl⟩ := Prod.mk.inj (Except.ok.inj ran)
          exact .nothing _
      | cons kind rest =>
          obtain ⟨_, first, rfl⟩ := of_bind_pure ran
          obtain ⟨_, rfl⟩ := Prod.mk.inj (Except.ok.inj first)
          exact .metadataDeleted ino kind rest
  | removeEmptyDirectory parent name =>
      obtain ⟨item, first, rfl⟩ := of_bind_pure ran
      obtain ⟨found, _, _, rfl⟩ := removeEmpty_ok first
      exact .directoryRemoved parent name item found
  | renameChild parent name newParent newName => exact rename_effect ran
  | openInode ino useId =>
      obtain ⟨_, first, rfl⟩ := of_bind_pure ran
      obtain ⟨desc, linkedDesc, stored, linked, free, rfl⟩ := open_ok first
      exact .opened ino useId desc linkedDesc stored linked free
  | closeInode ino useId =>
      obtain ⟨_, first, rfl⟩ := of_bind_pure ran
      obtain ⟨item, found, _, rfl⟩ := close_ok first
      exact .closed ino useId item found

end BodyEffect

inductive Move (cfg : TiFsConfig) (before : Namespace) : Event → Namespace → Prop
  | spawned (call : Call) :
      Move cfg before (.spawn call) { before with procs := before.procs ++ [⟨call.first, none⟩] }
  | began (client : Nat) (now : SystemTime) (stage : Stage) (next : Option Stage)
      (txn : Txn Key.Value) (idle : before.procs[client]? = some ⟨some stage, none⟩)
      (ran : stage.body cfg now ⟨before.db.data, []⟩ = .ok (next, txn)) :
      Move cfg before (.begin client now)
        (before.setProc client ⟨some stage, some ⟨before.db, txn.buffer, next⟩⟩)
  | stopped (event : Event) (client : Nat) :
      Move cfg before event (before.setProc client ⟨none, none⟩)
  | retried (client : Nat) (stage : Option Stage) (attempt : Attempt)
      (running : before.procs[client]? = some ⟨stage, some attempt⟩) :
      Move cfg before (.retry client) (before.setProc client ⟨stage, none⟩)
  | committed (client : Nat) (stage : Option Stage) (attempt : Attempt)
      (running : before.procs[client]? = some ⟨stage, some attempt⟩)
      (may : Db.MayCommit attempt.start before.db attempt.writes) :
      Move cfg before (.commit client)
        ({ before with db := before.db.commit attempt.writes }.setProc client ⟨attempt.next, none⟩)
  | wrote (writes : List Write) (outside : ∀ write ∈ writes, write.key.isNamespace = false) :
      Move cfg before (.fileData writes) { before with db := before.db.commit writes }

theorem move_of_step {cfg : TiFsConfig} {before after : Namespace} {event : Event}
    (taken : Namespace.Step cfg before event after) : Move cfg before event after := by
  unfold Namespace.Step Namespace.step at taken
  cases event with
  | spawn call =>
      obtain rfl := Option.some.inj taken
      exact .spawned call
  | begin client now =>
      simp only at taken
      split at taken
      · next stage idle =>
          split at taken
          · next next txn ran =>
              obtain rfl := Option.some.inj taken
              exact .began client now stage next txn idle ran
          · obtain rfl := Option.some.inj taken
            exact .stopped _ client
      · cases taken
  | commit client =>
      simp only at taken
      split at taken
      · next stage attempt running =>
          split at taken
          · next may =>
              obtain rfl := Option.some.inj taken
              exact .committed client stage attempt running may
          · cases taken
      · cases taken
  | retry client =>
      simp only at taken
      split at taken
      · next stage attempt running =>
          obtain rfl := Option.some.inj taken
          exact .retried client stage attempt running
      · cases taken
  | abandon client =>
      simp only at taken
      split at taken
      · obtain rfl := Option.some.inj taken
        exact .stopped _ client
      · cases taken
  | fileData writes =>
      simp only at taken
      split at taken
      · next outside =>
          obtain rfl := Option.some.inj taken
          exact .wrote writes outside
      · cases taken

def Proc.Sound (cfg : TiFsConfig) (db : Db Key.Value) (proc : Proc) : Prop :=
  ∀ attempt, proc.attempt = some attempt → ∃ stage now, proc.stage = some stage ∧
    attempt.start.Extends db ∧
    Effect cfg now attempt.start.data stage attempt.writes attempt.next

def Namespace.Sound (cfg : TiFsConfig) (state : Namespace) : Prop :=
  ∀ proc ∈ state.procs, proc.Sound cfg state.db

theorem Proc.sound_idle (cfg : TiFsConfig) (db : Db Key.Value) (stage : Option Stage) :
    Proc.Sound cfg db ⟨stage, none⟩ := by
  intro attempt running
  cases running

theorem Proc.Sound.commit {cfg : TiFsConfig} {db : Db Key.Value} {proc : Proc}
    (sound : proc.Sound cfg db) (writes : List Write) : proc.Sound cfg (db.commit writes) := by
  intro attempt running
  obtain ⟨stage, now, staged, extended, effect⟩ := sound attempt running
  exact ⟨stage, now, staged, extended.commit writes, effect⟩

theorem Namespace.Sound.setProc {cfg : TiFsConfig} {state : Namespace} (sound : state.Sound cfg)
    {proc : Proc} (client : Nat) (fresh : proc.Sound cfg state.db) :
    (state.setProc client proc).Sound cfg := by
  intro other member
  rcases List.mem_or_eq_of_mem_set member with old | rfl
  · exact sound other old
  · exact fresh

theorem sound_step {cfg : TiFsConfig} {before after : Namespace} {event : Event}
    (sound : before.Sound cfg) (taken : Namespace.Step cfg before event after) :
    after.Sound cfg := by
  cases move_of_step taken with
  | spawned call =>
      intro proc member
      rcases List.mem_append.mp member with old | new
      · exact sound proc old
      · rw [List.mem_singleton.mp new]
        exact Proc.sound_idle cfg before.db call.first
  | began client now stage next txn idle ran =>
      refine sound.setProc client ?_
      intro attempt running
      obtain rfl := Option.some.inj running
      exact ⟨stage, now, rfl, before.db.extends_self, body_effect stage ran⟩
  | stopped _ client => exact sound.setProc client (Proc.sound_idle cfg _ _)
  | retried client stage attempt running => exact sound.setProc client (Proc.sound_idle cfg _ _)
  | committed client stage attempt running may =>
      have committed : Namespace.Sound cfg { before with db := before.db.commit attempt.writes } :=
        fun proc member => (sound proc member).commit attempt.writes
      exact committed.setProc client (Proc.sound_idle cfg _ _)
  | wrote writes outside => exact fun proc member => (sound proc member).commit writes

end TiFs
