import TiFs.Orphans
import TiFs.SnapshotEntry

namespace TiFs

open KeyValue

def asFilePerm (mode : UInt32) : Nat := (mode &&& ~~~ (0o4000 ||| 0o2000)).toUInt16.toNat

/-- Another mode is not implemented, and the call panics. -/
def asFileKind (mode : UInt32) : Option FileType :=
  let kind := mode &&& 0o170000
  if kind = 0o100000 then some .regularFile
  else if kind = 0o120000 then some .symlink
  else if kind = 0o040000 then some .directory
  else if kind = 0o010000 then some .namedPipe
  else if kind = 0o060000 then some .blockDevice
  else if kind = 0o020000 then some .charDevice
  else if kind = 0o140000 then some .socket
  else none

def mapFileTypeToStorageDirItemKind : FileType → Except FsError StorageDirItemKind
  | .directory => .ok .directory
  | .regularFile => .ok .file
  | .symlink => .ok .symlink
  | _ => .error .wrongFileType

def HashFs.directoryAddChildCheckedNewInode (cfg : TiFsConfig) (now : SystemTime) (args : NewInode) :
    Fuse (GotOrMade StorageDirItem) := do
  let newIno ← Fuse.storage (metaMutableReserveNewIno cfg)
  Fuse.storage (TiFs.directoryAddChildCheckedNewInode args newIno now)

def HashFs.directoryAddNewSymlink (cfg : TiFsConfig) (now : SystemTime) (gid uid : Nat)
    (parent : ParentStorageIno) (name link : ByteString) : Fuse StorageDirItem := do
  match ← HashFs.directoryAddChildCheckedNewInode cfg now
      ⟨parent, name, .symlink, 0o777, gid, uid, 0, some link⟩ with
  | .newlyCreated item => return item
  | .existedAlready _ => throw (.storage .fileAlreadyExists)

def HashFs.snapshotCreate (cfg : TiFsConfig) (ambients : List Ambient) (name : ByteString) :
    Fuse (GotOrMade StorageDirItem) := fun store =>
  let last := SnapshotSystem.advanceAll store ⟨(⟨store, []⟩ : BlockSystem cfg), .fetchRoot name⟩ ambients
  match last.phase with
  | .returned (.ok result) => .ok (.ok result, last.blocks.store)
  | .returned (.error issue) => .ok (.error (.storage (.ofFsError issue)), last.blocks.store)
  | _ => .error .unfinished

def getAllFileAttributesStorageInoEntryReply (cfg : TiFsConfig) (now : SystemTime) (ino : StorageIno)
    (kind : InoKind) : Fuse Entry := do
  return ⟨now, (← inodeGetAllAttributes ino).stat cfg kind, 0⟩

/-- The mkdir of a transaction: among the snapshots a directory is a new snapshot. -/
def mkdirItem (cfg : TiFsConfig) (now : SystemTime) (ambients : List Ambient) (parent : ParentStorageIno)
    (name : ByteString) (perm gid uid : Nat) : Fuse StorageDirItem :=
  if parent = snapshotParentInode then do
    match ← HashFs.snapshotCreate cfg ambients name with
    | .newlyCreated created => return created
    | .existedAlready _ => throw (.own (.fileExist name))
  else do
    match ← HashFs.directoryAddChildCheckedNewInode cfg now
        ⟨parent, name, .directory, perm, gid, uid, 0, none⟩ with
    | .newlyCreated item => return item
    | .existedAlready _ => throw (.own (.fileExist name))

def Fuse.mkdir (cfg : TiFsConfig) (now : SystemTime) (ambients : List Ambient) (parent : Nat)
    (name : ByteString) (mode : UInt32) (gid uid : Nat) : Fuse Entry := do
  let pIno := LogicalIno.fromRaw parent
  Fuse.own (checkFileName name)
  let item ← mkdirItem cfg now ambients pIno.storageIno name (asFilePerm mode) gid uid
  getAllFileAttributesStorageInoEntryReply cfg now item.ino .regular

def Fuse.mknod (cfg : TiFsConfig) (now : SystemTime) (parent : Nat) (name : ByteString) (mode : UInt32)
    (gid uid rdev : Nat) : Fuse Entry := do
  let pIno := LogicalIno.fromRaw parent
  match asFileKind mode with
  | none => Fuse.silent .panicked
  | some fileType =>
      let typ ← Fuse.own (mapFileTypeToStorageDirItemKind fileType)
      Fuse.own (checkFileName name)
      match ← HashFs.directoryAddChildCheckedNewInode cfg now
          ⟨pIno.storageIno, name, typ, asFilePerm mode, gid, uid, rdev, none⟩ with
      | .existedAlready _ => throw (.own (.fileExist name))
      | .newlyCreated item => getAllFileAttributesStorageInoEntryReply cfg now item.ino .regular

def Fuse.symlink (cfg : TiFsConfig) (now : SystemTime) (gid uid parent : Nat) (name link : ByteString) :
    Fuse Entry := do
  let pIno := LogicalIno.fromRaw parent
  Fuse.own (checkFileName name)
  let item ← HashFs.directoryAddNewSymlink cfg now gid uid pIno.storageIno name link
  getAllFileAttributesStorageInoEntryReply cfg now item.ino .regular

inductive CreateCall where
  | mknod (mode : UInt32) (gid uid rdev : Nat) (now : SystemTime)
  | mkdir (mode : UInt32) (gid uid : Nat) (now : SystemTime) (ambients : List Ambient)
  | symlink (gid uid : Nat) (link : Bytes) (now : SystemTime)

/-- The kernel passes bytes, which become strings first. -/
def AsyncFs.create (cfg : TiFsConfig) (parent : Nat) (name : Bytes) : CreateCall → Fuse Entry
  | .mknod mode gid uid rdev now => Fuse.mknod cfg now parent (Utf8.lossy name) mode gid uid rdev
  | .mkdir mode gid uid now ambients => Fuse.mkdir cfg now ambients parent (Utf8.lossy name) mode gid uid
  | .symlink gid uid link now =>
      Fuse.symlink cfg now gid uid parent (Utf8.lossy name) (Utf8.lossy link)

def Created (cfg : TiFsConfig) (store : Store) (parent : Nat) (name : Bytes) (entry : Entry) (after : Store) :
    Prop :=
  ∃ call, AsyncFs.create cfg parent name call store = .ok (.ok entry, after)

/-- No number behind the limit has been handed out. -/
def WithinNumbers (store : Store) : Prop :=
  ∀ dynMeta : MetaMutable, store.lookup .metaMutable = some dynMeta → dynMeta.inodeNext ≤ inodeLimit

/-- What a name should mean: a lookup of it is always answered, it finds what was created
under the name, and nothing that was created under another one. The raw number that a create
answers with is the one of the new inode alone. -/
structure NamesAgree (cfg : TiFsConfig) (parent : Nat) (name : Bytes) : Prop where
  answered : ∀ store, AsyncFs.lookup cfg parent name store ≠ .error .panicked
  found : ∀ store entry after, Initialised store → Created cfg store parent name entry after →
    Resolves cfg after parent name entry.stat.ino
  own : ∀ store entry after, Initialised store → Created cfg store parent name entry after → WithinNumbers after →
    ∃ item, dirEntry after (LogicalIno.fromRaw parent).storageIno (Utf8.lossy name) = some item ∧
      LogicalIno.fromRaw entry.stat.ino = ⟨item.ino, .regular⟩
  distinct : ∀ store entry after other otherEntry otherAfter, Initialised store →
    Created cfg store parent name entry after → other ≠ name →
    Created cfg store parent other otherEntry otherAfter → ∀ ino, ¬ Resolves cfg otherAfter parent name ino

section Create

variable {A B : Type} {cfg : TiFsConfig} {store after : Store} {parent : Nat} {name : Bytes} {entry : Entry}

theorem Fuse.bind_inv {body : Fuse A} {next : A → Fuse B} {result : B}
    (ran : (body >>= next) store = .ok (.ok result, after)) :
    ∃ value between, body store = .ok (.ok value, between) ∧ next value between = .ok (.ok result, after) := by
  change (body store >>= fun outcome => ExceptT.bindCont next outcome.1 outcome.2) = _ at ran
  cases first : body store with
  | error reason =>
      rw [first] at ran
      cases ran
  | ok outcome =>
      rw [first] at ran
      obtain ⟨outcome, between⟩ := outcome
      cases outcome with
      | error issue => cases Prod.mk.inj (Except.ok.inj ran) |>.1
      | ok value => exact ⟨value, between, rfl, ran⟩

theorem checked_inv {filename : ByteString} {between : Store}
    (ran : Fuse.own (checkFileName filename) store = .ok (.ok (), between)) :
    filename.length ≤ maxNameLen ∧ between = store := by
  unfold checkFileName at ran
  split at ran
  · next short => exact ⟨short, (Prod.mk.inj (Except.ok.inj ran)).2.symm⟩
  · cases ran

theorem reply_inv {now : SystemTime} {ino : StorageIno}
    (ran : getAllFileAttributesStorageInoEntryReply cfg now ino .regular store = .ok (.ok entry, after)) :
    after = store ∧ ∃ data, inoData store ino = some data ∧
      entry.stat.ino = LogicalIno.toRaw ⟨data.1.ino, .regular⟩ := by
  obtain ⟨data, between, read, last⟩ := Fuse.bind_inv ran
  cases found : inoData store ino with
  | none =>
      obtain ⟨issue, failed⟩ := attributes_missing found
      rw [failed] at read
      cases Prod.mk.inj (Except.ok.inj read) |>.1
  | some stored =>
      rw [attributes_run found] at read
      obtain ⟨isData, rfl⟩ := Prod.mk.inj (Except.ok.inj read)
      obtain ⟨isEntry, rfl⟩ := Prod.mk.inj (Except.ok.inj last)
      rw [← Except.ok.inj isEntry, ← Except.ok.inj isData]
      exact ⟨rfl, stored, rfl, rfl⟩

theorem storage_inv {body : Mini A} {value : A} (ran : Fuse.storage body store = .ok (.ok value, after)) :
    atomically body store = .ok (value, after) := by
  unfold Fuse.storage at ran
  split at ran
  · next result last isRun =>
      obtain ⟨isValue, rfl⟩ := Prod.mk.inj (Except.ok.inj ran)
      rw [isRun, Except.ok.inj isValue]
  · cases Prod.mk.inj (Except.ok.inj ran) |>.1

theorem addChild_inv {args : NewInode} {now : SystemTime} {item : StorageDirItem} (initialised : Initialised store)
    (ran : HashFs.directoryAddChildCheckedNewInode cfg now args store = .ok (.ok (.newlyCreated item), after)) :
    EntryAdded store args.parent args.name item.ino after := by
  obtain ⟨newIno, between, reserved, added⟩ := Fuse.bind_inv ran
  obtain ⟨frame, _, above, counter⟩ := reserve_keeps initialised (storage_inv reserved)
  have same : ∀ other, dirEntry between args.parent other = dirEntry store args.parent other :=
    fun other => frame _ (by simp)
  have ran := storage_inv added
  cases found : dirEntry between args.parent args.name with
  | some existing =>
      rw [atomically_eq_ok (addNew_existed found)] at ran
      cases Prod.mk.inj (Except.ok.inj ran) |>.1
  | none =>
      rw [atomically_eq_ok (addNew_created found)] at ran
      obtain ⟨isItem, rfl⟩ := Prod.mk.inj (Except.ok.inj ran)
      rw [← GotOrMade.newlyCreated.inj isItem]
      apply entryAdded_created ((same _).symm.trans found) same
      exact ⟨above, _, counter, Nat.lt_succ_self newIno⟩

theorem snapshot_inv {filename : ByteString} {ambients : List Ambient} {item : StorageDirItem}
    (initialised : Initialised store)
    (ran : HashFs.snapshotCreate cfg ambients filename store = .ok (.ok (.newlyCreated item), after)) :
    EntryAdded store snapshotParentInode filename item.ino after := by
  have makes := @SnapshotSystem.makesEntry_advanceAll cfg store filename initialised ambients
  unfold HashFs.snapshotCreate at ran
  simp only at ran
  split at ran
  · next result returned =>
      obtain ⟨isItem, rfl⟩ := Prod.mk.inj (Except.ok.inj ran)
      have making := makes.making
      rw [returned, Except.ok.inj isItem] at making
      exact making
  · cases Prod.mk.inj (Except.ok.inj ran) |>.1
  · cases ran

theorem entry_of_reply {dir : ParentStorageIno} {filename : ByteString} {ino : StorageIno} {between : Store}
    {now : SystemTime} (added : EntryAdded store dir filename ino between)
    (ran : getAllFileAttributesStorageInoEntryReply cfg now ino .regular between = .ok (.ok entry, after)) :
    ∃ number, entry.stat.ino = LogicalIno.toRaw ⟨number, .regular⟩ ∧
      EntryAdded store dir filename number after := by
  obtain ⟨rfl, data, found, isIno⟩ := reply_inv ran
  obtain ⟨stored, isStored, isNumber⟩ := added.data
  rw [found] at isStored
  rw [Option.some.inj isStored, isNumber] at isIno
  exact ⟨ino, isIno, added⟩

theorem mkdirItem_inv {now : SystemTime} {ambients : List Ambient} {dir : ParentStorageIno}
    {filename : ByteString} {perm gid uid : Nat} {item : StorageDirItem} (initialised : Initialised store)
    (ran : mkdirItem cfg now ambients dir filename perm gid uid store = .ok (.ok item, after)) :
    EntryAdded store dir filename item.ino after := by
  unfold mkdirItem at ran
  split at ran
  · next isSnapshot =>
      obtain ⟨result, between, made, last⟩ := Fuse.bind_inv ran
      cases result with
      | existedAlready existing => cases Prod.mk.inj (Except.ok.inj last) |>.1
      | newlyCreated created =>
          obtain ⟨isItem, rfl⟩ := Prod.mk.inj (Except.ok.inj last)
          rw [isSnapshot, ← Except.ok.inj isItem]
          exact snapshot_inv initialised made
  · obtain ⟨result, between, made, last⟩ := Fuse.bind_inv ran
    cases result with
    | existedAlready existing => cases Prod.mk.inj (Except.ok.inj last) |>.1
    | newlyCreated created =>
        obtain ⟨isItem, rfl⟩ := Prod.mk.inj (Except.ok.inj last)
        rw [← Except.ok.inj isItem]
        exact addChild_inv initialised made

/-- Every call that creates an entry adds it under the name as a string. -/
theorem created_spec (initialised : Initialised store) (created : Created cfg store parent name entry after) :
    (Utf8.lossy name).length ≤ maxNameLen ∧
      ∃ ino, entry.stat.ino = LogicalIno.toRaw ⟨ino, .regular⟩ ∧
        EntryAdded store (LogicalIno.fromRaw parent).storageIno (Utf8.lossy name) ino after := by
  obtain ⟨call, ran⟩ := created
  cases call with
  | mknod mode gid uid rdev now =>
      simp only [AsyncFs.create, Fuse.mknod] at ran
      cases isKind : asFileKind mode with
      | none =>
          rw [isKind] at ran
          cases ran
      | some fileType =>
          rw [isKind] at ran
          obtain ⟨typ, first, isTyp, afterTyp⟩ := Fuse.bind_inv ran
          have unchanged : first = store := ((Prod.mk.inj (Except.ok.inj isTyp)).2).symm
          rw [unchanged] at afterTyp
          obtain ⟨_, second, checked, afterCheck⟩ := Fuse.bind_inv afterTyp
          obtain ⟨short, same⟩ := checked_inv checked
          rw [same] at afterCheck
          obtain ⟨result, third, made, last⟩ := Fuse.bind_inv afterCheck
          cases result with
          | existedAlready existing => cases Prod.mk.inj (Except.ok.inj last) |>.1
          | newlyCreated item => exact ⟨short, entry_of_reply (addChild_inv initialised made) last⟩
  | mkdir mode gid uid now ambients =>
      obtain ⟨_, first, checked, afterCheck⟩ := Fuse.bind_inv ran
      obtain ⟨short, same⟩ := checked_inv checked
      rw [same] at afterCheck
      obtain ⟨item, second, made, last⟩ := Fuse.bind_inv afterCheck
      exact ⟨short, entry_of_reply (mkdirItem_inv initialised made) last⟩
  | symlink gid uid link now =>
      obtain ⟨_, first, checked, afterCheck⟩ := Fuse.bind_inv ran
      obtain ⟨short, same⟩ := checked_inv checked
      rw [same] at afterCheck
      obtain ⟨item, second, made, last⟩ := Fuse.bind_inv afterCheck
      obtain ⟨result, third, added, returned⟩ := Fuse.bind_inv made
      cases result with
      | existedAlready existing => cases Prod.mk.inj (Except.ok.inj returned) |>.1
      | newlyCreated created =>
          obtain ⟨isItem, isStore⟩ := Prod.mk.inj (Except.ok.inj returned)
          rw [← Except.ok.inj isItem, ← isStore] at last
          exact ⟨short, entry_of_reply (addChild_inv initialised added) last⟩

theorem addChild_run {args : NewInode} {now : SystemTime} {dynMeta : MetaMutable}
    (stored : store.lookup .metaMutable = some dynMeta) (free : dirEntry store args.parent args.name = none) :
    HashFs.directoryAddChildCheckedNewInode cfg now args store =
      .ok (.ok (.newlyCreated ⟨dynMeta.inodeNext, args.typ⟩),
        applyAll (applyAll store [Mutation.put .metaMutable ⟨dynMeta.inodeNext + 1⟩])
          (createdWrites args dynMeta.inodeNext now)) := by
  have stillFree : dirEntry (Txn.mk (applyAll store
      [Mutation.put .metaMutable ⟨dynMeta.inodeNext + 1⟩]) []).view args.parent args.name = none := by
    rw [Txn.view_start, dirEntry, lookup_applyAll_of_notMem _ _ _ (by simp)]
    exact free
  rw [HashFs.directoryAddChildCheckedNewInode, metaMutableReserveNewIno,
    Fuse.bind_ok (Fuse.storage_ok (reserve_many cfg 1 stored))]
  apply Fuse.storage_ok
  rw [atomically, addNew_created stillFree]
  rfl

theorem own_of_created (initialised : Initialised store) (created : Created cfg store parent name entry after)
    (within : WithinNumbers after) :
    ∃ item, dirEntry after (LogicalIno.fromRaw parent).storageIno (Utf8.lossy name) = some item ∧
      LogicalIno.fromRaw entry.stat.ino = ⟨item.ino, .regular⟩ := by
  obtain ⟨_, ino, isIno, added⟩ := created_spec initialised created
  obtain ⟨typ, isEntry⟩ := added.entry
  obtain ⟨above, dynMeta, counter, below⟩ := added.number
  refine ⟨_, isEntry, ?_⟩
  rw [isIno]
  exact fromRaw_toRaw ((by decide : rootInode ≤ firstDataInode).trans above) (below.trans_le (within _ counter))

theorem created_of_free (short : (Utf8.lossy name).length ≤ maxNameLen)
    (free : dirEntry store (LogicalIno.fromRaw parent).storageIno (Utf8.lossy name) = none)
    {dynMeta : MetaMutable} (stored : store.lookup .metaMutable = some dynMeta) :
    ∃ entry after, Created cfg store parent name entry after ∧
      after.lookup .metaMutable = some ⟨dynMeta.inodeNext + 1⟩ := by
  have isKind : asFileKind 0o100644 = some .regularFile := by decide
  have typed : Fuse.own (mapFileTypeToStorageDirItemKind .regularFile) store = .ok (.ok .file, store) := rfl
  have checked : Fuse.own (checkFileName (Utf8.lossy name)) store = .ok (.ok (), store) := by
    rw [checkFileName, if_pos short]
    rfl
  let args : NewInode := ⟨(LogicalIno.fromRaw parent).storageIno, Utf8.lossy name, .file, asFilePerm 0o100644,
    0, 0, 0, none⟩
  let between := applyAll store [Mutation.put .metaMutable ⟨dynMeta.inodeNext + 1⟩]
  obtain ⟨data, found, _⟩ := @hasData_created between dynMeta.inodeNext args 0
  have added : HashFs.directoryAddChildCheckedNewInode cfg 0 args store =
      .ok (.ok (.newlyCreated ⟨dynMeta.inodeNext, .file⟩),
        applyAll between (createdWrites args dynMeta.inodeNext 0)) := addChild_run stored free
  refine ⟨⟨0, data.stat cfg .regular, 0⟩, applyAll between (createdWrites args dynMeta.inodeNext 0),
    ⟨.mknod 0o100644 0 0 0 0, ?_⟩, ?_⟩
  · simp only [AsyncFs.create, Fuse.mknod, isKind]
    rw [Fuse.bind_ok typed, Fuse.bind_ok checked, Fuse.bind_ok added]
    exact Fuse.bind_ok (attributes_run found)
  · rw [lookup_created (by simp) (by simp) (by simp)]
    exact lookup_put_self store Key.metaMutable _

/-- A slice is out of bounds for the bare endings only. -/
theorem length_of_unparsed {filename : ByteString} (unparsed : parseFilename filename = none) :
    filename.length ≤ hashesSuffix.length := by
  have noSlice : ∀ size, slice filename 1 (filename.length - size) = none → filename.length ≤ size := by
    intro size cut
    unfold slice at cut
    split at cut
    · cases cut
    · next outside => omega
  unfold parseFilename at unparsed
  split at unparsed
  · split at unparsed
    · exact (noSlice _ (Option.map_eq_none_iff.mp unparsed)).trans (by decide)
    · split at unparsed
      · exact noSlice _ (Option.map_eq_none_iff.mp unparsed)
      · cases unparsed
  · cases unparsed

theorem resolves_of_added {dir : Nat} {ino : StorageIno}
    (plain : IsPlain (LogicalIno.fromRaw dir).storageIno (Utf8.lossy name))
    (added : EntryAdded store (LogicalIno.fromRaw dir).storageIno (Utf8.lossy name) ino after) :
    Resolves cfg after dir name (LogicalIno.toRaw ⟨ino, .regular⟩) := by
  obtain ⟨typ, isEntry⟩ := added.entry
  obtain ⟨data, found, isNumber⟩ := added.data
  rw [resolves_iff, resolve_plain plain, isEntry, Option.bind_some, found, Option.map_some, isNumber]

theorem namesAgree_of_long (long : maxNameLen < (Utf8.lossy name).length) : NamesAgree cfg parent name where
  answered := by
    intro store panicked
    have short := length_of_unparsed (panics_iff.mp panicked).2
    have bound : hashesSuffix.length < maxNameLen := by decide
    omega
  found := by
    intro store entry after initialised created
    exact absurd (created_spec initialised created).1 (Nat.not_le_of_lt long)
  own := fun store entry after initialised created within => own_of_created initialised created within
  distinct := by
    intro store entry after other otherEntry otherAfter initialised created
    exact absurd (created_spec initialised created).1 (Nat.not_le_of_lt long)

theorem namesAgree_of_plain (plain : IsPlain (LogicalIno.fromRaw parent).storageIno (Utf8.lossy name))
    (noneReplaced : Utf8.replacement ∉ Utf8.chars name) : NamesAgree cfg parent name where
  answered := by
    intro store panicked
    have unparsed := (panics_iff.mp panicked).2
    rw [parse_plain plain.real] at unparsed
    cases unparsed
  found := by
    intro store entry after initialised created
    obtain ⟨_, ino, isIno, added⟩ := created_spec initialised created
    rw [isIno]
    exact resolves_of_added plain added
  own := fun store entry after initialised created within => own_of_created initialised created within
  distinct := by
    intro store entry after other otherEntry otherAfter initialised created different otherCreated ino resolves
    obtain ⟨_, _, _, added⟩ := created_spec initialised created
    obtain ⟨_, _, _, otherAdded⟩ := created_spec initialised otherCreated
    have otherName : Utf8.lossy name ≠ Utf8.lossy other := by
      intro same
      exact different ((Utf8.lossy_injective_iff name).mpr noneReplaced other same.symm)
    rw [resolves_iff, resolve_plain plain, otherAdded.others _ otherName, added.fresh] at resolves
    cases resolves

end Create

section Initial

variable {cfg : TiFsConfig} {call : InitCall} {now : SystemTime} {name : ByteString}

theorem dirEntry_initStore {parent : Nat} :
    dirEntry (Operation.initStore cfg call now) (LogicalIno.fromRaw parent).storageIno name = none := by
  have notAbove : (LogicalIno.fromRaw parent).storageIno ≠ parentOfRootInode :=
    Nat.ne_of_gt (Nat.lt_of_lt_of_le Nat.one_pos (Nat.le_add_right 1 _))
  rw [Operation.initStore, dirEntry, lookup_created (by simp) _ (by simp)]
  · rfl
  · intro same
    exact notAbove (Key.directoryChild.inj same).1

theorem initialised_initStore : Initialised (Operation.initStore cfg call now) :=
  ⟨_, counter_initStore cfg call now, le_rfl⟩

theorem created_initially {parent : Nat} {bytes : Bytes} (short : (Utf8.lossy bytes).length ≤ maxNameLen) :
    ∃ entry after, Created cfg (Operation.initStore cfg call now) parent bytes entry after ∧ WithinNumbers after := by
  obtain ⟨entry, after, created, counter⟩ := created_of_free short dirEntry_initStore
    (counter_initStore cfg call now)
  refine ⟨entry, after, created, ?_⟩
  intro dynMeta stored
  rw [← Option.some.inj (counter.symm.trans stored)]
  decide

end Initial

/-- Names mean the same to all calls exactly if they are too long to be created, or are
neither taken for something else nor written with a replaced character. -/
theorem namesAgree_iff (cfg : TiFsConfig) (parent : Nat) (name : Bytes) : NamesAgree cfg parent name ↔
    maxNameLen < (Utf8.lossy name).length ∨
      (IsPlain (LogicalIno.fromRaw parent).storageIno (Utf8.lossy name) ∧
        Utf8.replacement ∉ Utf8.chars name) := by
  constructor
  · intro agree
    by_cases long : maxNameLen < (Utf8.lossy name).length
    · exact Or.inl long
    · have short := Nat.le_of_not_lt long
      obtain ⟨entry, after, created, within⟩ := @created_initially cfg ⟨0, 0, .reserve⟩ 0 parent name short
      obtain ⟨_, ino, isIno, added⟩ := created_spec initialised_initStore created
      have plain : IsPlain (LogicalIno.fromRaw parent).storageIno (Utf8.lossy name) := by
        by_contra notPlain
        have found := agree.found _ _ _ initialised_initStore created
        rw [isIno, resolves_iff] at found
        obtain ⟨above, dynMeta, counter, below⟩ := added.number
        exact resolve_not_plain notPlain above (below.trans_le (within _ counter)) found
      refine Or.inr ⟨plain, ?_⟩
      intro replaced
      obtain ⟨other, different, same⟩ := Utf8.exists_alias replaced
      obtain ⟨otherEntry, otherAfter, otherCreated, _⟩ :=
        @created_initially cfg ⟨0, 0, .reserve⟩ 0 parent other (same ▸ short)
      obtain ⟨_, otherIno, _, otherAdded⟩ := created_spec initialised_initStore otherCreated
      rw [same] at otherAdded
      exact agree.distinct _ _ _ _ _ _ initialised_initStore created different otherCreated _
        (resolves_of_added plain otherAdded)
  · intro condition
    rcases condition with long | ⟨plain, noneReplaced⟩
    · exact namesAgree_of_long long
    · exact namesAgree_of_plain plain noneReplaced

/-- Names mean the same to create and lookup, and to readdir and lookup, exactly where
these conditions hold of the name and of the names that are listed. -/
theorem names_agree (cfg : TiFsConfig) (parent : Nat) :
    (∀ name, NamesAgree cfg parent name ↔ maxNameLen < (Utf8.lossy name).length ∨
      (IsPlain (LogicalIno.fromRaw parent).storageIno (Utf8.lossy name) ∧
        Utf8.replacement ∉ Utf8.chars name)) ∧
    ∀ store, WellStored store (LogicalIno.fromRaw parent).storageIno →
      (ListingResolves cfg store parent ↔
        ∀ child ∈ scannedChildren store (LogicalIno.fromRaw parent).storageIno,
          IsPlain (LogicalIno.fromRaw parent).storageIno child.name ∧ HasData store child.ino) :=
  ⟨namesAgree_iff cfg parent, fun _ stored => listing_resolves_iff parent stored⟩

def rootWithFile : Store :=
  applyAll (Operation.initStore (paddingConfig 2 Nat.two_pos) ⟨0, 0, .reserve⟩ 1)
    (Mutation.put .metaMutable ⟨11⟩ :: createdWrites (Operation.rootChild [97] .file) 10 2)

theorem dirEntry_rootWithFile {name : ByteString} {item : StorageDirItem}
    (found : dirEntry rootWithFile rootInode name = some item) : name = [97] ∧ item = ⟨10, .file⟩ := by
  have names : childNames rootWithFile rootInode = {[97]} := by decide +kernel
  have isEntry : dirEntry rootWithFile rootInode [97] = some ⟨10, .file⟩ := by decide +kernel
  have listed : name ∈ childNames rootWithFile rootInode := by
    rw [mem_childNames, found]
    exact Option.some_ne_none item
  rw [names, Finset.mem_singleton] at listed
  rw [listed, isEntry] at found
  exact ⟨listed, (Option.some.inj found).symm⟩

theorem wellStored_rootWithFile : WellStored rootWithFile rootInode where
  root := ⟨⟨.directory, by decide +kernel⟩, by decide +kernel, by decide +kernel, by decide +kernel⟩
  utf8 := by
    intro name present
    obtain ⟨item, found⟩ := Option.ne_none_iff_exists'.mp present
    rw [(dirEntry_rootWithFile found).1]
    decide
  handedOut := by
    intro name item found
    rw [(dirEntry_rootWithFile found).2]
    exact ⟨by decide, by decide⟩
  described := by
    intro ino data found
    obtain ⟨desc, isDesc, rest⟩ := Option.bind_eq_some_iff.mp found
    have isData : data.1 = desc := by
      obtain ⟨attr, _, rest⟩ := Option.bind_eq_some_iff.mp rest
      obtain ⟨size, _, rfl⟩ := Option.map_eq_some_iff.mp rest
      rfl
    rw [isData]
    -- Only the root and the file have been made.
    rcases lookup_applyAll_eq_some isDesc with old | new
    · rcases lookup_applyAll_eq_some old with older | new
      · rcases lookup_applyAll_eq_some older with none | new
        · cases none
        · simp [initWrites, Mutation.put] at new
      · rw [(description_of_createdWrites new).2]
        decide
    · rcases List.mem_cons.mp new with counter | new
      · simp [Mutation.put] at counter
      · rw [(description_of_createdWrites new).2]
        decide

theorem names_agree_file :
    NamesAgree (paddingConfig 2 (by decide)) 1 [97] ∧
      ListingResolves (paddingConfig 2 (by decide)) rootWithFile 1 := by
  have plain : IsPlain rootInode [97] := ⟨by decide, by decide, by decide⟩
  have both := names_agree (paddingConfig 2 (by decide)) 1
  refine ⟨(both.1 [97]).mpr (Or.inr ⟨plain, by decide⟩), (both.2 rootWithFile wellStored_rootWithFile).mpr ?_⟩
  intro child member
  obtain ⟨isName, isItem⟩ := dirEntry_rootWithFile (dirEntry_of_scanned member)
  have number : child.ino = 10 := congrArg StorageDirItem.ino isItem
  rw [isName, number]
  exact ⟨plain, _, rfl, rfl⟩

/-- `.@hash` is looked up, whatever the directory holds: the slice between the dot and the
ending is out of bounds. -/
theorem lookup_panics :
    AsyncFs.lookup (paddingConfig 2 (by decide)) 1 hashSuffix rootWithFile = .error .panicked ∧
      ¬ ∀ (cfg : TiFsConfig) (parent : Nat) (name : Bytes), NamesAgree cfg parent name := by
  have panicked : AsyncFs.lookup (paddingConfig 2 (by decide)) 1 hashSuffix rootWithFile = .error .panicked :=
    panics_iff.mpr ⟨by decide, by decide⟩
  refine ⟨panicked, ?_⟩
  intro agree
  exact (agree (paddingConfig 2 (by decide)) 1 hashSuffix).answered rootWithFile panicked

end TiFs
