import TiFs.DirectoryListing
import TiFs.FsInit
import TiFs.HashFsError
import TiFs.Library.Utf8
import TiFs.SnapshotCopy

/-! `lookup`: how the bytes of a name lead to an inode, and when every entry that `readdir`
lists leads back to itself. -/

namespace TiFs

open KeyValue

structure FuserFileAttr where
  ino : Nat
  size : Nat
  blocks : Nat
  atime : SystemTime
  mtime : SystemTime
  ctime : SystemTime
  crtime : SystemTime
  kind : FileType
  perm : Nat
  nlink : Nat
  uid : Nat
  gid : Nat
  rdev : Nat
  blksize : Nat
  flags : Nat
  deriving DecidableEq, Repr

structure Entry where
  time : SystemTime
  stat : FuserFileAttr
  generation : Nat
  deriving DecidableEq, Repr

/-- An error of the file system, or one that the storage interface has reported. -/
inductive TiFsError where
  | own (issue : FsError)
  | storage (issue : HashFsError)
  deriving DecidableEq, Repr

/-- Why a call has no reply: its task has panicked, or it has not come to its end yet. -/
inductive Silence where
  | panicked
  | unfinished
  deriving DecidableEq, Repr

/-- A call of the kernel. The store is kept when it fails. -/
abbrev Fuse := ExceptT TiFsError (StateT Store (Except Silence))

def Fuse.silent {A : Type} (reason : Silence) : Fuse A := fun _ => .error reason

def Fuse.storage {A : Type} (body : Mini A) : Fuse A := fun store =>
  match atomically body store with
  | .ok (result, after) => .ok (.ok result, after)
  | .error issue => .ok (.error (.storage (.ofFsError issue)), store)

def Fuse.own {A : Type} (result : Except FsError A) : Fuse A := fun store =>
  .ok (result.mapError .own, store)

abbrev InoData := InoDescription × InoStorageFileAttr × InoSize × SystemTime

def inodeGetAllAttributes (ino : StorageIno) : Fuse InoData := do
  let desc ← Fuse.storage (fetch (.inodeX ino .description))
  let attr ← Fuse.storage (fetch (.inodeX ino .unixAttributes))
  let size ← Fuse.storage (fetch (.inodeX ino .size))
  let atime ← Fuse.storage (fetchTry (.inodeX ino .accessTime))
  return (desc, attr, size, atime.getD (max size.lastChange attr.lastChange))

def directoryChildGetAllAttributes (parent : ParentStorageIno) (name : ByteString) : Fuse InoData := do
  match ← Fuse.storage (directoryGetChild parent name) with
  | some entry => inodeGetAllAttributes entry.ino
  | none => throw (.storage .fileNotFound)

def mapStorageAttrToFuser (cfg : TiFsConfig) (kind : InoKind) (desc : InoDescription) (size : InoSize)
    (attr : InoStorageFileAttr) (atime : Option SystemTime) : FuserFileAttr where
  ino := LogicalIno.toRaw ⟨desc.ino, kind⟩
  size := match kind with
    | .regular => size.size
    | .hash => cfg.hashLen
    | .hashes => cfg.hashLen * size.blocks
  blocks := match kind with
    | .regular => size.blocks
    | .hash => 0
    | .hashes => divCeil (cfg.hashLen * size.blocks) cfg.blockSize
  atime := atime.getD size.lastChange
  mtime := max size.lastChange attr.lastChange
  ctime := attr.lastChange
  crtime := desc.creationTime
  kind := mapStorageDirItemKindToFileType desc.typ
  perm := attr.perm
  nlink := 1
  uid := attr.uid
  gid := attr.gid
  rdev := attr.rdev
  blksize := cfg.blockSize % 2 ^ 32
  flags := attr.flags

def InoData.stat (cfg : TiFsConfig) (kind : InoKind) (data : InoData) : FuserFileAttr :=
  mapStorageAttrToFuser cfg kind data.1 data.2.2.1 data.2.1 (some data.2.2.2)

def lookupAllInfoLogical (cfg : TiFsConfig) (parent : ParentStorageIno) (name : ByteString)
    (kind : InoKind) : Fuse FuserFileAttr := do
  return (← directoryChildGetAllAttributes parent name).stat cfg kind

/-- The special directories have the attributes of the root. -/
def getAllFileAttributesStorageIno (cfg : TiFsConfig) (ino : StorageIno) (kind : InoKind) :
    Fuse FuserFileAttr := do
  let ino :=
    if ino = openedInodeParentInode then rootInode
    else if ino = snapshotParentInode then rootInode
    else ino
  return (← inodeGetAllAttributes ino).stat cfg kind

def slice (name : ByteString) (start stop : Nat) : Option ByteString :=
  if start ≤ stop ∧ stop ≤ name.length then some ((name.drop start).take (stop - start)) else none

/-- Without a result the slice is out of bounds and the call panics. -/
def parseFilename (name : ByteString) : Option (ByteString × InoKind) :=
  if 1 < name.length ∧ name.head? = some dot then
    if hashSuffix <:+ name then
      (slice name 1 (name.length - hashSuffix.length)).map fun filename => (filename, .hash)
    else if hashesSuffix <:+ name then
      (slice name 1 (name.length - hashesSuffix.length)).map fun filename => (filename, .hashes)
    else some (name, .regular)
  else some (name, .regular)

def lookupSpecial (cfg : TiFsConfig) (parent : LogicalIno) (name : ByteString) :
    Fuse (Option FuserFileAttr) :=
  if parent.storageIno = rootInode then
    if name = openedInodeParentInodeName then do
      let stat ← getAllFileAttributesStorageIno cfg rootInode .regular
      return some { stat with ino := LogicalIno.toRaw ⟨openedInodeParentInode, .regular⟩ }
    else if name = snapshotParentInodeName then do
      let stat ← getAllFileAttributesStorageIno cfg rootInode .regular
      return some { stat with ino := LogicalIno.toRaw ⟨snapshotParentInode, .regular⟩ }
    else return none
  else return none

def Fuse.lookup (cfg : TiFsConfig) (parent : Nat) (name : ByteString) : Fuse Entry := do
  let pIno := LogicalIno.fromRaw parent
  match ← lookupSpecial cfg pIno name with
  | some attrs => return ⟨0, attrs, 0⟩
  | none =>
      match parseFilename name with
      | none => Fuse.silent .panicked
      | some (filename, kind) =>
          Fuse.own (checkFileName filename)
          return ⟨0, ← lookupAllInfoLogical cfg pIno.storageIno filename kind, 0⟩

/-- The kernel passes bytes, which become a string first. -/
def AsyncFs.lookup (cfg : TiFsConfig) (parent : Nat) (name : Bytes) : Fuse Entry :=
  Fuse.lookup cfg parent (Utf8.lossy name)

def Resolves (cfg : TiFsConfig) (store : Store) (parent : Nat) (name : Bytes) (ino : Nat) : Prop :=
  ∃ entry, AsyncFs.lookup cfg parent name store = .ok (.ok entry, store) ∧ entry.stat.ino = ino

def inoData (store : Store) (ino : StorageIno) : Option InoData :=
  (store.lookup (.inodeX ino .description)).bind fun desc : InoDescription =>
    (store.lookup (.inodeX ino .unixAttributes)).bind fun attr : InoStorageFileAttr =>
      (store.lookup (.inodeX ino .size)).map fun size : InoSize =>
        (desc, attr, size,
          (store.lookup (.inodeX ino .accessTime)).getD (max size.lastChange attr.lastChange))

def reservedIno (parent : ParentStorageIno) (name : ByteString) : Option StorageIno :=
  if parent = rootInode then
    if name = openedInodeParentInodeName then some openedInodeParentInode
    else if name = snapshotParentInodeName then some snapshotParentInode
    else none
  else none

def resolve (store : Store) (parent : ParentStorageIno) (name : ByteString) : Option Nat :=
  match reservedIno parent name with
  | some special => (inoData store rootInode).map fun _ => LogicalIno.toRaw ⟨special, .regular⟩
  | none => (parseFilename name).bind fun parsed =>
      if parsed.1.length ≤ maxNameLen then
        (dirEntry store parent parsed.1).bind fun item =>
          (inoData store item.ino).map fun data => LogicalIno.toRaw ⟨data.1.ino, parsed.2⟩
      else none

section Fuse

variable {A B : Type} {store after : Store} {ino : StorageIno} {data : InoData}

theorem Fuse.bind_ok {body : Fuse A} {next : A → Fuse B} {value : A}
    (ran : body store = .ok (.ok value, after)) : (body >>= next) store = next value after := by
  change (body store >>= fun result => ExceptT.bindCont next result.1 result.2) = _
  rw [ran]
  rfl

theorem Fuse.bind_error {body : Fuse A} {next : A → Fuse B} {issue : TiFsError}
    (ran : body store = .ok (.error issue, after)) :
    (body >>= next) store = .ok (.error issue, after) := by
  change (body store >>= fun result => ExceptT.bindCont next result.1 result.2) = _
  rw [ran]
  rfl

theorem Fuse.storage_ok {body : Mini A} {value : A} (ran : atomically body store = .ok (value, after)) :
    Fuse.storage body store = .ok (.ok value, after) := by
  rw [Fuse.storage, ran]

theorem Fuse.fetch_ok {key : Key} {value : key.Value} (stored : store.lookup key = some value) :
    Fuse.storage (fetch key) store = .ok (.ok value, store) :=
  Fuse.storage_ok (atomically_eq_ok (fetch_of_some stored))

theorem Fuse.fetch_error {key : Key} (missing : store.lookup key = none) :
    ∃ issue, Fuse.storage (fetch key) store = .ok (.error issue, store) := by
  have failed : atomically (fetch key) store = .error (.keyNotFound (some key)) := by
    rw [atomically, fetch_of_none missing]
  rw [Fuse.storage, failed]
  exact ⟨_, rfl⟩

theorem attributes_run (found : inoData store ino = some data) :
    inodeGetAllAttributes ino store = .ok (.ok data, store) := by
  obtain ⟨desc, isDesc, found⟩ := Option.bind_eq_some_iff.mp found
  obtain ⟨attr, isAttr, found⟩ := Option.bind_eq_some_iff.mp found
  obtain ⟨size, isSize, rfl⟩ := Option.map_eq_some_iff.mp found
  rw [inodeGetAllAttributes, Fuse.bind_ok (Fuse.fetch_ok isDesc), Fuse.bind_ok (Fuse.fetch_ok isAttr),
    Fuse.bind_ok (Fuse.fetch_ok isSize)]
  rfl

theorem attributes_missing (missing : inoData store ino = none) :
    ∃ issue, inodeGetAllAttributes ino store = .ok (.error issue, store) := by
  unfold inodeGetAllAttributes
  cases isDesc : store.lookup (.inodeX ino .description) with
  | none =>
      obtain ⟨issue, failed⟩ := Fuse.fetch_error isDesc
      exact ⟨issue, Fuse.bind_error failed⟩
  | some desc =>
      rw [Fuse.bind_ok (Fuse.fetch_ok isDesc)]
      cases isAttr : store.lookup (.inodeX ino .unixAttributes) with
      | none =>
          obtain ⟨issue, failed⟩ := Fuse.fetch_error isAttr
          exact ⟨issue, Fuse.bind_error failed⟩
      | some attr =>
          rw [Fuse.bind_ok (Fuse.fetch_ok isAttr)]
          cases isSize : store.lookup (.inodeX ino .size) with
          | none =>
              obtain ⟨issue, failed⟩ := Fuse.fetch_error isSize
              exact ⟨issue, Fuse.bind_error failed⟩
          | some size =>
              rw [inoData, isDesc, isAttr, isSize] at missing
              cases missing

end Fuse

section Lookup

variable {cfg : TiFsConfig} {store : Store} {parent : Nat} {name : ByteString}

/-- In the root a reserved name stands for its directory, whatever is stored there. -/
theorem special_run {special : StorageIno} {ino : LogicalIno}
    (reserved : reservedIno ino.storageIno name = some special) {data : InoData}
    (found : inoData store rootInode = some data) :
    lookupSpecial cfg ino name store = .ok (.ok (some { data.stat cfg .regular with
      ino := LogicalIno.toRaw ⟨special, .regular⟩ }), store) := by
  have attributes : getAllFileAttributesStorageIno cfg rootInode .regular store =
      .ok (.ok (data.stat cfg .regular), store) := Fuse.bind_ok (attributes_run found)
  unfold reservedIno at reserved
  unfold lookupSpecial
  split at reserved
  · next isRoot =>
      rw [if_pos isRoot]
      split at reserved
      · next isName =>
          rw [if_pos isName, Fuse.bind_ok attributes, ← Option.some.inj reserved]
          rfl
      · next notOpened =>
          split at reserved
          · next isName =>
              rw [if_neg notOpened, if_pos isName, Fuse.bind_ok attributes, ← Option.some.inj reserved]
              rfl
          · cases reserved
  · cases reserved

theorem special_missing {special : StorageIno} {ino : LogicalIno}
    (reserved : reservedIno ino.storageIno name = some special) (missing : inoData store rootInode = none) :
    ∃ issue, lookupSpecial cfg ino name store = .ok (.error issue, store) := by
  obtain ⟨issue, failed⟩ := attributes_missing missing
  have attributes : getAllFileAttributesStorageIno cfg rootInode .regular store = .ok (.error issue, store) :=
    Fuse.bind_error failed
  refine ⟨issue, ?_⟩
  unfold reservedIno at reserved
  unfold lookupSpecial
  split at reserved
  · next isRoot =>
      rw [if_pos isRoot]
      split at reserved
      · next isName =>
          rw [if_pos isName]
          exact Fuse.bind_error attributes
      · next notOpened =>
          split at reserved
          · next isName =>
              rw [if_neg notOpened, if_pos isName]
              exact Fuse.bind_error attributes
          · cases reserved
  · cases reserved

theorem special_none {ino : LogicalIno} (free : reservedIno ino.storageIno name = none) :
    lookupSpecial cfg ino name store = .ok (.ok none, store) := by
  unfold reservedIno at free
  unfold lookupSpecial
  split at free
  · next isRoot =>
      rw [if_pos isRoot]
      split at free
      · cases free
      · next notOpened =>
          split at free
          · cases free
          · next notSnapshots =>
              rw [if_neg notOpened, if_neg notSnapshots]
              rfl
  · next notRoot =>
      rw [if_neg notRoot]
      rfl

theorem child_run {above : ParentStorageIno} {kind : InoKind} {item : StorageDirItem} {data : InoData}
    (isEntry : dirEntry store above name = some item) (found : inoData store item.ino = some data) :
    lookupAllInfoLogical cfg above name kind store = .ok (.ok (data.stat cfg kind), store) := by
  have read : Fuse.storage (directoryGetChild above name) store = .ok (.ok (some item), store) := by
    rw [← isEntry]
    rfl
  have attributes : directoryChildGetAllAttributes above name store = .ok (.ok data, store) :=
    (Fuse.bind_ok read).trans (attributes_run found)
  exact Fuse.bind_ok attributes

theorem child_missing {above : ParentStorageIno} {kind : InoKind}
    (missing : ∀ item ∈ dirEntry store above name, inoData store item.ino = none) :
    ∃ issue, lookupAllInfoLogical cfg above name kind store = .ok (.error issue, store) := by
  have read : Fuse.storage (directoryGetChild above name) store =
      .ok (.ok (dirEntry store above name), store) := rfl
  cases isEntry : dirEntry store above name with
  | none =>
      rw [isEntry] at read
      refine ⟨.storage .fileNotFound, ?_⟩
      apply Fuse.bind_error
      exact Fuse.bind_ok read
  | some item =>
      rw [isEntry] at read
      obtain ⟨issue, failed⟩ := attributes_missing (missing item isEntry)
      refine ⟨issue, ?_⟩
      apply Fuse.bind_error
      exact (Fuse.bind_ok read).trans failed

/-- All that a lookup can do: it panics on a slice out of bounds, or it answers with the
number that the name leads to, or it fails. -/
theorem lookup_cases (cfg : TiFsConfig) (store : Store) (parent : Nat) (name : ByteString) :
    (reservedIno (LogicalIno.fromRaw parent).storageIno name = none ∧ parseFilename name = none ∧
      Fuse.lookup cfg parent name store = .error .panicked) ∨
    (∃ entry, Fuse.lookup cfg parent name store = .ok (.ok entry, store) ∧
      resolve store (LogicalIno.fromRaw parent).storageIno name = some entry.stat.ino) ∨
    (∃ issue, Fuse.lookup cfg parent name store = .ok (.error issue, store) ∧
      resolve store (LogicalIno.fromRaw parent).storageIno name = none ∧
      (reservedIno (LogicalIno.fromRaw parent).storageIno name = none → parseFilename name ≠ none)) := by
  unfold Fuse.lookup resolve
  cases reserved : reservedIno (LogicalIno.fromRaw parent).storageIno name with
  | some special =>
      cases found : inoData store rootInode with
      | some data =>
          rw [Fuse.bind_ok (special_run reserved found)]
          exact Or.inr (Or.inl ⟨_, rfl, rfl⟩)
      | none =>
          obtain ⟨issue, failed⟩ := special_missing reserved found
          exact Or.inr (Or.inr ⟨issue, Fuse.bind_error failed, rfl, by simp⟩)
  | none =>
      rw [Fuse.bind_ok (special_none reserved)]
      cases parsed : parseFilename name with
      | none => exact Or.inl ⟨rfl, rfl, rfl⟩
      | some filename =>
          apply Or.inr
          obtain ⟨filename, kind⟩ := filename
          simp only [Option.bind_some]
          by_cases short : filename.length ≤ maxNameLen
          · have checked : Fuse.own (checkFileName filename) store = .ok (.ok (), store) := by
              rw [checkFileName, if_pos short]
              rfl
            rw [Fuse.bind_ok checked, if_pos short]
            cases isEntry : dirEntry store (LogicalIno.fromRaw parent).storageIno filename with
            | none =>
                obtain ⟨issue, failed⟩ : ∃ issue, lookupAllInfoLogical cfg (LogicalIno.fromRaw parent).storageIno
                    filename kind store = .ok (.error issue, store) := child_missing (by simp [isEntry])
                exact Or.inr ⟨issue, Fuse.bind_error failed, rfl, by simp⟩
            | some item =>
                simp only [Option.bind_some]
                cases found : inoData store item.ino with
                | none =>
                    obtain ⟨issue, failed⟩ : ∃ issue, lookupAllInfoLogical cfg
                        (LogicalIno.fromRaw parent).storageIno filename kind store = .ok (.error issue, store) :=
                      child_missing (by simp [isEntry, found])
                    exact Or.inr ⟨issue, Fuse.bind_error failed, rfl, by simp⟩
                | some data => exact Or.inl ⟨_, Fuse.bind_ok (child_run isEntry found), rfl⟩
          · refine Or.inr ⟨.own (.nameTooLong filename), ?_, if_neg short, by simp⟩
            apply Fuse.bind_error
            rw [checkFileName, if_neg short]
            rfl

theorem resolves_iff {ino : Nat} : Resolves cfg store parent name ino ↔
    resolve store (LogicalIno.fromRaw parent).storageIno (Utf8.lossy name) = some ino := by
  unfold Resolves AsyncFs.lookup
  rcases lookup_cases cfg store parent (Utf8.lossy name) with
    ⟨free, unparsed, ran⟩ | ⟨entry, ran, found⟩ | ⟨issue, ran, missing, _⟩
  · rw [ran, resolve, free, unparsed]
    simp
  · rw [ran, found]
    simp
  · rw [ran, missing]
    simp

theorem panics_iff : AsyncFs.lookup cfg parent name store = .error .panicked ↔
    reservedIno (LogicalIno.fromRaw parent).storageIno (Utf8.lossy name) = none ∧
      parseFilename (Utf8.lossy name) = none := by
  unfold AsyncFs.lookup
  rcases lookup_cases cfg store parent (Utf8.lossy name) with
    ⟨free, unparsed, ran⟩ | ⟨entry, ran, found⟩ | ⟨issue, ran, _, parses⟩
  · simp [ran, free, unparsed]
  · rw [ran]
    constructor
    · intro panicked
      cases panicked
    · intro both
      rw [resolve, both.1, both.2] at found
      cases found
  · rw [ran]
    constructor
    · intro panicked
      cases panicked
    · intro both
      exact absurd both.2 (parses both.1)

end Lookup

/-- What a lookup takes for a virtual file, whether it is one or not. -/
def LooksVirtual (name : ByteString) : Prop :=
  name.head? = some dot ∧ (hashSuffix <:+ name ∨ hashesSuffix <:+ name)

instance (name : ByteString) : Decidable (LooksVirtual name) := inferInstanceAs (Decidable (_ ∧ _))

/-- The names of the special directories, which `readdir` lists in the root. -/
def IsReserved (parent : ParentStorageIno) (name : ByteString) : Prop :=
  parent = rootInode ∧ (name = openedInodeParentInodeName ∨ name = snapshotParentInodeName)

instance (parent : ParentStorageIno) (name : ByteString) : Decidable (IsReserved parent name) :=
  inferInstanceAs (Decidable (_ ∧ _))

structure IsPlain (parent : ParentStorageIno) (name : ByteString) : Prop where
  short : name.length ≤ maxNameLen
  real : ¬ LooksVirtual name
  free : ¬ IsReserved parent name

section Parse

variable {name : ByteString} {parent : ParentStorageIno} {store : Store}

theorem reservedIno_eq_none (free : ¬ IsReserved parent name) : reservedIno parent name = none := by
  unfold reservedIno
  split
  · next isRoot =>
      rw [if_neg fun same => free ⟨isRoot, Or.inl same⟩, if_neg fun same => free ⟨isRoot, Or.inr same⟩]
  · rfl

theorem reservedIno_special (reserved : IsReserved parent name) :
    ∃ special, reservedIno parent name = some special ∧ special < firstDataInode := by
  obtain ⟨isRoot, isName⟩ := reserved
  rw [reservedIno, if_pos isRoot]
  rcases isName with rfl | rfl
  · exact ⟨_, rfl, by decide⟩
  · exact ⟨_, rfl, by decide⟩

theorem parse_plain (real : ¬ LooksVirtual name) : parseFilename name = some (name, .regular) := by
  unfold parseFilename
  split
  · next dotted =>
      rw [if_neg fun ends => real ⟨dotted.2, Or.inl ends⟩, if_neg fun ends => real ⟨dotted.2, Or.inr ends⟩]
  · rfl

theorem slice_ne {stop : Nat} {part : ByteString} (cut : slice name 1 stop = some part) :
    part.length < name.length := by
  unfold slice at cut
  split at cut
  · next bounds =>
      rw [← Option.some.inj cut, List.length_take, List.length_drop]
      omega
  · cases cut

/-- What looks virtual is never taken as it is. -/
theorem parse_virtual (virtual : LooksVirtual name) {filename : ByteString} {kind : InoKind}
    (parsed : parseFilename name = some (filename, kind)) : kind ≠ .regular ∧ filename ≠ name := by
  obtain ⟨dotted, ends⟩ := virtual
  have long : 1 < name.length := by
    rcases ends with isHash | isHashes
    · exact lt_of_lt_of_le (by decide) isHash.length_le
    · exact lt_of_lt_of_le (by decide) isHashes.length_le
  have shorter : ∀ stop marked, (slice name 1 stop).map (fun part => (part, marked)) = some (filename, kind) →
      kind = marked ∧ filename ≠ name := by
    intro stop marked cut
    obtain ⟨part, isPart, same⟩ := Option.map_eq_some_iff.mp cut
    obtain ⟨rfl, rfl⟩ := Prod.mk.inj same
    refine ⟨rfl, ?_⟩
    intro isName
    exact absurd (congrArg List.length isName) (slice_ne isPart).ne
  rw [parseFilename, if_pos ⟨long, dotted⟩] at parsed
  split at parsed
  · obtain ⟨rfl, different⟩ := shorter _ _ parsed
    exact ⟨by decide, different⟩
  · next noHash =>
      rw [if_pos (ends.resolve_left noHash)] at parsed
      obtain ⟨rfl, different⟩ := shorter _ _ parsed
      exact ⟨by decide, different⟩

theorem slice_between (front : UInt8) (name suffix : ByteString) :
    slice (front :: name ++ suffix) 1 ((front :: name ++ suffix).length - suffix.length) = some name := by
  have stop : (front :: name ++ suffix).length - suffix.length = name.length + 1 := by
    rw [List.length_append, Nat.add_sub_cancel, List.length_cons]
  have within : name.length + 1 ≤ (front :: name ++ suffix).length := by
    rw [List.length_append, List.length_cons]
    exact Nat.le_add_right _ _
  rw [stop, slice, if_pos ⟨by omega, within⟩, Nat.add_sub_cancel]
  exact congrArg some List.take_left

/-- The virtual files of a name lead back to it. -/
theorem parse_hash (name : ByteString) : parseFilename (dot :: name ++ hashSuffix) = some (name, .hash) := by
  have long : 1 < (dot :: name ++ hashSuffix).length := by simp [hashSuffix]
  rw [parseFilename, if_pos ⟨long, rfl⟩, if_pos (List.suffix_append _ _), slice_between]
  rfl

theorem parse_hashes (name : ByteString) : parseFilename (dot :: name ++ hashesSuffix) = some (name, .hashes) := by
  have long : 1 < (dot :: name ++ hashesSuffix).length := by simp [hashesSuffix]
  have noHash : ¬ hashSuffix <:+ dot :: name ++ hashesSuffix := by
    intro ends
    have last := ends.getLast (by simp [hashSuffix])
    revert last
    simp [hashSuffix, hashesSuffix]
  rw [parseFilename, if_pos ⟨long, rfl⟩, if_neg noHash, if_pos (List.suffix_append _ _), slice_between]
  rfl

end Parse

def HasData (store : Store) (ino : StorageIno) : Prop :=
  ∃ data, inoData store ino = some data ∧ data.1.ino = ino

/-- Every entry that a call lists leads back to the number that it is listed with. -/
def ListingResolves (cfg : TiFsConfig) (store : Store) (ino : Nat) : Prop :=
  ∀ offset, ∃ dir, atomically (readdir ino offset) store = .ok (dir, store) ∧
    ∀ item ∈ dir.items, Resolves cfg store ino item.name item.ino.toRaw

/-- What is stored of a directory: the root is there, names are strings, and numbers are
those that are handed out, all below the limit. -/
structure WellStored (store : Store) (dirIno : StorageIno) : Prop where
  root : InitSystem.HasRoot store
  utf8 : ∀ name, dirEntry store dirIno name ≠ none → Utf8.lossy name = name
  handedOut : ∀ name item, dirEntry store dirIno name = some item →
    firstDataInode ≤ item.ino ∧ item.ino < inodeLimit
  described : ∀ ino data, inoData store ino = some data → data.1.ino < inodeLimit

section Listing

variable {cfg : TiFsConfig} {store : Store} {dirIno : StorageIno} {name : ByteString}

theorem readdir_scan (store : Store) (ino offset : Nat) : atomically (readdir ino offset) store =
    .ok (⟨offset, ((scannedChildren store (LogicalIno.fromRaw ino).storageIno).flatMap
      DirectoryItem.entries ++ specialEntries (LogicalIno.fromRaw ino).storageIno).drop offset⟩, store) :=
  rfl

theorem resolve_plain (plain : IsPlain dirIno name) : resolve store dirIno name =
    (dirEntry store dirIno name).bind fun item =>
      (inoData store item.ino).map fun data => LogicalIno.toRaw ⟨data.1.ino, .regular⟩ := by
  rw [resolve, reservedIno_eq_none plain.free, parse_plain plain.real]
  exact if_pos plain.short

theorem resolve_not_plain (notPlain : ¬ IsPlain dirIno name) {ino : StorageIno} (handedOut : firstDataInode ≤ ino)
    (small : ino < inodeLimit) : resolve store dirIno name ≠ some (LogicalIno.toRaw ⟨ino, .regular⟩) := by
  intro found
  unfold resolve at found
  by_cases reserved : IsReserved dirIno name
  · obtain ⟨special, isSpecial, below⟩ := reservedIno_special reserved
    rw [isSpecial] at found
    obtain ⟨_, _, same⟩ := Option.map_eq_some_iff.mp found
    have isNumber : special = ino := (toRaw_eq handedOut (below.trans (by decide)) small same).2
    exact absurd (isNumber ▸ handedOut) (Nat.not_le_of_lt below)
  · rw [reservedIno_eq_none reserved] at found
    obtain ⟨⟨filename, kind⟩, parsed, found⟩ := Option.bind_eq_some_iff.mp found
    split at found
    · next short =>
        obtain ⟨item, _, found⟩ := Option.bind_eq_some_iff.mp found
        obtain ⟨data, _, same⟩ := Option.map_eq_some_iff.mp found
        apply notPlain
        by_cases virtual : LooksVirtual name
        · exact absurd (kind_of_toRaw same) (parse_virtual virtual parsed).1
        · rw [parse_plain virtual] at parsed
          obtain ⟨rfl, _⟩ := Prod.mk.inj (Option.some.inj parsed)
          exact ⟨short, virtual, reserved⟩
    · cases found

theorem special_resolves (root : InitSystem.HasRoot store) {item : DirItem} (special : item ∈ specialEntries dirIno) :
    resolve store dirIno item.name = some item.ino.toRaw ∧ Utf8.lossy item.name = item.name := by
  have present : ∃ data, inoData store rootInode = some data := by
    obtain ⟨desc, isDesc⟩ := Option.isSome_iff_exists.mp root.description
    obtain ⟨attr, isAttr⟩ := Option.isSome_iff_exists.mp root.attributes
    obtain ⟨size, isSize⟩ := Option.isSome_iff_exists.mp root.size
    rw [inoData, isDesc, isAttr, isSize]
    exact ⟨_, rfl⟩
  obtain ⟨data, found⟩ := present
  unfold specialEntries at special
  split at special
  · next isRoot =>
      simp only [List.mem_cons, List.not_mem_nil, or_false] at special
      rw [resolve, isRoot, found]
      rcases special with rfl | rfl
      · exact ⟨rfl, by decide⟩
      · exact ⟨rfl, by decide⟩
  · cases special

/-- All that is listed for an entry with a plain name leads back to it. -/
theorem entries_resolve {entry : DirectoryItem} (isEntry : dirEntry store dirIno entry.name = some ⟨entry.ino, entry.typ⟩)
    (utf8 : Utf8.lossy entry.name = entry.name) (plain : IsPlain dirIno entry.name) (hasData : HasData store entry.ino)
    {item : DirItem} (listed : item ∈ entry.entries) :
    resolve store dirIno (Utf8.lossy item.name) = some item.ino.toRaw := by
  obtain ⟨data, found, isNumber⟩ := hasData
  obtain ⟨number, isName⟩ := mem_entries listed
  have virtualName : ∀ suffix : ByteString, Utf8.lossy suffix = suffix →
      Utf8.lossy (dot :: entry.name ++ suffix) = dot :: entry.name ++ suffix := by
    intro suffix valid
    have front : Utf8.lossy (dot :: entry.name) = dot :: entry.name := by
      have first := Utf8.lossy_append (show Utf8.lossy [dot] = [dot] by decide) entry.name
      rw [utf8] at first
      exact first
    rw [Utf8.lossy_append front, valid]
  -- The reserved names do not end like a virtual file.
  have notReserved : ∀ (suffix : ByteString) (virtual : LooksVirtual (dot :: entry.name ++ suffix)),
      ¬ IsReserved dirIno (dot :: entry.name ++ suffix) := by
    intro suffix virtual reserved
    rcases reserved.2 with same | same
    · rw [same] at virtual
      revert virtual
      decide
    · rw [same] at virtual
      revert virtual
      decide
  cases kind : item.ino.kind with
  | regular =>
      rw [kind] at isName
      rw [isName, utf8, resolve_plain plain, isEntry, Option.bind_some, found, Option.map_some, isNumber,
        ← number, ← kind]
  | hash =>
      rw [kind] at isName
      have virtual : LooksVirtual (dot :: entry.name ++ hashSuffix) := ⟨rfl, Or.inl (List.suffix_append _ _)⟩
      rw [isName, virtualName _ (by decide), resolve, reservedIno_eq_none (notReserved _ virtual), parse_hash,
        Option.bind_some, if_pos plain.short, isEntry, Option.bind_some, found, Option.map_some, isNumber,
        ← number, ← kind]
  | hashes =>
      rw [kind] at isName
      have virtual : LooksVirtual (dot :: entry.name ++ hashesSuffix) := ⟨rfl, Or.inr (List.suffix_append _ _)⟩
      rw [isName, virtualName _ (by decide), resolve, reservedIno_eq_none (notReserved _ virtual), parse_hashes,
        Option.bind_some, if_pos plain.short, isEntry, Option.bind_some, found, Option.map_some, isNumber,
        ← number, ← kind]

theorem listing_resolves_iff (ino : Nat) (stored : WellStored store (LogicalIno.fromRaw ino).storageIno) :
    ListingResolves cfg store ino ↔
      ∀ child ∈ scannedChildren store (LogicalIno.fromRaw ino).storageIno,
        IsPlain (LogicalIno.fromRaw ino).storageIno child.name ∧ HasData store child.ino := by
  constructor
  · intro resolves child member
    have isEntry := dirEntry_of_scanned member
    have utf8 := stored.utf8 child.name (by rw [isEntry]; exact Option.some_ne_none _)
    obtain ⟨dir, ran, found⟩ := resolves 0
    rw [readdir_scan] at ran
    obtain ⟨rfl, _⟩ := Prod.mk.inj (Except.ok.inj ran)
    have regular : child.regularEntry ∈ child.entries := by
      unfold DirectoryItem.entries
      split <;> simp
    have listed : child.regularEntry ∈ ((scannedChildren store (LogicalIno.fromRaw ino).storageIno).flatMap
        DirectoryItem.entries ++ specialEntries (LogicalIno.fromRaw ino).storageIno).drop 0 :=
      List.mem_append_left _ (List.mem_flatMap.mpr ⟨child, member, regular⟩)
    have isFound := resolves_iff.mp (found _ listed)
    have name : child.regularEntry.name = child.name := rfl
    rw [name, utf8] at isFound
    have plain : IsPlain (LogicalIno.fromRaw ino).storageIno child.name := by
      by_contra notPlain
      obtain ⟨above, small⟩ := stored.handedOut _ _ isEntry
      exact resolve_not_plain notPlain above small isFound
    refine ⟨plain, ?_⟩
    rw [resolve_plain plain, isEntry, Option.bind_some] at isFound
    obtain ⟨data, hasData, same⟩ := Option.map_eq_some_iff.mp isFound
    obtain ⟨above, small⟩ := stored.handedOut _ _ isEntry
    exact ⟨data, hasData, (toRaw_eq above (stored.described _ _ hasData) small same).2⟩
  · intro all offset
    refine ⟨_, readdir_scan store ino offset, ?_⟩
    intro item inItems
    rw [resolves_iff]
    rcases List.mem_append.mp (List.mem_of_mem_drop inItems) with inEntries | special
    · obtain ⟨child, member, listed⟩ := List.mem_flatMap.mp inEntries
      have isEntry := dirEntry_of_scanned member
      have utf8 := stored.utf8 child.name (by rw [isEntry]; exact Option.some_ne_none _)
      exact entries_resolve isEntry utf8 (all child member).1 (all child member).2 listed
    · obtain ⟨found, valid⟩ := special_resolves stored.root special
      rw [valid]
      exact found

end Listing

end TiFs
