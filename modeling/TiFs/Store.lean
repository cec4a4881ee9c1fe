import Mathlib.Data.Finset.Card
import TiFs.Library.Transaction

/-! The records tifs keeps in TiKV, the logical keys they are stored under and
the errors its operations report. A key carries the type of its value, so that
a record of the wrong type cannot be stored; JSON encoding is left out. -/

namespace TiFs

open KeyValue

abbrev Bytes := List UInt8
abbrev ByteString := List UInt8
abbrev TiFsHash := Bytes
abbrev StorageIno := Nat
abbrev ParentStorageIno := StorageIno
abbrev BlockIndex := Nat
abbrev SystemTime := Nat
abbrev Uuid := BitVec 128

def maxNameLen : Nat := 2 ^ 8
def maxTikvScanLimit : Nat := 10240

def parentOfRootInode : ParentStorageIno := 0
def rootInode : ParentStorageIno := 1
def openedInodeParentInode : ParentStorageIno := rootInode - 1 + 2
def snapshotParentInode : ParentStorageIno := rootInode - 1 + 3
def firstDataInode : StorageIno := 10

def hexDigit (n : Nat) : UInt8 := if n < 10 then UInt8.ofNat (48 + n) else UInt8.ofNat (87 + n)

/-- The hyphenated lower-case form, which open uses as a directory entry name. -/
def uuidToString (id : Uuid) : ByteString :=
  (List.range 32).flatMap fun i =>
    let digit := hexDigit (id.toNat / 16 ^ (31 - i) % 16)
    if i ∈ [8, 12, 16, 20] then [45, digit] else [digit]

inductive InoKind where
  | regular
  | hash
  | hashes
  deriving DecidableEq, Repr

inductive StorageDirItemKind where
  | file
  | directory
  | symlink
  deriving DecidableEq, Repr

structure StorageDirItem where
  ino : StorageIno
  typ : StorageDirItemKind
  deriving DecidableEq, Repr

structure DirectoryItem where
  ino : StorageIno
  name : ByteString
  typ : StorageDirItemKind
  deriving DecidableEq, Repr

structure InoDescription where
  ino : StorageIno
  typ : StorageDirItemKind
  creationTime : SystemTime
  deriving DecidableEq, Repr

structure InoStorageFileAttr where
  perm : Nat
  uid : Nat
  gid : Nat
  rdev : Nat
  flags : Nat
  lastChange : SystemTime
  deriving DecidableEq, Repr

structure InoInlineData where
  inlined : Bytes
  lastChange : SystemTime
  deriving DecidableEq, Repr

structure InoSize where
  size : Nat
  blocks : Nat
  lastChange : SystemTime
  deriving DecidableEq, Repr

def divCeil (n d : Nat) : Nat := (n + d - 1) / d

def InoSize.new (now : SystemTime) : InoSize := ⟨0, 0, now⟩

def InoSize.setSize (current : InoSize) (size blockSize : Nat) (now : SystemTime) : InoSize :=
  if current.size ≠ size then ⟨size, divCeil size blockSize, now⟩ else current

@[simp] theorem InoSize.setSize_size (current : InoSize) (size blockSize : Nat) (now : SystemTime) :
    (current.setSize size blockSize now).size = size := by
  by_cases same : current.size = size
  · simp [InoSize.setSize, same]
  · simp [InoSize.setSize, same]

structure BlockAddress where
  ino : StorageIno
  index : BlockIndex
  deriving DecidableEq, Repr

structure MetaStatic where
  blockSize : Nat
  hashedBlocks : Bool
  hashAlgorithm : String
  deriving DecidableEq, Repr

structure MetaMutable where
  inodeNext : StorageIno
  deriving DecidableEq, Repr

inductive InoMetadata where
  | description
  | linkCount
  | size
  | unixAttributes
  | lockState
  | accessTime
  | modificationTime
  | opened
  | fullHash
  | changeIterationId
  | inlineData
  deriving DecidableEq, Repr

def InoMetadata.iter : List InoMetadata :=
  [.description, .linkCount, .size, .unixAttributes, .lockState, .accessTime,
   .modificationTime, .opened, .fullHash, .changeIterationId, .inlineData]

/-- The keys of the modelled operations. `countedNamedUsages hash` is
`named_hashed_block_x(hash, Some(CCountedNamedUsages), None)`. -/
inductive Key where
  | metaStatic
  | metaMutable
  | inodeX (ino : StorageIno) (kind : InoMetadata)
  | directoryChild (parent : ParentStorageIno) (name : ByteString)
  | parentLink (ino : StorageIno) (parent : ParentStorageIno) (name : ByteString)
  | hashedBlock (hash : TiFsHash)
  | countedNamedUsages (hash : TiFsHash)
  | blockHash (addr : BlockAddress)
  deriving DecidableEq, Repr

/-- Nothing writes the link count, lock state and opened keys. The full hash is
read back as the raw stored bytes. -/
@[reducible] def InoMetadata.Value : InoMetadata → Type
  | .description => InoDescription
  | .linkCount => Unit
  | .size => InoSize
  | .unixAttributes => InoStorageFileAttr
  | .lockState => Unit
  | .accessTime => SystemTime
  | .modificationTime => SystemTime
  | .opened => Unit
  | .fullHash => Bytes
  | .changeIterationId => Uuid
  | .inlineData => InoInlineData

@[reducible] def Key.Value : Key → Type
  | .metaStatic => MetaStatic
  | .metaMutable => MetaMutable
  | .inodeX _ kind => kind.Value
  | .directoryChild _ _ => StorageDirItem
  | .parentLink _ _ _ => Unit
  | .hashedBlock _ => Bytes
  | .countedNamedUsages _ => Nat
  | .blockHash _ => TiFsHash

abbrev Store := Finmap Key.Value
abbrev Write := Mutation Key.Value

inductive FsError where
  | unimplemented
  | invalidScopedKey (key : Bytes)
  | serialize (target typ msg : String)
  | nameTooLong (file : ByteString)
  | fileNotFound (file : ByteString)
  | fileExist (file : ByteString)
  | inodeNotFound (inode : StorageIno)
  | fhNotFound (fh : Nat)
  | invalidOffset (ino : Nat) (offset : Int)
  | unknownWhence (whence : Int)
  | blockNotFound (inode : StorageIno) (block : Nat)
  | dirNotEmpty (dir : ByteString)
  | invalidStr
  | wrongFileType
  | unknownFileType
  | keyError (msg : String)
  | retryTimesExcess (times : Nat)
  | stripPrefixError
  | unknownError (msg : String)
  | invalidLock
  | blockSizeConflict (origin new : Nat)
  | noSpaceLeft (maxSize : Nat)
  | checksumMismatch (hash actualHash : TiFsHash)
  | inoKindNotSupported (kind : InoKind)
  | configParsingFailed (msg : String)
  /-- The message names the key that was looked up. -/
  | keyNotFound (key : Option Key)
  | tryLockFailed
  | writeNotAllowed
  | closeFailedDueToWrongInoOrUseId
  | grpcMessageIncomplete
  deriving DecidableEq, Repr

/-- The mounted file system's parameters. The hash algorithm is any function of
the configured digest length; its name is only stored. The ranges of blocks that are
collected in a `RangeSet2` come back as any ranges of the same blocks. -/
structure TiFsConfig where
  blockSize : Nat
  hashLen : Nat
  calculateHash : Bytes → TiFsHash
  rangeCollection : List (BlockIndex × BlockIndex) → List (BlockIndex × BlockIndex)
  hashedBlocks : Bool
  hashAlgorithm : String
  validateReadHashes : Bool
  chunkedBlockUpload : Bool
  writeInProgressLimit : Nat
  writeAccumulatorFlushThreshold : Nat
  blockSize_pos : 0 < blockSize
  hash_length : ∀ data, (calculateHash data).length = hashLen
  mem_rangeCollection : ∀ ranges index, (∃ range ∈ rangeCollection ranges, range.1 ≤ index ∧ index < range.2) ↔
    ∃ range ∈ ranges, range.1 ≤ index ∧ index < range.2

def padHash (len : Nat) (data : Bytes) : TiFsHash := (data ++ 1 :: List.replicate len 0).take len

theorem padHash_length (len : Nat) (data : Bytes) : (padHash len data).length = len := by
  simp only [padHash, List.length_take, List.length_append, List.length_cons, List.length_replicate]
  omega

/-- Below the digest length the last non-zero byte tells where the data ends. -/
theorem padHash_injOn (len : Nat) : Set.InjOn (padHash len) {data | data.length < len} := by
  have bytes : ∀ data : Bytes, data.length < len → ∀ k < len, (padHash len data)[k]? =
      if k < data.length then data[k]? else if k = data.length then some 1 else some 0 := by
    intro data short k inside
    rw [padHash, List.getElem?_take_of_lt inside]
    by_cases inData : k < data.length
    · rw [if_pos inData, List.getElem?_append_left inData]
    · rw [if_neg inData, List.getElem?_append_right (by omega)]
      by_cases atEnd : k = data.length
      · rw [if_pos atEnd, atEnd, Nat.sub_self]
        rfl
      · rw [if_neg atEnd, List.getElem?_cons, if_neg (by omega), List.getElem?_replicate,
          if_pos (by omega)]
  have noLonger : ∀ data other : Bytes, data.length < len → other.length < len →
      padHash len data = padHash len other → other.length ≤ data.length := by
    intro data other short otherShort same
    by_contra longer
    have isOne := bytes other otherShort other.length otherShort
    have isZero := bytes data short other.length otherShort
    rw [if_neg (by omega), if_pos rfl] at isOne
    rw [if_neg (by omega), if_neg (by omega), same, isOne] at isZero
    simp at isZero
  intro data short other otherShort same
  have sameLength := Nat.le_antisymm (noLonger other data otherShort short same.symm)
    (noLonger data other short otherShort same)
  refine List.ext_getElem? fun k => ?_
  by_cases inData : k < data.length
  · have left := bytes data short k (inData.trans short)
    have right := bytes other otherShort k (inData.trans short)
    rw [if_pos inData, same] at left
    rw [if_pos (by omega)] at right
    rw [← left, right]
  · rw [List.getElem?_eq_none (by omega), List.getElem?_eq_none (by omega)]

/-! Ranges that stay sorted, for configurations to run: those that overlap or touch become one. -/

def insertRange (range : Nat × Nat) : List (Nat × Nat) → List (Nat × Nat)
  | [] => [range]
  | head :: tail =>
      if range.2 < head.1 then range :: head :: tail
      else if head.2 < range.1 then head :: insertRange range tail
      else insertRange (min head.1 range.1, max head.2 range.2) tail

def unitedRanges (ranges : List (Nat × Nat)) : List (Nat × Nat) :=
  ranges.foldl (fun collection range => insertRange range collection) []

theorem mem_insertRange (range : Nat × Nat) (ranges : List (Nat × Nat)) (i : Nat) :
    (∃ other ∈ insertRange range ranges, other.1 ≤ i ∧ i < other.2) ↔
      (range.1 ≤ i ∧ i < range.2) ∨ ∃ other ∈ ranges, other.1 ≤ i ∧ i < other.2 := by
  induction ranges generalizing range with
  | nil => simp [insertRange]
  | cons head tail ih =>
      simp only [insertRange]
      split_ifs with before behind
      · simp only [List.mem_cons, exists_eq_or_imp]
      · simp only [List.mem_cons, exists_eq_or_imp]
        rw [ih, or_left_comm]
      · simp only [List.mem_cons, exists_eq_or_imp]
        rw [ih, ← or_assoc]
        apply or_congr_left
        simp only
        omega

theorem mem_unitedRanges (ranges : List (Nat × Nat)) (i : Nat) :
    (∃ range ∈ unitedRanges ranges, range.1 ≤ i ∧ i < range.2) ↔
      ∃ range ∈ ranges, range.1 ≤ i ∧ i < range.2 := by
  unfold unitedRanges
  induction ranges using List.reverseRecOn with
  | nil => rfl
  | append_singleton front last ih =>
      rw [List.foldl_append, List.foldl_cons, List.foldl_nil, mem_insertRange, ih]
      simp only [List.mem_append, List.mem_singleton]
      constructor
      · rintro (inside | ⟨range, member, inside⟩)
        · exact ⟨last, Or.inr rfl, inside⟩
        · exact ⟨range, Or.inl member, inside⟩
      · rintro ⟨range, member | rfl, inside⟩
        · exact Or.inr ⟨range, member, inside⟩
        · exact Or.inl inside

def paddingConfig (blockSize : Nat) (positive : 0 < blockSize) : TiFsConfig where
  blockSize := blockSize
  hashLen := blockSize + 1
  calculateHash := padHash (blockSize + 1)
  rangeCollection := unitedRanges
  hashedBlocks := true
  hashAlgorithm := "padding"
  validateReadHashes := true
  chunkedBlockUpload := true
  writeInProgressLimit := 0
  writeAccumulatorFlushThreshold := 0
  blockSize_pos := positive
  hash_length := padHash_length (blockSize + 1)
  mem_rangeCollection := mem_unitedRanges

structure Ambient where
  now : SystemTime
  uuid : Uuid
  deriving DecidableEq, Repr

abbrev Mini := TxnM Key.Value FsError

def fetchTry (key : Key) : Mini (Option key.Value) := readKey key

def fetch (key : Key) : Mini key.Value := do
  match ← fetchTry key with
  | some value => return value
  | none => throw (.keyNotFound (some key))

def put (key : Key) (value : key.Value) : Mini Unit := batchMutate [Mutation.put key value]

def delete (key : Key) : Mini Unit := batchMutate [Mutation.delete key]

theorem fetch_of_some {txn : Txn Key.Value} {key : Key} {value : key.Value} (stored : txn.view.lookup key = some value) :
    fetch key txn = .ok (value, txn) := by
  have read : fetchTry key txn = .ok (some value, txn) := by
    rw [← stored]
    rfl
  rw [fetch, bind_ok read]
  rfl

theorem fetch_of_none {txn : Txn Key.Value} {key : Key} (missing : txn.view.lookup key = none) :
    fetch key txn = .error (.keyNotFound (some key)) := by
  have read : fetchTry key txn = .ok (none, txn) := by
    rw [← missing]
    rfl
  rw [fetch, bind_ok read]
  rfl

section Accessors

variable (store : Store)

def metaMutable : Option MetaMutable := store.lookup .metaMutable

def mapping (addr : BlockAddress) : Option TiFsHash := store.lookup (.blockHash addr)

def blockData (hash : TiFsHash) : Option Bytes := store.lookup (.hashedBlock hash)

/-- A missing counter reads as zero. -/
def counter (hash : TiFsHash) : Nat := (store.lookup (.countedNamedUsages hash)).getD 0

def inoSize (ino : StorageIno) : Option InoSize := store.lookup (.inodeX ino .size)

def inoDescription (ino : StorageIno) : Option InoDescription :=
  store.lookup (.inodeX ino .description)

def dirEntry (parent : ParentStorageIno) (name : ByteString) : Option StorageDirItem :=
  store.lookup (.directoryChild parent name)

def hasParentLink (ino : StorageIno) (parent : ParentStorageIno) (name : ByteString) : Prop :=
  store.lookup (.parentLink ino parent name) = some ()

end Accessors

end TiFs
