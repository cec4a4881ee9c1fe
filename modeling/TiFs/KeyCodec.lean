import TiFs.Library.BigEndian
import TiFs.Store

/-! How logical keys become the byte strings TiKV orders its records by, and how
they are read back. The builder writes a scope, one byte for the kind of the key
and the parts of the key, numbers big-endian. -/

namespace TiFs

open BigEndian

abbrev KeyBuffer := Bytes

inductive KeyKind where
  | keyLockStates
  | fsMetadataStatic
  | fsMetadata
  | inoMetadata
  | block
  | directoryChild
  | parentLink
  | hashedBlock
  | inoBlockHashMapping
  | hashedBlockExists
  | pendingDelete
  | namedHashedBlock
  deriving DecidableEq, Repr

def KeyKind.iter : List KeyKind :=
  [.keyLockStates, .fsMetadataStatic, .fsMetadata, .inoMetadata, .block, .directoryChild, .parentLink,
   .hashedBlock, .inoBlockHashMapping, .hashedBlockExists, .pendingDelete, .namedHashedBlock]

def KeyKind.debug : KeyKind → String
  | .keyLockStates => "KeyLockStates"
  | .fsMetadataStatic => "FsMetadataStatic"
  | .fsMetadata => "FsMetadata"
  | .inoMetadata => "InoMetadata"
  | .block => "Block"
  | .directoryChild => "DirectoryChild"
  | .parentLink => "ParentLink"
  | .hashedBlock => "HashedBlock"
  | .inoBlockHashMapping => "InoBlockHashMapping"
  | .hashedBlockExists => "HashedBlockExists"
  | .pendingDelete => "PendingDelete"
  | .namedHashedBlock => "NamedHashedBlock"

inductive HashedBlockMeta where
  | aNamedBlock
  | bNamedUsages
  | cCountedNamedUsages
  deriving DecidableEq, Repr

def HashedBlockMeta.iter : List HashedBlockMeta := [.aNamedBlock, .bNamedUsages, .cCountedNamedUsages]

inductive PendingDeleteMeta where
  | aIterationNumber
  | bLastUpdate
  | cPendingDeletes
  | dActiveWriters
  | eEnd
  deriving DecidableEq, Repr

def PendingDeleteMeta.iter : List PendingDeleteMeta :=
  [.aIterationNumber, .bLastUpdate, .cPendingDeletes, .dActiveWriters, .eEnd]

section KindIds

variable {A : Type} [DecidableEq A]

/-- The byte that the order of an enumeration gives to one of its items. -/
def getByRight (iter : List A) (item : A) : UInt8 := UInt8.ofNat (iter.idxOf item)

def getByLeft (iter : List A) (id : UInt8) : Option A := iter[id.toNat]?

theorem getByLeft_getByRight {iter : List A} {item : A} (listed : item ∈ iter)
    (short : iter.length ≤ 256) : getByLeft iter (getByRight iter item) = some item := by
  have inside : iter.idxOf item < iter.length := List.idxOf_lt_length_of_mem listed
  have byte : (getByRight iter item).toNat = iter.idxOf item := by
    rw [getByRight, UInt8.toNat_ofNat', Nat.mod_eq_of_lt (by omega)]
  rw [getByLeft, byte, List.getElem?_eq_getElem inside, List.getElem_idxOf inside]

end KindIds

@[simp] theorem KeyKind.get_id (kind : KeyKind) :
    getByLeft KeyKind.iter (getByRight KeyKind.iter kind) = some kind :=
  getByLeft_getByRight (by cases kind <;> decide) (by decide)

@[simp] theorem InoMetadata.get_id (tag : InoMetadata) :
    getByLeft InoMetadata.iter (getByRight InoMetadata.iter tag) = some tag :=
  getByLeft_getByRight (by cases tag <;> decide) (by decide)

@[simp] theorem HashedBlockMeta.get_id (tag : HashedBlockMeta) :
    getByLeft HashedBlockMeta.iter (getByRight HashedBlockMeta.iter tag) = some tag :=
  getByLeft_getByRight (by cases tag <;> decide) (by decide)

@[simp] theorem PendingDeleteMeta.get_id (tag : PendingDeleteMeta) :
    getByLeft PendingDeleteMeta.iter (getByRight PendingDeleteMeta.iter tag) = some tag :=
  getByLeft_getByRight (by cases tag <;> decide) (by decide)

theorem KeyKind.id_injective {left right : KeyKind}
    (same : getByRight KeyKind.iter left = getByRight KeyKind.iter right) : left = right := by
  have read := left.get_id
  rw [same, right.get_id] at read
  exact (Option.some.inj read).symm

/-- The numbers in keys are `u64`. -/
def writeBigEndian (value : UInt64) : Bytes := write 8 value.toNat

def Uuid.asBytes (id : Uuid) : Bytes := write 16 id.toNat

@[simp] theorem writeBigEndian_length (value : UInt64) : (writeBigEndian value).length = 8 :=
  write_length 8 _

@[simp] theorem Uuid.asBytes_length (id : Uuid) : (Uuid.asBytes id).length = 16 := write_length 16 _

def readBigEndian (i : Bytes) : Except FsError (UInt64 × Bytes) :=
  if i.length < 8 then .error (.unknownError "deserialization failed!")
  else .ok (UInt64.ofNat (read (i.take 8)), i.drop 8)

def parseUuid (i : Bytes) : Except FsError (Uuid × Bytes) :=
  if i.length < 16 then
    .error (.serialize "Uuid" "binary" "parse_lock_key(): key length too small")
  else .ok (BitVec.ofNat 128 (read (i.take 16)), i.drop 16)

@[simp] theorem readBigEndian_write (value : UInt64) (rest : Bytes) :
    readBigEndian (writeBigEndian value ++ rest) = .ok (value, rest) := by
  have small : value.toNat < 256 ^ 8 := value.toNat_lt
  rw [readBigEndian, if_neg (by simp), List.take_left' (writeBigEndian_length value),
    List.drop_left' (writeBigEndian_length value), writeBigEndian, read_write small,
    UInt64.ofNat_toNat]

@[simp] theorem parseUuid_asBytes (id : Uuid) (rest : Bytes) :
    parseUuid (Uuid.asBytes id ++ rest) = .ok (id, rest) := by
  have small : id.toNat < 256 ^ 16 := id.isLt
  rw [parseUuid, if_neg (by simp), List.take_left' (Uuid.asBytes_length id),
    List.drop_left' (Uuid.asBytes_length id), Uuid.asBytes, read_write small, BitVec.ofNat_toNat,
    BitVec.setWidth_eq]

structure ScopedKeyBuilder where
  buf : KeyBuffer

namespace ScopedKeyBuilder

def new (scope : Bytes) : ScopedKeyBuilder := ⟨scope⟩

def push (self : ScopedKeyBuilder) (bytes : Bytes) : ScopedKeyBuilder := ⟨self.buf ++ bytes⟩

def writeKeyKind (self : ScopedKeyBuilder) (kind : KeyKind) : ScopedKeyBuilder :=
  self.push [getByRight KeyKind.iter kind]

def keyLockState (self : ScopedKeyBuilder) (key : Bytes) (uuid : Uuid) : KeyBuffer :=
  (((self.writeKeyKind .keyLockStates).push key).push (Uuid.asBytes uuid)).buf

def metaStatic (self : ScopedKeyBuilder) : KeyBuffer := (self.writeKeyKind .fsMetadataStatic).buf

def metaMutable (self : ScopedKeyBuilder) : KeyBuffer := (self.writeKeyKind .fsMetadata).buf

def pendingDeleteX (self : ScopedKeyBuilder) (kind : PendingDeleteMeta) : ScopedKeyBuilder :=
  (self.writeKeyKind .pendingDelete).push [getByRight PendingDeleteMeta.iter kind]

def pendingDeleteBlockHash (self : ScopedKeyBuilder) (hash : TiFsHash) : KeyBuffer :=
  ((self.pendingDeleteX .cPendingDeletes).push hash).buf

def pendingDeleteActiveWriter (self : ScopedKeyBuilder) (iterationNumber : UInt64)
    (writerId : Uuid) : KeyBuffer :=
  (((self.pendingDeleteX .dActiveWriters).push (writeBigEndian iterationNumber)).push
    (Uuid.asBytes writerId)).buf

def inodeX (self : ScopedKeyBuilder) (ino : UInt64) (tag : InoMetadata) : ScopedKeyBuilder :=
  ((self.writeKeyKind .inoMetadata).push (writeBigEndian ino)).push [getByRight InoMetadata.iter tag]

def inodeDescription (self : ScopedKeyBuilder) (ino : UInt64) : KeyBuffer :=
  (self.inodeX ino .description).buf

def block (self : ScopedKeyBuilder) (ino index : UInt64) : KeyBuffer :=
  (((self.writeKeyKind .block).push (writeBigEndian ino)).push (writeBigEndian index)).buf

def openedInode (self : ScopedKeyBuilder) (ino : UInt64) (instanceId : Uuid) : KeyBuffer :=
  ((self.inodeX ino .opened).push (Uuid.asBytes instanceId)).buf

def blockHash (self : ScopedKeyBuilder) (ino index : UInt64) : KeyBuffer :=
  (((self.writeKeyKind .inoBlockHashMapping).push (writeBigEndian ino)).push
    (writeBigEndian index)).buf

def namedHashedBlockX (self : ScopedKeyBuilder) (hash : TiFsHash) (tag : Option HashedBlockMeta)
    (name : Option Uuid) : KeyBuffer :=
  let me := (self.writeKeyKind .hashedBlock).push hash
  match tag with
  | none => me.buf
  | some tag =>
      let me := me.push [getByRight HashedBlockMeta.iter tag]
      match name with
      | none => me.buf
      | some name => (me.push (Uuid.asBytes name)).buf

def hashedBlock (self : ScopedKeyBuilder) (hash : TiFsHash) : KeyBuffer :=
  ((self.writeKeyKind .hashedBlock).push hash).buf

def hashedBlockExists (self : ScopedKeyBuilder) (hash : TiFsHash) : KeyBuffer :=
  ((self.writeKeyKind .hashedBlockExists).push hash).buf

def directoryChild (self : ScopedKeyBuilder) (parent : UInt64) (name : ByteString) : KeyBuffer :=
  (((self.writeKeyKind .directoryChild).push (writeBigEndian parent)).push name).buf

def parentLink (self : ScopedKeyBuilder) (ino parent : UInt64) (name : ByteString) : KeyBuffer :=
  ((((self.writeKeyKind .parentLink).push (writeBigEndian ino)).push (writeBigEndian parent)).push
    name).buf

end ScopedKeyBuilder

inductive LogicalKey where
  | keyLockState (key : Bytes) (uuid : Uuid)
  | metaStatic
  | metaMutable
  | inodeX (ino : UInt64) (tag : InoMetadata)
  | openedInode (ino : UInt64) (instanceId : Uuid)
  | block (ino index : UInt64)
  | blockHash (ino index : UInt64)
  | directoryChild (parent : UInt64) (name : ByteString)
  | parentLink (ino parent : UInt64) (name : ByteString)
  | hashedBlock (hash : TiFsHash)
  | hashedBlockExists (hash : TiFsHash)
  | namedHashedBlockX (hash : TiFsHash) (tag : HashedBlockMeta) (name : Option Uuid)
  | pendingDeleteX (kind : PendingDeleteMeta)
  | pendingDeleteBlockHash (hash : TiFsHash)
  | pendingDeleteActiveWriter (iterationNumber : UInt64) (writerId : Uuid)
  deriving DecidableEq, Repr

namespace LogicalKey

def bytes (scope : Bytes) : LogicalKey → KeyBuffer
  | .keyLockState key uuid => (ScopedKeyBuilder.new scope).keyLockState key uuid
  | .metaStatic => (ScopedKeyBuilder.new scope).metaStatic
  | .metaMutable => (ScopedKeyBuilder.new scope).metaMutable
  | .inodeX ino tag => ((ScopedKeyBuilder.new scope).inodeX ino tag).buf
  | .openedInode ino instanceId => (ScopedKeyBuilder.new scope).openedInode ino instanceId
  | .block ino index => (ScopedKeyBuilder.new scope).block ino index
  | .blockHash ino index => (ScopedKeyBuilder.new scope).blockHash ino index
  | .directoryChild parent name => (ScopedKeyBuilder.new scope).directoryChild parent name
  | .parentLink ino parent name => (ScopedKeyBuilder.new scope).parentLink ino parent name
  | .hashedBlock hash => (ScopedKeyBuilder.new scope).hashedBlock hash
  | .hashedBlockExists hash => (ScopedKeyBuilder.new scope).hashedBlockExists hash
  | .namedHashedBlockX hash tag name =>
      (ScopedKeyBuilder.new scope).namedHashedBlockX hash (some tag) name
  | .pendingDeleteX kind => ((ScopedKeyBuilder.new scope).pendingDeleteX kind).buf
  | .pendingDeleteBlockHash hash => (ScopedKeyBuilder.new scope).pendingDeleteBlockHash hash
  | .pendingDeleteActiveWriter iterationNumber writerId =>
      (ScopedKeyBuilder.new scope).pendingDeleteActiveWriter iterationNumber writerId

def kind : LogicalKey → KeyKind
  | .keyLockState _ _ => .keyLockStates
  | .metaStatic => .fsMetadataStatic
  | .metaMutable => .fsMetadata
  | .inodeX _ _ => .inoMetadata
  | .openedInode _ _ => .inoMetadata
  | .block _ _ => .block
  | .blockHash _ _ => .inoBlockHashMapping
  | .directoryChild _ _ => .directoryChild
  | .parentLink _ _ _ => .parentLink
  | .hashedBlock _ => .hashedBlock
  | .hashedBlockExists _ => .hashedBlockExists
  | .namedHashedBlockX _ _ _ => .hashedBlock
  | .pendingDeleteX _ => .pendingDelete
  | .pendingDeleteBlockHash _ => .pendingDelete
  | .pendingDeleteActiveWriter _ _ => .pendingDelete

def body : LogicalKey → Bytes
  | .keyLockState key uuid => key ++ Uuid.asBytes uuid
  | .metaStatic => []
  | .metaMutable => []
  | .inodeX ino tag => writeBigEndian ino ++ [getByRight InoMetadata.iter tag]
  | .openedInode ino instanceId =>
      writeBigEndian ino ++ getByRight InoMetadata.iter .opened :: Uuid.asBytes instanceId
  | .block ino index => writeBigEndian ino ++ writeBigEndian index
  | .blockHash ino index => writeBigEndian ino ++ writeBigEndian index
  | .directoryChild parent name => writeBigEndian parent ++ name
  | .parentLink ino parent name => writeBigEndian ino ++ (writeBigEndian parent ++ name)
  | .hashedBlock hash => hash
  | .hashedBlockExists hash => hash
  | .namedHashedBlockX hash tag name =>
      hash ++ getByRight HashedBlockMeta.iter tag :: (name.elim [] Uuid.asBytes)
  | .pendingDeleteX kind => [getByRight PendingDeleteMeta.iter kind]
  | .pendingDeleteBlockHash hash => getByRight PendingDeleteMeta.iter .cPendingDeletes :: hash
  | .pendingDeleteActiveWriter iterationNumber writerId =>
      getByRight PendingDeleteMeta.iter .dActiveWriters ::
        (writeBigEndian iterationNumber ++ Uuid.asBytes writerId)

theorem bytes_eq (scope : Bytes) (key : LogicalKey) :
    key.bytes scope = scope ++ getByRight KeyKind.iter key.kind :: key.body := by
  cases key with
  | namedHashedBlockX hash tag name =>
      cases name with
      | none => simp [bytes, kind, body, ScopedKeyBuilder.namedHashedBlockX, ScopedKeyBuilder.new,
          ScopedKeyBuilder.push, ScopedKeyBuilder.writeKeyKind]
      | some name => simp [bytes, kind, body, ScopedKeyBuilder.namedHashedBlockX, ScopedKeyBuilder.new,
          ScopedKeyBuilder.push, ScopedKeyBuilder.writeKeyKind]
  | _ =>
      simp only [bytes, kind, body, ScopedKeyBuilder.new, ScopedKeyBuilder.push,
        ScopedKeyBuilder.writeKeyKind, ScopedKeyBuilder.keyLockState, ScopedKeyBuilder.metaStatic,
        ScopedKeyBuilder.metaMutable, ScopedKeyBuilder.inodeX, ScopedKeyBuilder.openedInode,
        ScopedKeyBuilder.block, ScopedKeyBuilder.blockHash, ScopedKeyBuilder.directoryChild,
        ScopedKeyBuilder.parentLink, ScopedKeyBuilder.hashedBlock, ScopedKeyBuilder.hashedBlockExists,
        ScopedKeyBuilder.pendingDeleteX, ScopedKeyBuilder.pendingDeleteBlockHash,
        ScopedKeyBuilder.pendingDeleteActiveWriter, List.append_assoc, List.cons_append,
        List.nil_append]

def HashLen (hashLen : Nat) : LogicalKey → Prop
  | .hashedBlock hash => hash.length = hashLen
  | .hashedBlockExists hash => hash.length = hashLen
  | .namedHashedBlockX hash _ _ => hash.length = hashLen
  | .pendingDeleteBlockHash hash => hash.length = hashLen
  | _ => True

end LogicalKey

/-- How Rust prints a byte vector. -/
def debugBytes (bytes : Bytes) : String :=
  "[" ++ ", ".intercalate (bytes.map fun byte => toString byte.toNat) ++ "]"

structure KeyParser where
  hashLen : Nat
  i : Bytes
  kind : KeyKind

def nextKind {A : Type} (iter : List A) (message : String) (i : Bytes) : Except FsError (A × Bytes) :=
  let kindId := i.headD 0xFF
  match getByLeft iter kindId with
  | some kind => .ok (kind, i.tail)
  | none => .error (.unknownError (message ++ toString kindId.toNat))

structure KeyParserIno where
  pre : KeyParser
  ino : UInt64
  tag : InoMetadata

structure KeyParserPendingDelete where
  pre : KeyParser
  tag : PendingDeleteMeta

structure KeyParserHashBlock where
  pre : KeyParser
  hash : TiFsHash
  tag : HashedBlockMeta

namespace KeyParser

def start (i scope : Bytes) (hashLen : Nat) : Except FsError KeyParser := do
  let actual := i.take scope.length
  if actual ≠ scope then throw (.unknownError ("key prefix mismatch: " ++ debugBytes actual))
  let (kind, rest) ← nextKind KeyKind.iter "key with unknown kind_i: " (i.drop scope.length)
  return ⟨hashLen, rest, kind⟩

def parsePendingDeletesX (self : KeyParser) : Except FsError KeyParserPendingDelete := do
  if self.kind ≠ .pendingDelete then
    throw (.unknownError ("expected a pending delete key. got: " ++ self.kind.debug))
  let (tag, rest) ← nextKind PendingDeleteMeta.iter "key with unknown pending deletes kind: " self.i
  return ⟨{ self with i := rest }, tag⟩

def parseIno (self : KeyParser) : Except FsError KeyParserIno := do
  if self.kind ≠ .inoMetadata then
    throw (.unknownError ("expected a ino metadata key. got: " ++ self.kind.debug))
  let (ino, rest) ← readBigEndian self.i
  let (tag, rest) ← nextKind InoMetadata.iter "key with unknown ino kind: " rest
  return ⟨{ self with i := rest }, ino, tag⟩

def parseHash (self : KeyParser) : Except FsError (KeyParser × TiFsHash) := do
  let hash := self.i.take self.hashLen
  if hash.length ≠ self.hashLen then
    throw (.unknownError ("Key with unexpected hash length: " ++ toString hash.length))
  return ({ self with i := self.i.drop self.hashLen }, hash)

def parseHashBlockKeyX (self : KeyParser) : Except FsError KeyParserHashBlock := do
  if self.kind ≠ .hashedBlock then
    throw (.unknownError ("expected a HashedBlock key. got: " ++ self.kind.debug))
  let (me, hash) ← self.parseHash
  let (tag, rest) ← nextKind HashedBlockMeta.iter "key with unknown hash block kind: " me.i
  return ⟨{ me with i := rest }, hash, tag⟩

def parseKeyHashedBlock (self : KeyParser) : Except FsError TiFsHash :=
  match self.kind with
  | .hashedBlock => return (← self.parseHash).2
  | .hashedBlockExists => return (← self.parseHash).2
  | other => .error (.unknownError ("parse_key_hashed_block(): unexpected key_type: " ++ other.debug))

def deserializeBlockAddress (i : Bytes) : Except FsError (UInt64 × UInt64) := do
  let (ino, rest) ← readBigEndian i
  let (index, _) ← readBigEndian rest
  return (ino, index)

def parseKeyBlockAddress (self : KeyParser) : Except FsError (UInt64 × UInt64) :=
  match self.kind with
  | .block => deserializeBlockAddress self.i
  | .inoBlockHashMapping => deserializeBlockAddress self.i
  | other => .error (.unknownError ("parse_key_block_address(): unexpected key_type: " ++ other.debug))

def parseLockKey (self : KeyParser) (keyToLock : Bytes) : Except FsError Uuid := do
  if self.kind ≠ .keyLockStates then
    throw (.unknownError ("parse_lock_key(): unexpected key_type: " ++ self.kind.debug))
  let actual := self.i.take keyToLock.length
  if keyToLock ≠ actual then
    throw (.unknownError ("parse_lock_key(): unexpected key_to_lock_act: " ++ debugBytes actual))
  let (uuid, _) ← parseUuid (self.i.drop keyToLock.length)
  return uuid

def parseDirectoryChild (self : KeyParser) : Except FsError (UInt64 × ByteString) := do
  if self.kind ≠ .directoryChild then
    throw (.unknownError ("parse_lock_key(): unexpected key_type: " ++ self.kind.debug))
  readBigEndian self.i

end KeyParser

theorem nextKind_of_get {A : Type} {iter : List A} {id : UInt8} {item : A}
    (isItem : getByLeft iter id = some item) (message : String) (rest : Bytes) :
    nextKind iter message (id :: rest) = .ok (item, rest) := by
  simp only [nextKind, List.headD_cons, isItem, List.tail_cons]

theorem KeyParser.start_bytes (scope : Bytes) (hashLen : Nat) (key : LogicalKey) :
    KeyParser.start (key.bytes scope) scope hashLen = .ok ⟨hashLen, key.body, key.kind⟩ := by
  rw [key.bytes_eq, KeyParser.start]
  simp only [List.take_left, List.drop_left, ne_eq, not_true_eq_false, if_false,
    nextKind_of_get key.kind.get_id]
  rfl

theorem KeyParser.parseHash_append {hashLen : Nat} {hash : TiFsHash} (isLen : hash.length = hashLen)
    (rest : Bytes) (kind : KeyKind) :
    KeyParser.parseHash ⟨hashLen, hash ++ rest, kind⟩ = .ok (⟨hashLen, rest, kind⟩, hash) := by
  rw [KeyParser.parseHash]
  simp only [List.take_left' isLen, List.drop_left' isLen, isLen, ne_eq, not_true_eq_false, if_false]
  rfl

theorem KeyParser.parseLockKey_append (hashLen : Nat) (locked : Bytes) (uuid : Uuid) :
    KeyParser.parseLockKey ⟨hashLen, locked ++ Uuid.asBytes uuid, .keyLockStates⟩ locked =
      .ok uuid := by
  have read := parseUuid_asBytes uuid []
  rw [List.append_nil] at read
  rw [KeyParser.parseLockKey]
  simp only [List.take_left, List.drop_left, ne_eq, not_true_eq_false, if_false]
  rw [read]
  rfl

/-- What does not begin with the locked key, or is too short for an id behind it, is refused. -/
theorem KeyParser.parseLockKey_refused (parser : KeyParser) (locked : Bytes)
    (refused : locked ≠ parser.i.take locked.length ∨ parser.i.length < locked.length + 16) :
    ∃ issue, parser.parseLockKey locked = .error issue := by
  unfold KeyParser.parseLockKey
  by_cases isLock : parser.kind = .keyLockStates
  · rw [if_neg (not_not.mpr isLock)]
    by_cases same : locked = parser.i.take locked.length
    · have tooShort : (parser.i.drop locked.length).length < 16 := by
        rcases refused with different | short
        · exact absurd same different
        · rw [List.length_drop]
          omega
      have failed : parseUuid (parser.i.drop locked.length) =
          .error (.serialize "Uuid" "binary" "parse_lock_key(): key length too small") := by
        rw [parseUuid, if_pos tooShort]
      dsimp only
      rw [if_neg (not_not.mpr same), failed]
      exact ⟨_, rfl⟩
    · dsimp only
      rw [if_pos same]
      exact ⟨_, rfl⟩
  · rw [if_pos isLock]
    exact ⟨_, rfl⟩

namespace LogicalKey

/-- The parse function for the kind of a key finds the parts of the key that it covers. -/
def ParsesBack (scope : Bytes) (hashLen : Nat) (key : LogicalKey) : Prop :=
  let parser := KeyParser.start (key.bytes scope) scope hashLen
  match key with
  | .keyLockState locked uuid => (parser >>= fun p => p.parseLockKey locked) = .ok uuid
  | .metaStatic => parser.map KeyParser.kind = .ok .fsMetadataStatic
  | .metaMutable => parser.map KeyParser.kind = .ok .fsMetadata
  | .inodeX ino tag => ((parser >>= KeyParser.parseIno).map fun p => (p.ino, p.tag)) = .ok (ino, tag)
  | .openedInode ino _ =>
      ((parser >>= KeyParser.parseIno).map fun p => (p.ino, p.tag)) = .ok (ino, .opened)
  | .block ino index => (parser >>= KeyParser.parseKeyBlockAddress) = .ok (ino, index)
  | .blockHash ino index => (parser >>= KeyParser.parseKeyBlockAddress) = .ok (ino, index)
  | .directoryChild parent name => (parser >>= KeyParser.parseDirectoryChild) = .ok (parent, name)
  | .parentLink _ _ _ => parser.map KeyParser.kind = .ok .parentLink
  | .hashedBlock hash => (parser >>= KeyParser.parseKeyHashedBlock) = .ok hash
  | .hashedBlockExists hash => (parser >>= KeyParser.parseKeyHashedBlock) = .ok hash
  | .namedHashedBlockX hash tag _ =>
      (parser >>= KeyParser.parseKeyHashedBlock) = .ok hash ∧
      ((parser >>= KeyParser.parseHashBlockKeyX).map fun p => (p.hash, p.tag)) = .ok (hash, tag)
  | .pendingDeleteX kind =>
      ((parser >>= KeyParser.parsePendingDeletesX).map fun p => p.tag) = .ok kind
  | .pendingDeleteBlockHash _ =>
      ((parser >>= KeyParser.parsePendingDeletesX).map fun p => p.tag) = .ok .cPendingDeletes
  | .pendingDeleteActiveWriter _ _ =>
      ((parser >>= KeyParser.parsePendingDeletesX).map fun p => p.tag) = .ok .dActiveWriters

theorem start_bind {A : Type} (scope : Bytes) (hashLen : Nat) (key : LogicalKey)
    (parse : KeyParser → Except FsError A) :
    (KeyParser.start (key.bytes scope) scope hashLen >>= parse) =
      parse ⟨hashLen, key.body, key.kind⟩ := by
  rw [KeyParser.start_bytes]
  rfl

theorem parsesBack (scope : Bytes) {hashLen : Nat} {key : LogicalKey} (isLen : key.HashLen hashLen) :
    key.ParsesBack scope hashLen := by
  cases key with
  | keyLockState locked uuid =>
      rw [ParsesBack, start_bind]
      exact KeyParser.parseLockKey_append hashLen locked uuid
  | metaStatic =>
      rw [ParsesBack, KeyParser.start_bytes]
      rfl
  | metaMutable =>
      rw [ParsesBack, KeyParser.start_bytes]
      rfl
  | inodeX ino tag =>
      simp only [ParsesBack, start_bind, KeyParser.parseIno, kind, body, readBigEndian_write, ne_eq,
        not_true_eq_false, if_false]
      simp only [bind, Except.bind, nextKind_of_get tag.get_id]
      rfl
  | openedInode ino instanceId =>
      simp only [ParsesBack, start_bind, KeyParser.parseIno, kind, body, readBigEndian_write, ne_eq,
        not_true_eq_false, if_false]
      simp only [bind, Except.bind, nextKind_of_get InoMetadata.opened.get_id]
      rfl
  | block ino index =>
      have read := readBigEndian_write index []
      rw [List.append_nil] at read
      simp only [ParsesBack, start_bind, KeyParser.parseKeyBlockAddress,
        KeyParser.deserializeBlockAddress, kind, body, readBigEndian_write]
      simp only [bind, Except.bind, read]
      rfl
  | blockHash ino index =>
      have read := readBigEndian_write index []
      rw [List.append_nil] at read
      simp only [ParsesBack, start_bind, KeyParser.parseKeyBlockAddress,
        KeyParser.deserializeBlockAddress, kind, body, readBigEndian_write]
      simp only [bind, Except.bind, read]
      rfl
  | directoryChild parent name =>
      simp only [ParsesBack, start_bind, KeyParser.parseDirectoryChild, kind, body,
        readBigEndian_write, ne_eq, not_true_eq_false, if_false]
  | parentLink ino parent name =>
      rw [ParsesBack, KeyParser.start_bytes]
      rfl
  | hashedBlock hash =>
      have read := KeyParser.parseHash_append isLen [] .hashedBlock
      rw [List.append_nil] at read
      simp only [ParsesBack, start_bind, KeyParser.parseKeyHashedBlock, kind, body, read]
      rfl
  | hashedBlockExists hash =>
      have read := KeyParser.parseHash_append isLen [] .hashedBlockExists
      rw [List.append_nil] at read
      simp only [ParsesBack, start_bind, KeyParser.parseKeyHashedBlock, kind, body, read]
      rfl
  | namedHashedBlockX hash tag name =>
      have read := KeyParser.parseHash_append isLen
        (getByRight HashedBlockMeta.iter tag :: name.elim [] Uuid.asBytes) .hashedBlock
      simp only [ParsesBack, start_bind, KeyParser.parseKeyHashedBlock, KeyParser.parseHashBlockKeyX,
        kind, body, read, ne_eq, not_true_eq_false, if_false]
      simp only [bind, Except.bind, nextKind_of_get tag.get_id]
      exact ⟨rfl, rfl⟩
  | pendingDeleteX kind =>
      simp only [ParsesBack, start_bind, KeyParser.parsePendingDeletesX, LogicalKey.kind, body,
        nextKind_of_get kind.get_id, ne_eq, not_true_eq_false, if_false]
      rfl
  | pendingDeleteBlockHash hash =>
      simp only [ParsesBack, start_bind, KeyParser.parsePendingDeletesX, LogicalKey.kind, body,
        nextKind_of_get PendingDeleteMeta.cPendingDeletes.get_id, ne_eq, not_true_eq_false, if_false]
      rfl
  | pendingDeleteActiveWriter iterationNumber writerId =>
      simp only [ParsesBack, start_bind, KeyParser.parsePendingDeletesX, LogicalKey.kind, body,
        nextKind_of_get PendingDeleteMeta.dActiveWriters.get_id, ne_eq, not_true_eq_false, if_false]
      rfl

/-- A reader of whole keys, which the source does not have: the length of what is
left tells the keys of one kind apart. -/
def readBody (hashLen : Nat) (kind : KeyKind) (i : Bytes) : Except FsError LogicalKey :=
  match kind with
  | .keyLockStates => do
      let (uuid, _) ← parseUuid (i.drop (i.length - 16))
      return .keyLockState (i.take (i.length - 16)) uuid
  | .fsMetadataStatic => return .metaStatic
  | .fsMetadata => return .metaMutable
  | .inoMetadata => do
      let (ino, rest) ← readBigEndian i
      let (tag, rest) ← nextKind InoMetadata.iter "" rest
      if rest = [] then return .inodeX ino tag
      let (uuid, _) ← parseUuid rest
      return .openedInode ino uuid
  | .block => do
      let (ino, index) ← KeyParser.deserializeBlockAddress i
      return .block ino index
  | .directoryChild => do
      let (parent, name) ← readBigEndian i
      return .directoryChild parent name
  | .parentLink => do
      let (ino, rest) ← readBigEndian i
      let (parent, name) ← readBigEndian rest
      return .parentLink ino parent name
  | .hashedBlock => do
      let rest := i.drop hashLen
      if rest = [] then return .hashedBlock (i.take hashLen)
      let (tag, rest) ← nextKind HashedBlockMeta.iter "" rest
      if rest = [] then return .namedHashedBlockX (i.take hashLen) tag none
      let (uuid, _) ← parseUuid rest
      return .namedHashedBlockX (i.take hashLen) tag (some uuid)
  | .inoBlockHashMapping => do
      let (ino, index) ← KeyParser.deserializeBlockAddress i
      return .blockHash ino index
  | .hashedBlockExists => return .hashedBlockExists i
  | .pendingDelete => do
      let (tag, rest) ← nextKind PendingDeleteMeta.iter "" i
      if rest = [] then return .pendingDeleteX tag
      if tag = .cPendingDeletes then return .pendingDeleteBlockHash rest
      let (iterationNumber, rest) ← readBigEndian rest
      let (uuid, _) ← parseUuid rest
      return .pendingDeleteActiveWriter iterationNumber uuid
  | .namedHashedBlock => throw .unimplemented

theorem asBytes_ne_nil (id : Uuid) : Uuid.asBytes id ≠ [] := by
  apply List.ne_nil_of_length_pos
  rw [Uuid.asBytes_length]
  decide

theorem readBody_body {hashLen : Nat} (positive : 1 ≤ hashLen) {key : LogicalKey}
    (isLen : key.HashLen hashLen) : readBody hashLen key.kind key.body = .ok key := by
  have readUuid : ∀ id : Uuid, parseUuid (Uuid.asBytes id) = .ok (id, []) := by
    intro id
    have read := parseUuid_asBytes id []
    rw [List.append_nil] at read
    exact read
  have readNumber : ∀ value : UInt64, readBigEndian (writeBigEndian value) = .ok (value, []) := by
    intro value
    have read := readBigEndian_write value []
    rw [List.append_nil] at read
    exact read
  cases key with
  | keyLockState locked uuid =>
      simp only [kind, body, readBody, List.length_append, Uuid.asBytes_length, Nat.add_sub_cancel,
        List.take_left, List.drop_left, readUuid]
      rfl
  | metaStatic => rfl
  | metaMutable => rfl
  | inodeX ino tag =>
      simp only [kind, body, readBody, readBigEndian_write, bind, Except.bind,
        nextKind_of_get tag.get_id, if_true]
      rfl
  | openedInode ino instanceId =>
      simp only [kind, body, readBody, readBigEndian_write, bind, Except.bind,
        nextKind_of_get InoMetadata.opened.get_id, if_neg (asBytes_ne_nil instanceId), readUuid]
      rfl
  | block ino index =>
      simp only [kind, body, readBody, KeyParser.deserializeBlockAddress, readBigEndian_write, bind,
        Except.bind, readNumber]
      rfl
  | blockHash ino index =>
      simp only [kind, body, readBody, KeyParser.deserializeBlockAddress, readBigEndian_write, bind,
        Except.bind, readNumber]
      rfl
  | directoryChild parent name =>
      simp only [kind, body, readBody, readBigEndian_write, bind, Except.bind]
      rfl
  | parentLink ino parent name =>
      simp only [kind, body, readBody, readBigEndian_write, bind, Except.bind]
      rfl
  | hashedBlock hash =>
      have isHash : hash.length = hashLen := isLen
      simp only [kind, body, readBody, List.drop_eq_nil_of_le (Nat.le_of_eq isHash), if_true,
        List.take_of_length_le (Nat.le_of_eq isHash)]
      rfl
  | hashedBlockExists hash => rfl
  | namedHashedBlockX hash tag name =>
      have isHash : hash.length = hashLen := isLen
      simp only [kind, body, readBody, List.drop_left' isHash, List.take_left' isHash, reduceCtorEq,
        if_false, bind, Except.bind, nextKind_of_get tag.get_id]
      cases name with
      | none => rfl
      | some name =>
          simp only [Option.elim_some, if_neg (asBytes_ne_nil name), readUuid]
          rfl
  | pendingDeleteX kind =>
      simp only [LogicalKey.kind, body, readBody, nextKind_of_get kind.get_id, bind, Except.bind,
        if_true]
      rfl
  | pendingDeleteBlockHash hash =>
      have nonempty : hash ≠ [] := List.ne_nil_of_length_pos (Nat.lt_of_lt_of_eq positive isLen.symm)
      simp only [kind, body, readBody, nextKind_of_get PendingDeleteMeta.cPendingDeletes.get_id, bind,
        Except.bind, if_neg nonempty, if_true]
      rfl
  | pendingDeleteActiveWriter iterationNumber writerId =>
      have nonempty : writeBigEndian iterationNumber ++ Uuid.asBytes writerId ≠ [] := by
        intro empty
        exact asBytes_ne_nil writerId (List.append_eq_nil_iff.mp empty).2
      simp only [kind, body, readBody, nextKind_of_get PendingDeleteMeta.dActiveWriters.get_id, bind,
        Except.bind, if_neg nonempty, reduceCtorEq, if_false, readBigEndian_write, readUuid]
      rfl

theorem kind_body_of_bytes {scope : Bytes} {left right : LogicalKey}
    (same : left.bytes scope = right.bytes scope) : left.kind = right.kind ∧ left.body = right.body := by
  rw [bytes_eq, bytes_eq] at same
  have rest := List.append_cancel_left same
  exact ⟨KeyKind.id_injective (List.cons.inj rest).1, (List.cons.inj rest).2⟩

theorem bytes_injOn (scope : Bytes) {hashLen : Nat} (positive : 1 ≤ hashLen) :
    Set.InjOn (bytes scope) {key | key.HashLen hashLen} := by
  intro left leftLen right rightLen same
  obtain ⟨sameKind, sameBody⟩ := kind_body_of_bytes same
  have leftRead := readBody_body positive leftLen
  rw [sameKind, sameBody, readBody_body positive rightLen] at leftRead
  exact (Except.ok.inj leftRead).symm

/-- Different keys have different bytes, and each key is parsed back. -/
theorem key_codec (scope : Bytes) (hashLen : Nat) (positive : 1 ≤ hashLen) :
    (∀ left right : LogicalKey, left.HashLen hashLen → right.HashLen hashLen → left ≠ right →
      left.bytes scope ≠ right.bytes scope) ∧
    ∀ key : LogicalKey, key.HashLen hashLen → key.ParsesBack scope hashLen := by
  constructor
  · intro left right leftLen rightLen different same
    exact different (bytes_injOn scope positive leftLen rightLen same)
  · intro key isLen
    exact parsesBack scope isLen

theorem key_codec_one :
    (LogicalKey.hashedBlock [7]).bytes [1] ≠ (LogicalKey.hashedBlockExists [7]).bytes [1] ∧
      (LogicalKey.directoryChild 3 [97]).ParsesBack [1] 1 :=
  ⟨(key_codec [1] 1 le_rfl).1 _ _ rfl rfl (by decide), (key_codec [1] 1 le_rfl).2 _ trivial⟩

end LogicalKey

def Key.logical : Key → LogicalKey
  | .metaStatic => .metaStatic
  | .metaMutable => .metaMutable
  | .inodeX ino kind => .inodeX (UInt64.ofNat ino) kind
  | .directoryChild parent name => .directoryChild (UInt64.ofNat parent) name
  | .parentLink ino parent name => .parentLink (UInt64.ofNat ino) (UInt64.ofNat parent) name
  | .hashedBlock hash => .hashedBlock hash
  | .countedNamedUsages hash => .namedHashedBlockX hash .cCountedNamedUsages none
  | .blockHash addr => .blockHash (UInt64.ofNat addr.ino) (UInt64.ofNat addr.index)

/-- The numbers of the key are `u64`, its hashes digests. -/
def Key.Encodable (hashLen : Nat) : Key → Prop
  | .metaStatic => True
  | .metaMutable => True
  | .inodeX ino _ => ino < UInt64.size
  | .directoryChild parent _ => parent < UInt64.size
  | .parentLink ino parent _ => ino < UInt64.size ∧ parent < UInt64.size
  | .hashedBlock hash => hash.length = hashLen
  | .countedNamedUsages hash => hash.length = hashLen
  | .blockHash addr => addr.ino < UInt64.size ∧ addr.index < UInt64.size

theorem ofNat_u64_inj {left right : Nat} (leftSmall : left < UInt64.size)
    (rightSmall : right < UInt64.size) (same : UInt64.ofNat left = UInt64.ofNat right) :
    left = right := by
  have numbers := congrArg UInt64.toNat same
  rwa [UInt64.toNat_ofNat_of_lt' leftSmall, UInt64.toNat_ofNat_of_lt' rightSmall] at numbers

/-- Records of different typed keys do not share a byte string. -/
theorem Key.bytes_injOn (scope : Bytes) {hashLen : Nat} (positive : 1 ≤ hashLen) :
    Set.InjOn (fun key : Key => key.logical.bytes scope) {key | key.Encodable hashLen} := by
  intro left leftFits right rightFits same
  have lens : ∀ key : Key, key.Encodable hashLen → key.logical.HashLen hashLen := by
    intro key fits
    cases key with
    | hashedBlock hash => exact fits
    | countedNamedUsages hash => exact fits
    | _ => exact trivial
  have logical := LogicalKey.bytes_injOn scope positive (lens left leftFits) (lens right rightFits) same
  cases left with
  | metaStatic =>
      cases right with
      | metaStatic => rfl
      | _ => cases logical
  | metaMutable =>
      cases right with
      | metaMutable => rfl
      | _ => cases logical
  | inodeX ino kind =>
      cases right with
      | inodeX other otherKind =>
          obtain ⟨sameIno, rfl⟩ := LogicalKey.inodeX.inj logical
          rw [ofNat_u64_inj leftFits rightFits sameIno]
      | _ => cases logical
  | directoryChild parent name =>
      cases right with
      | directoryChild other otherName =>
          obtain ⟨sameParent, rfl⟩ := LogicalKey.directoryChild.inj logical
          rw [ofNat_u64_inj leftFits rightFits sameParent]
      | _ => cases logical
  | parentLink ino parent name =>
      cases right with
      | parentLink other otherParent otherName =>
          obtain ⟨sameIno, sameParent, rfl⟩ := LogicalKey.parentLink.inj logical
          rw [ofNat_u64_inj leftFits.1 rightFits.1 sameIno,
            ofNat_u64_inj leftFits.2 rightFits.2 sameParent]
      | _ => cases logical
  | hashedBlock hash =>
      cases right with
      | hashedBlock other => rw [LogicalKey.hashedBlock.inj logical]
      | _ => cases logical
  | countedNamedUsages hash =>
      cases right with
      | countedNamedUsages other => rw [(LogicalKey.namedHashedBlockX.inj logical).1]
      | _ => cases logical
  | blockHash addr =>
      cases right with
      | blockHash other =>
          obtain ⟨sameIno, sameIndex⟩ := LogicalKey.blockHash.inj logical
          have isAddr : addr = other := by
            cases addr
            cases other
            simp only [BlockAddress.mk.injEq]
            exact ⟨ofNat_u64_inj leftFits.1 rightFits.1 sameIno,
              ofNat_u64_inj leftFits.2 rightFits.2 sameIndex⟩
          rw [isAddr]
      | _ => cases logical

end TiFs
