import Mathlib.Data.Nat.Log
import TiFs.HashFsInterface
import TiFs.Library.BigEndian
import TiFs.Library.RemoteCall

/-! The messages of `hash_fs.proto` that carry values of the storage interface, and
the conversions between the two. A message field is optional; an enumeration field
holds its number, and an unknown number reads as the first member. -/

namespace TiFs

open Tables

/-- What the conversions use from outside: `prost_types::Timestamp` and its
conversions, `Uuid::parse_str`, and the order in which hash sets and maps are
iterated. -/
structure Wire where
  Timestamp : Type
  ofSystemTime : SystemTime → Timestamp
  tryIntoSystemTime : Timestamp → Option SystemTime
  parseStr : ByteString → Option Uuid
  iterSet : Finset TiFsHash → List TiFsHash
  iter : {K V : Type} → HashMap K V → List (K × V)

structure Wire.Lawful (wire : Wire) : Prop where
  lossless : ∀ time, wire.tryIntoSystemTime (wire.ofSystemTime time) = some time
  parse_str : ∀ id, wire.parseStr (uuidToString id) = some id
  mem_iterSet : ∀ hashes hash, hash ∈ wire.iterSet hashes ↔ hash ∈ hashes
  iter_lists : ∀ {K V : Type} [DecidableEq K] (map : HashMap K V), ListsEntries (wire.iter map) map

def unixEpoch : SystemTime := 0

def Wire.grpcTimeToSystemTime (wire : Wire) (timestamp : wire.Timestamp) : SystemTime :=
  (wire.tryIntoSystemTime timestamp).getD unixEpoch

def Wire.grpcTimeOptToSystemTime (wire : Wire) (timestamp : Option wire.Timestamp) : SystemTime :=
  (timestamp.bind wire.tryIntoSystemTime).getD unixEpoch

def collectMap {K V : Type} [DecidableEq K] (pairs : List (K × V)) : HashMap K V :=
  (collect pairs).toFinmap

namespace Grpc

structure StorageIno where
  t : Nat

def StorageIno.of (value : TiFs.StorageIno) : StorageIno := ⟨value⟩

def StorageIno.into (val : StorageIno) : TiFs.StorageIno := val.t

structure ParentStorageIno where
  t : Option StorageIno

def ParentStorageIno.of (value : TiFs.ParentStorageIno) : ParentStorageIno :=
  ⟨some (StorageIno.of value)⟩

def ParentStorageIno.into (val : ParentStorageIno) : TiFs.ParentStorageIno :=
  (val.t.map StorageIno.into).getD parentOfRootInode

inductive FsErrorId where
  | unspecific
  | rawGrpcStatus
  | fsNotInitialized
  | fsHasInvalidData
  | fileNotFound
  | fileAlreadyExists
  | inodeHasNoInlineData
  | grpcMessageIncomplete
  | rawTonicTransportError
  | fsDataIsMissing
  deriving DecidableEq, Repr

def FsErrorId.number : FsErrorId → Int
  | .unspecific => 0
  | .rawGrpcStatus => 1
  | .fsNotInitialized => 2
  | .fsHasInvalidData => 3
  | .fileNotFound => 4
  | .fileAlreadyExists => 5
  | .inodeHasNoInlineData => 6
  | .grpcMessageIncomplete => 7
  | .rawTonicTransportError => 8
  | .fsDataIsMissing => 9

def FsErrorId.ofNumber : Int → FsErrorId
  | 1 => .rawGrpcStatus
  | 2 => .fsNotInitialized
  | 3 => .fsHasInvalidData
  | 4 => .fileNotFound
  | 5 => .fileAlreadyExists
  | 6 => .inodeHasNoInlineData
  | 7 => .grpcMessageIncomplete
  | 8 => .rawTonicTransportError
  | 9 => .fsDataIsMissing
  | _ => .unspecific

structure HashFsError where
  id : Int
  msg : String

def HashFsError.into (val : HashFsError) : TiFs.HashFsError :=
  match FsErrorId.ofNumber val.id with
  | .fileAlreadyExists => .fileAlreadyExists
  | .fileNotFound => .fileNotFound
  | .fsHasInvalidData => .fsHasInvalidData (some val.msg)
  | .fsNotInitialized => .fsNotInitialized
  | .inodeHasNoInlineData => .inodeHasNoInlineData
  | .rawGrpcStatus => .rawGrpcStatus none
  | .unspecific => .unspecific val.msg
  | .grpcMessageIncomplete => .grpcMessageIncomplete
  | .rawTonicTransportError => .rawTonicTransportError val.msg
  | .fsDataIsMissing => .fsHasMissingData (some val.msg)

def HashFsError.of (val : TiFs.HashFsError) : HashFsError :=
  let (id, msg) := match val with
    | .fileAlreadyExists => (FsErrorId.fileAlreadyExists, "")
    | .fileNotFound => (.fileNotFound, "")
    | .fsHasInvalidData msg => (.fsHasInvalidData, msg.getD "")
    | .fsNotInitialized => (.fsNotInitialized, "")
    | .inodeHasNoInlineData => (.inodeHasNoInlineData, "")
    | .rawGrpcStatus status => (.rawGrpcStatus, "status: " ++ reprStr status)
    | .unspecific msg => (.unspecific, msg)
    | .grpcMessageIncomplete => (.grpcMessageIncomplete, "")
    | .rawTonicTransportError msg => (.rawTonicTransportError, msg)
    | .fsHasMissingData msg => (.fsDataIsMissing, msg.getD "")
  ⟨id.number, msg⟩

theorem HashFsError.into_of (val : TiFs.HashFsError) : (HashFsError.of val).into.SameVariant val := by
  cases val with
  | unspecific msg => trivial
  | rawGrpcStatus status => trivial
  | fsNotInitialized => trivial
  | fsHasInvalidData msg => trivial
  | fsHasMissingData msg => trivial
  | fileNotFound => trivial
  | fileAlreadyExists => trivial
  | inodeHasNoInlineData => trivial
  | grpcMessageIncomplete => trivial
  | rawTonicTransportError msg => trivial

def StorageDirItemKind.number : StorageDirItemKind → Int
  | .file => 0
  | .directory => 1
  | .symlink => 2

def StorageDirItemKind.ofNumber : Int → StorageDirItemKind
  | 1 => .directory
  | 2 => .symlink
  | _ => .file

@[simp] theorem StorageDirItemKind.ofNumber_number (kind : TiFs.StorageDirItemKind) :
    StorageDirItemKind.ofNumber (StorageDirItemKind.number kind) = kind := by
  cases kind with
  | file => rfl
  | directory => rfl
  | symlink => rfl

structure StorageDirItem where
  ino : Option StorageIno
  typ : Int

def StorageDirItem.into (val : StorageDirItem) : TiFs.StorageDirItem :=
  ⟨(val.ino.map StorageIno.into).getD parentOfRootInode, StorageDirItemKind.ofNumber val.typ⟩

def StorageDirItem.of (val : TiFs.StorageDirItem) : StorageDirItem :=
  ⟨some (StorageIno.of val.ino), StorageDirItemKind.number val.typ⟩

@[simp] theorem StorageDirItem.into_of (val : TiFs.StorageDirItem) :
    (StorageDirItem.of val).into = val := by
  rw [StorageDirItem.of, StorageDirItem.into, StorageDirItemKind.ofNumber_number]
  rfl

structure DirectoryItem where
  ino : Option StorageIno
  name : ByteString
  typ : Int

structure MetaStatic where
  blockSize : Nat
  hashedBlocks : Bool
  hashAlgorithm : String

def MetaStatic.into (val : MetaStatic) : TiFs.MetaStatic :=
  ⟨val.blockSize, val.hashedBlocks, val.hashAlgorithm⟩

def MetaStatic.of (val : TiFs.MetaStatic) : MetaStatic :=
  ⟨val.blockSize, val.hashedBlocks, val.hashAlgorithm⟩

structure StorageFilePermission where
  t : Nat

def StorageFilePermission.into (value : StorageFilePermission) : TiFs.StorageFilePermission :=
  UInt16.ofNat (value.t &&& 0xFFFF)

def StorageFilePermission.of (val : TiFs.StorageFilePermission) : StorageFilePermission :=
  ⟨val.toNat⟩

@[simp] theorem StorageFilePermission.into_of (val : TiFs.StorageFilePermission) :
    (StorageFilePermission.of val).into = val := by
  have mask : val.toNat &&& 0xFFFF = val.toNat % 2 ^ 16 := Nat.and_two_pow_sub_one_eq_mod val.toNat 16
  rw [StorageFilePermission.of, StorageFilePermission.into, mask, Nat.mod_eq_of_lt val.toNat_lt]
  exact UInt16.ofNat_toNat

structure Uuid where
  t : ByteString

def Uuid.of (val : TiFs.Uuid) : Uuid := ⟨uuidToString val⟩

structure BlockIndex where
  t : Nat

def BlockIndex.into (value : BlockIndex) : TiFs.BlockIndex := value.t

def BlockIndex.of (val : TiFs.BlockIndex) : BlockIndex := ⟨val⟩

structure BlockRange where
  start : Option BlockIndex
  stop : Option BlockIndex

def BlockRange.into (value : BlockRange) : TiFs.BlockIndex × TiFs.BlockIndex :=
  ((value.start.map BlockIndex.into).getD 0, (value.stop.map BlockIndex.into).getD 0)

def BlockRange.of (val : TiFs.BlockIndex × TiFs.BlockIndex) : BlockRange :=
  ⟨some (BlockIndex.of val.1), some (BlockIndex.of val.2)⟩

structure BigUint where
  bigEndianValue : Bytes

/-- `to_bytes_be` gives a number its shortest form, and zero one byte. -/
def toBytesBe (value : Nat) : Bytes := BigEndian.write (Nat.log 256 value + 1) value

def BigUint.into (value : BigUint) : Nat := BigEndian.read value.bigEndianValue

def BigUint.of (val : Nat) : BigUint := ⟨toBytesBe val⟩

@[simp] theorem BigUint.into_of (val : Nat) : (BigUint.of val).into = val :=
  BigEndian.read_write (Nat.lt_pow_succ_log_self (by decide) val)

structure Hash where
  data : Bytes

structure HashBlockData where
  hash : Option Hash
  data : Bytes

structure HashBlockCount where
  hash : Option Hash
  count : Option BigUint

structure HashBlockIncrements where
  hash : Option Hash
  inc : Nat

structure HashBlockAddresses where
  hash : Option Hash
  blockActualLength : Nat
  blockIds : List BlockIndex

structure InoDescription (Timestamp : Type) where
  ino : Option StorageIno
  typ : Int
  creationTime : Option Timestamp

structure InoStorageFileAttr (Timestamp : Type) where
  perm : Option StorageFilePermission
  uid : Nat
  gid : Nat
  rdev : Nat
  flags : Nat
  lastChange : Option Timestamp

structure InoSize (Timestamp : Type) where
  size : Nat
  blocks : Nat
  lastChange : Option Timestamp

structure InoAccessTime (Timestamp : Type) where
  atime : Option Timestamp

structure InoAllAttributes (Timestamp : Type) where
  desc : Option (InoDescription Timestamp)
  attrs : Option (InoStorageFileAttr Timestamp)
  size : Option (InoSize Timestamp)
  atime : Option (InoAccessTime Timestamp)

structure TimeOrNow (Timestamp : Type) where
  time : Option Timestamp

section Conversions

variable (wire : Wire)

def Uuid.into (value : Uuid) : TiFs.Uuid := (wire.parseStr value.t).getD 0

def InoDescription.into (val : InoDescription wire.Timestamp) : TiFs.InoDescription :=
  ⟨(val.ino.map StorageIno.into).getD parentOfRootInode, StorageDirItemKind.ofNumber val.typ,
    wire.grpcTimeOptToSystemTime val.creationTime⟩

def InoDescription.of (val : TiFs.InoDescription) : InoDescription wire.Timestamp :=
  ⟨some (StorageIno.of val.ino), StorageDirItemKind.number val.typ,
    some (wire.ofSystemTime val.creationTime)⟩

def InoStorageFileAttr.into (val : InoStorageFileAttr wire.Timestamp) : FileAttr :=
  let perm := (val.perm.map StorageFilePermission.into).getD 0
  ⟨⟨perm.toNat, val.uid, val.gid, val.rdev, val.flags, wire.grpcTimeOptToSystemTime val.lastChange⟩,
    perm.toNat_lt⟩

def InoStorageFileAttr.of (val : FileAttr) : InoStorageFileAttr wire.Timestamp :=
  ⟨some (StorageFilePermission.of (UInt16.ofNat val.1.perm)), val.1.uid, val.1.gid, val.1.rdev,
    val.1.flags, some (wire.ofSystemTime val.1.lastChange)⟩

def InoSize.into (val : InoSize wire.Timestamp) : TiFs.InoSize :=
  ⟨val.size, val.blocks, wire.grpcTimeOptToSystemTime val.lastChange⟩

def InoSize.of (val : TiFs.InoSize) : InoSize wire.Timestamp :=
  ⟨val.size, val.blocks, some (wire.ofSystemTime val.lastChange)⟩

def InoAccessTime.into (val : InoAccessTime wire.Timestamp) : SystemTime :=
  wire.grpcTimeOptToSystemTime val.atime

def InoAccessTime.of (val : SystemTime) : InoAccessTime wire.Timestamp :=
  ⟨some (wire.ofSystemTime val)⟩

def TimeOrNow.into (value : TimeOrNow wire.Timestamp) : TiFs.TimeOrNow :=
  match value.time with
  | some time => .specificTime (wire.grpcTimeOptToSystemTime (some time))
  | none => .now

def TimeOrNow.of : TiFs.TimeOrNow → TimeOrNow wire.Timestamp
  | .specificTime time => ⟨some (wire.ofSystemTime time)⟩
  | .now => ⟨none⟩

end Conversions

section Lawful

variable {wire : Wire} (lawful : wire.Lawful)
include lawful

theorem grpcTimeToSystemTime_of (time : SystemTime) :
    wire.grpcTimeToSystemTime (wire.ofSystemTime time) = time := by
  rw [Wire.grpcTimeToSystemTime, lawful.lossless, Option.getD_some]

theorem grpcTimeOptToSystemTime_of (time : SystemTime) :
    wire.grpcTimeOptToSystemTime (some (wire.ofSystemTime time)) = time := by
  rw [Wire.grpcTimeOptToSystemTime, Option.bind_some, lawful.lossless, Option.getD_some]

theorem Uuid.into_of (val : TiFs.Uuid) : (Uuid.of val).into wire = val := by
  rw [Uuid.of, Uuid.into, lawful.parse_str, Option.getD_some]

theorem InoDescription.into_of (val : TiFs.InoDescription) :
    (InoDescription.of wire val).into = val := by
  rw [InoDescription.of, InoDescription.into, grpcTimeOptToSystemTime_of lawful,
    StorageDirItemKind.ofNumber_number]
  rfl

theorem InoStorageFileAttr.into_of (val : FileAttr) :
    (InoStorageFileAttr.of wire val).into = val := by
  have perm : (UInt16.ofNat val.1.perm).toNat = val.1.perm := by
    rw [UInt16.toNat_ofNat', Nat.mod_eq_of_lt val.2]
  apply Subtype.ext
  simp only [InoStorageFileAttr.of, InoStorageFileAttr.into, Option.map_some, Option.getD_some,
    StorageFilePermission.into_of, grpcTimeOptToSystemTime_of lawful, perm]

theorem InoSize.into_of (val : TiFs.InoSize) : (InoSize.of wire val).into = val := by
  rw [InoSize.of, InoSize.into, grpcTimeOptToSystemTime_of lawful]

theorem InoAccessTime.into_of (val : SystemTime) : (InoAccessTime.of wire val).into = val :=
  grpcTimeOptToSystemTime_of lawful val

theorem TimeOrNow.into_of (val : TiFs.TimeOrNow) : (TimeOrNow.of wire val).into = val := by
  cases val with
  | specificTime time =>
      exact congrArg TiFs.TimeOrNow.specificTime (grpcTimeOptToSystemTime_of lawful time)
  | now => rfl

end Lawful

end Grpc

end TiFs
