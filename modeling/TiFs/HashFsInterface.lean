import Mathlib.Data.Finmap
import TiFs.BlockTxn
import TiFs.Directory
import TiFs.HashFsError

/-! The storage interface between the file system and a storage backend. A backend
answers each method from a state of its own. A hash map is a finite map without an
order of its entries. -/

namespace TiFs

abbrev HashMap (K V : Type) := Finmap fun _ : K => V

abbrev StorageFilePermission := UInt16

/-- Permissions have the sixteen bits of their stored type. -/
abbrev FileAttr := { attr : InoStorageFileAttr // attr.perm < 2 ^ 16 }

inductive TimeOrNow where
  | specificTime (time : SystemTime)
  | now
  deriving DecidableEq, Repr

abbrev AllAttributes := InoDescription × FileAttr × InoSize × SystemTime

structure SetAttributes where
  mode : Option StorageFilePermission
  uid : Option Nat
  gid : Option Nat
  size : Option Nat
  atime : Option TimeOrNow
  mtime : Option TimeOrNow
  ctime : Option SystemTime
  crtime : Option SystemTime
  chgtime : Option SystemTime
  bkuptime : Option SystemTime
  flags : Option Nat
  deriving DecidableEq

abbrev HashFsResult (V : Type) := Except HashFsError V

structure HashFsInterface (S : Type) where
  init (gid uid : Nat) : StateM S (HashFsResult StorageDirItem)
  metaStaticRead : StateM S (HashFsResult MetaStatic)
  directoryReadChildren (dirIno : StorageIno) : StateM S (HashFsResult (List DirectoryItem))
  directoryAddChildCheckedNewInode (parent : ParentStorageIno) (name : ByteString)
    (typ : StorageDirItemKind) (perm : StorageFilePermission) (gid uid rdev : Nat)
    (inlineData : Option Bytes) : StateM S (HashFsResult (GotOrMade StorageDirItem))
  directoryAddChildCheckedExistingInode (parent : ParentStorageIno) (name : ByteString)
    (ino : StorageIno) : StateM S (HashFsResult Unit)
  directoryRemoveChildFile (parent : ParentStorageIno) (name : ByteString) :
    StateM S (HashFsResult Unit)
  directoryRemoveChildDirectory (parent : ParentStorageIno) (name : ByteString) :
    StateM S (HashFsResult Unit)
  directoryRenameChild (parent : ParentStorageIno) (childName : ByteString)
    (newParent : ParentStorageIno) (newChildName : ByteString) : StateM S (HashFsResult Unit)
  directoryChildGetAllAttributes (parent : ParentStorageIno) (name : ByteString) :
    StateM S (HashFsResult AllAttributes)
  directoryAddNewSymlink (gid uid : Nat) (parent : ParentStorageIno) (name link : ByteString) :
    StateM S (HashFsResult StorageDirItem)
  inodeGetAllAttributes (ino : StorageIno) : StateM S (HashFsResult AllAttributes)
  inodeSetAllAttributes (ino : StorageIno) (attributes : SetAttributes) :
    StateM S (HashFsResult Unit)
  inodeOpen (ino : StorageIno) : StateM S (HashFsResult Uuid)
  inodeClose (ino : StorageIno) (useId : Uuid) : StateM S (HashFsResult Unit)
  inodeAllocateSize (ino : StorageIno) (offset length : Int) : StateM S (HashFsResult Unit)
  inodeReadInlineData (ino : StorageIno) : StateM S (HashFsResult Bytes)
  inodeReadBlockHashesDataRange (ino : StorageIno) (start readSize : Nat) :
    StateM S (HashFsResult (HashMap BlockIndex TiFsHash))
  inodeReadBlockHashesBlockRange (ino : StorageIno) (blockRanges : List (BlockIndex × BlockIndex)) :
    StateM S (HashFsResult (HashMap BlockIndex TiFsHash))
  hbGetBlockDataByHashes (hashes : Finset TiFsHash) :
    StateM S (HashFsResult (HashMap TiFsHash Bytes))
  fileGetHash (ino : StorageIno) : StateM S (HashFsResult Bytes)
  fileReadBlockHashes (ino : StorageIno) (blockRange : BlockIndex × BlockIndex) :
    StateM S (HashFsResult Bytes)
  hbIncrementReferenceCount (blocks : List (TiFsHash × Nat)) :
    StateM S (HashFsResult (HashMap TiFsHash Nat))
  hbUploadNewBlock (blocks : List (TiFsHash × Bytes)) : StateM S (HashFsResult Unit)
  inodeWriteHashBlockToAddressesUpdateInoSizeAndCleaningPreviousBlockHashes (ino : StorageIno)
    (blocks : List (TiFsHash × Nat × List BlockIndex)) : StateM S (HashFsResult Unit)
  snapshotCreate (name : ByteString) : StateM S (HashFsResult (GotOrMade StorageDirItem))

/-- A method of the interface with its arguments, by the type of its answer. -/
inductive HashFsCall : Type → Type where
  | init (gid uid : Nat) : HashFsCall StorageDirItem
  | metaStaticRead : HashFsCall MetaStatic
  | directoryReadChildren (dirIno : StorageIno) : HashFsCall (List DirectoryItem)
  | directoryAddChildCheckedNewInode (parent : ParentStorageIno) (name : ByteString)
      (typ : StorageDirItemKind) (perm : StorageFilePermission) (gid uid rdev : Nat)
      (inlineData : Option Bytes) : HashFsCall (GotOrMade StorageDirItem)
  | directoryAddChildCheckedExistingInode (parent : ParentStorageIno) (name : ByteString)
      (ino : StorageIno) : HashFsCall Unit
  | directoryRemoveChildFile (parent : ParentStorageIno) (name : ByteString) : HashFsCall Unit
  | directoryRemoveChildDirectory (parent : ParentStorageIno) (name : ByteString) : HashFsCall Unit
  | directoryRenameChild (parent : ParentStorageIno) (childName : ByteString)
      (newParent : ParentStorageIno) (newChildName : ByteString) : HashFsCall Unit
  | directoryChildGetAllAttributes (parent : ParentStorageIno) (name : ByteString) :
      HashFsCall AllAttributes
  | directoryAddNewSymlink (gid uid : Nat) (parent : ParentStorageIno) (name link : ByteString) :
      HashFsCall StorageDirItem
  | inodeGetAllAttributes (ino : StorageIno) : HashFsCall AllAttributes
  | inodeSetAllAttributes (ino : StorageIno) (attributes : SetAttributes) : HashFsCall Unit
  | inodeOpen (ino : StorageIno) : HashFsCall Uuid
  | inodeClose (ino : StorageIno) (useId : Uuid) : HashFsCall Unit
  | inodeAllocateSize (ino : StorageIno) (offset length : Int) : HashFsCall Unit
  | inodeReadInlineData (ino : StorageIno) : HashFsCall Bytes
  | inodeReadBlockHashesDataRange (ino : StorageIno) (start readSize : Nat) :
      HashFsCall (HashMap BlockIndex TiFsHash)
  | inodeReadBlockHashesBlockRange (ino : StorageIno)
      (blockRanges : List (BlockIndex × BlockIndex)) : HashFsCall (HashMap BlockIndex TiFsHash)
  | hbGetBlockDataByHashes (hashes : Finset TiFsHash) : HashFsCall (HashMap TiFsHash Bytes)
  | fileGetHash (ino : StorageIno) : HashFsCall Bytes
  | fileReadBlockHashes (ino : StorageIno) (blockRange : BlockIndex × BlockIndex) : HashFsCall Bytes
  | hbIncrementReferenceCount (blocks : List (TiFsHash × Nat)) : HashFsCall (HashMap TiFsHash Nat)
  | hbUploadNewBlock (blocks : List (TiFsHash × Bytes)) : HashFsCall Unit
  | inodeWriteHashBlockToAddressesUpdateInoSizeAndCleaningPreviousBlockHashes (ino : StorageIno)
      (blocks : List (TiFsHash × Nat × List BlockIndex)) : HashFsCall Unit
  | snapshotCreate (name : ByteString) : HashFsCall (GotOrMade StorageDirItem)

def HashFsInterface.answer {S V : Type} (fs : HashFsInterface S) : HashFsCall V → StateM S (HashFsResult V)
  | .init gid uid => fs.init gid uid
  | .metaStaticRead => fs.metaStaticRead
  | .directoryReadChildren dirIno => fs.directoryReadChildren dirIno
  | .directoryAddChildCheckedNewInode parent name typ perm gid uid rdev inlineData =>
      fs.directoryAddChildCheckedNewInode parent name typ perm gid uid rdev inlineData
  | .directoryAddChildCheckedExistingInode parent name ino =>
      fs.directoryAddChildCheckedExistingInode parent name ino
  | .directoryRemoveChildFile parent name => fs.directoryRemoveChildFile parent name
  | .directoryRemoveChildDirectory parent name => fs.directoryRemoveChildDirectory parent name
  | .directoryRenameChild parent childName newParent newChildName =>
      fs.directoryRenameChild parent childName newParent newChildName
  | .directoryChildGetAllAttributes parent name => fs.directoryChildGetAllAttributes parent name
  | .directoryAddNewSymlink gid uid parent name link =>
      fs.directoryAddNewSymlink gid uid parent name link
  | .inodeGetAllAttributes ino => fs.inodeGetAllAttributes ino
  | .inodeSetAllAttributes ino attributes => fs.inodeSetAllAttributes ino attributes
  | .inodeOpen ino => fs.inodeOpen ino
  | .inodeClose ino useId => fs.inodeClose ino useId
  | .inodeAllocateSize ino offset length => fs.inodeAllocateSize ino offset length
  | .inodeReadInlineData ino => fs.inodeReadInlineData ino
  | .inodeReadBlockHashesDataRange ino start readSize =>
      fs.inodeReadBlockHashesDataRange ino start readSize
  | .inodeReadBlockHashesBlockRange ino blockRanges =>
      fs.inodeReadBlockHashesBlockRange ino blockRanges
  | .hbGetBlockDataByHashes hashes => fs.hbGetBlockDataByHashes hashes
  | .fileGetHash ino => fs.fileGetHash ino
  | .fileReadBlockHashes ino blockRange => fs.fileReadBlockHashes ino blockRange
  | .hbIncrementReferenceCount blocks => fs.hbIncrementReferenceCount blocks
  | .hbUploadNewBlock blocks => fs.hbUploadNewBlock blocks
  | .inodeWriteHashBlockToAddressesUpdateInoSizeAndCleaningPreviousBlockHashes ino blocks =>
      fs.inodeWriteHashBlockToAddressesUpdateInoSizeAndCleaningPreviousBlockHashes ino blocks
  | .snapshotCreate name => fs.snapshotCreate name

/-- The same variant of the error, whatever its message. -/
def HashFsError.SameVariant : HashFsError → HashFsError → Prop
  | .unspecific _, .unspecific _ => True
  | .rawGrpcStatus _, .rawGrpcStatus _ => True
  | .fsNotInitialized, .fsNotInitialized => True
  | .fsHasInvalidData _, .fsHasInvalidData _ => True
  | .fsHasMissingData _, .fsHasMissingData _ => True
  | .fileNotFound, .fileNotFound => True
  | .fileAlreadyExists, .fileAlreadyExists => True
  | .inodeHasNoInlineData, .inodeHasNoInlineData => True
  | .grpcMessageIncomplete, .grpcMessageIncomplete => True
  | .rawTonicTransportError _, .rawTonicTransportError _ => True
  | _, _ => False

/-- The same value, or an error of the same variant. -/
def SameOutcome {V : Type} : HashFsResult V → HashFsResult V → Prop
  | .ok left, .ok right => left = right
  | .error left, .error right => left.SameVariant right
  | _, _ => False

end TiFs
