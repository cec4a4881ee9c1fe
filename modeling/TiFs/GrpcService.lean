import TiFs.GrpcMessages

/-! Client and server of the storage interface: the requests and responses of the
service, `HashFsGrpcServer`, which answers them from a backend, and `HashFsClient`,
which is itself a backend. -/

namespace TiFs.Grpc

open RemoteCall Tables

/-- `tonic::Status::invalid_argument`. -/
def invalidArgument (message : String) : GrpcStatus := ⟨3, message⟩

structure InitRq where
  gid : Nat
  uid : Nat

structure ValueRs (Value : Type) where
  error : Option HashFsError
  value : Option Value

structure DirectoryReadChildrenRq where
  dirIno : Option StorageIno

structure DirectoryReadChildrenRs where
  error : Option HashFsError
  value : List DirectoryItem

structure DirectoryAddChildCheckedNewInodeRq where
  parent : Option ParentStorageIno
  name : ByteString
  typ : Int
  perm : Option StorageFilePermission
  gid : Nat
  uid : Nat
  rdev : Nat
  inlineData : Bytes

/-- The responses of `directory_add_child_checked_new_inode` and `snapshot_create`. -/
structure GotOrMadeRs where
  error : Option HashFsError
  existedAlready : Bool
  item : Option StorageDirItem

structure DirectoryAddChildCheckedExistingInodeRq where
  parent : Option ParentStorageIno
  name : ByteString
  ino : Option StorageIno

structure ErrorRs where
  error : Option HashFsError

structure ChildRq where
  parent : Option ParentStorageIno
  name : ByteString

structure DirectoryRenameChildRq where
  parent : Option ParentStorageIno
  childName : ByteString
  newParent : Option ParentStorageIno
  newChildName : ByteString

structure DirectoryAddNewSymlinkRq where
  parent : Option ParentStorageIno
  name : ByteString
  link : ByteString
  gid : Nat
  uid : Nat

structure InoRq where
  ino : Option StorageIno

structure InodeSetAllAttributesRq (Timestamp : Type) where
  ino : Option StorageIno
  mode : Option StorageFilePermission
  uid : Option Nat
  gid : Option Nat
  size : Option Nat
  atime : Option (TimeOrNow Timestamp)
  mtime : Option (TimeOrNow Timestamp)
  ctime : Option Timestamp
  crtime : Option Timestamp
  chgtime : Option Timestamp
  bkuptime : Option Timestamp
  flags : Option Nat

structure InodeCloseRq where
  ino : Option StorageIno
  useId : Option Uuid

structure InodeAllocateSizeRq where
  ino : Option StorageIno
  offset : Int
  length : Int

/-- The responses of `inode_read_inline_data` and `file_read_block_hashes`. -/
structure DataRs where
  error : Option HashFsError
  data : Bytes

structure InodeReadBlockHashesDataRangeRq where
  ino : Option StorageIno
  start : Nat
  readSize : Nat

structure InodeReadBlockHashesBlockRangeRq where
  ino : Option StorageIno
  ranges : List BlockRange

/-- The responses of both ways to read block hashes. -/
structure BlockHashesRs where
  error : Option HashFsError
  blockHashes : HashMap Nat Hash

structure HbGetBlockDataByHashesRq where
  hashes : List Hash

structure HbGetBlockDataByHashesRs where
  error : Option HashFsError
  blockData : List HashBlockData

structure FileReadBlockHashesRq where
  ino : Option StorageIno
  blockRange : Option BlockRange

structure HbIncrementReferenceCountRq where
  increments : List HashBlockIncrements

structure HbIncrementReferenceCountRs where
  error : Option HashFsError
  previousCounts : List HashBlockCount

structure HbUploadNewBlockRq where
  blocks : List HashBlockData

structure InodeWriteHashBlockToAddressesUpdateInoSizeAndCleaningPreviousBlockHashesRq where
  ino : Option StorageIno
  blocks : List HashBlockAddresses

structure SnapshotCreateRq where
  name : ByteString

/-- The generated trait of the service: one method for each request. -/
structure HashFs (S Timestamp : Type) where
  init (rq : InitRq) : StateM S (Except GrpcStatus (ValueRs StorageDirItem))
  metaStaticRead : StateM S (Except GrpcStatus (ValueRs MetaStatic))
  directoryReadChildren (rq : DirectoryReadChildrenRq) :
    StateM S (Except GrpcStatus DirectoryReadChildrenRs)
  directoryAddChildCheckedNewInode (rq : DirectoryAddChildCheckedNewInodeRq) :
    StateM S (Except GrpcStatus GotOrMadeRs)
  directoryAddChildCheckedExistingInode (rq : DirectoryAddChildCheckedExistingInodeRq) :
    StateM S (Except GrpcStatus ErrorRs)
  directoryRemoveChildFile (rq : ChildRq) : StateM S (Except GrpcStatus ErrorRs)
  directoryRemoveChildDirectory (rq : ChildRq) : StateM S (Except GrpcStatus ErrorRs)
  directoryRenameChild (rq : DirectoryRenameChildRq) : StateM S (Except GrpcStatus ErrorRs)
  directoryChildGetAllAttributes (rq : ChildRq) :
    StateM S (Except GrpcStatus (ValueRs (InoAllAttributes Timestamp)))
  directoryAddNewSymlink (rq : DirectoryAddNewSymlinkRq) :
    StateM S (Except GrpcStatus (ValueRs StorageDirItem))
  inodeGetAllAttributes (rq : InoRq) :
    StateM S (Except GrpcStatus (ValueRs (InoAllAttributes Timestamp)))
  inodeSetAllAttributes (rq : InodeSetAllAttributesRq Timestamp) :
    StateM S (Except GrpcStatus ErrorRs)
  inodeOpen (rq : InoRq) : StateM S (Except GrpcStatus (ValueRs Uuid))
  inodeClose (rq : InodeCloseRq) : StateM S (Except GrpcStatus ErrorRs)
  inodeAllocateSize (rq : InodeAllocateSizeRq) : StateM S (Except GrpcStatus ErrorRs)
  inodeReadInlineData (rq : InoRq) : StateM S (Except GrpcStatus DataRs)
  inodeReadBlockHashesDataRange (rq : InodeReadBlockHashesDataRangeRq) :
    StateM S (Except GrpcStatus BlockHashesRs)
  inodeReadBlockHashesBlockRange (rq : InodeReadBlockHashesBlockRangeRq) :
    StateM S (Except GrpcStatus BlockHashesRs)
  hbGetBlockDataByHashes (rq : HbGetBlockDataByHashesRq) :
    StateM S (Except GrpcStatus HbGetBlockDataByHashesRs)
  fileGetHash (rq : InoRq) : StateM S (Except GrpcStatus (ValueRs Hash))
  fileReadBlockHashes (rq : FileReadBlockHashesRq) : StateM S (Except GrpcStatus DataRs)
  hbIncrementReferenceCount (rq : HbIncrementReferenceCountRq) :
    StateM S (Except GrpcStatus HbIncrementReferenceCountRs)
  hbUploadNewBlock (rq : HbUploadNewBlockRq) : StateM S (Except GrpcStatus ErrorRs)
  inodeWriteHashBlockToAddressesUpdateInoSizeAndCleaningPreviousBlockHashes
    (rq : InodeWriteHashBlockToAddressesUpdateInoSizeAndCleaningPreviousBlockHashesRq) :
    StateM S (Except GrpcStatus ErrorRs)
  snapshotCreate (rq : SnapshotCreateRq) : StateM S (Except GrpcStatus GotOrMadeRs)

section Server

/-- `let Some(argument) = .. else return Err(Status::invalid_argument(..))`. -/
def required {A : Type} (message : String) : Option A → Except GrpcStatus A
  | some argument => .ok argument
  | none => .error (invalidArgument message)

def valueRs {V Value : Type} (encode : V → Value) : HashFsResult V → ValueRs Value
  | .error err => ⟨some (HashFsError.of err), none⟩
  | .ok val => ⟨none, some (encode val)⟩

def errorRs : HashFsResult Unit → ErrorRs
  | .error err => ⟨some (HashFsError.of err)⟩
  | .ok () => ⟨none⟩

def gotOrMadeRs : HashFsResult (GotOrMade TiFs.StorageDirItem) → GotOrMadeRs
  | .error err => ⟨some (HashFsError.of err), false, none⟩
  | .ok (.existedAlready item) => ⟨none, true, some (StorageDirItem.of item)⟩
  | .ok (.newlyCreated item) => ⟨none, false, some (StorageDirItem.of item)⟩

def dataRs : HashFsResult Bytes → DataRs
  | .error err => ⟨some (HashFsError.of err), []⟩
  | .ok data => ⟨none, data⟩

def directoryReadChildrenRs : HashFsResult (List TiFs.DirectoryItem) → DirectoryReadChildrenRs
  | .error err => ⟨some (HashFsError.of err), []⟩
  | .ok val => ⟨none, val.map fun i =>
      ⟨some (StorageIno.of i.ino), i.name, StorageDirItemKind.number i.typ⟩⟩

variable (wire : Wire)

def allAttributes : AllAttributes → InoAllAttributes wire.Timestamp
  | (desc, attr, size, atime) =>
      ⟨some (InoDescription.of wire desc), some (InoStorageFileAttr.of wire attr),
        some (InoSize.of wire size), some (InoAccessTime.of wire atime)⟩

def blockHashesRs : HashFsResult (HashMap TiFs.BlockIndex TiFsHash) → BlockHashesRs
  | .error err => ⟨some (HashFsError.of err), ∅⟩
  | .ok data => ⟨none, collectMap ((wire.iter data).map fun entry => (entry.1, ⟨entry.2⟩))⟩

def hbGetBlockDataByHashesRs : HashFsResult (HashMap TiFsHash Bytes) → HbGetBlockDataByHashesRs
  | .error err => ⟨some (HashFsError.of err), []⟩
  | .ok data => ⟨none, (wire.iter data).map fun entry => ⟨some ⟨entry.1⟩, entry.2⟩⟩

def hbIncrementReferenceCountRs : HashFsResult (HashMap TiFsHash Nat) → HbIncrementReferenceCountRs
  | .error err => ⟨some (HashFsError.of err), []⟩
  | .ok data => ⟨none, (wire.iter data).map fun entry => ⟨some ⟨entry.1⟩, some (BigUint.of entry.2)⟩⟩

/-- `HashFsGrpcServer` around a backend. -/
def server {S : Type} (fsImpl : HashFsInterface S) : HashFs S wire.Timestamp where
  init rq := serve (.ok (rq.gid, rq.uid)) (fun args => fsImpl.init args.1 args.2)
    (valueRs StorageDirItem.of)
  metaStaticRead := serve (.ok ()) (fun _ => fsImpl.metaStaticRead) (valueRs MetaStatic.of)
  directoryReadChildren rq :=
    serve (required "dir_ino parameter is required!" rq.dirIno)
      (fun dirIno => fsImpl.directoryReadChildren dirIno.into) directoryReadChildrenRs
  directoryAddChildCheckedNewInode rq :=
    serve
      (do
        let parent ← required "parent parameter is required!" rq.parent
        let perm ← required "perm parameter is required!" rq.perm
        return (parent, perm))
      (fun args => fsImpl.directoryAddChildCheckedNewInode args.1.into rq.name
        (StorageDirItemKind.ofNumber rq.typ) args.2.into rq.gid rq.uid rq.rdev
        (if rq.inlineData.length > 0 then some rq.inlineData else none))
      gotOrMadeRs
  directoryAddChildCheckedExistingInode rq :=
    serve
      (do
        let parent ← required "parent is required!" rq.parent
        let ino ← required "ino is required!" rq.ino
        return (parent, ino))
      (fun args => fsImpl.directoryAddChildCheckedExistingInode args.1.into rq.name args.2.into)
      errorRs
  directoryRemoveChildFile rq :=
    serve (required "parent is required!" rq.parent)
      (fun parent => fsImpl.directoryRemoveChildFile parent.into rq.name) errorRs
  directoryRemoveChildDirectory rq :=
    serve (required "parent is required!" rq.parent)
      (fun parent => fsImpl.directoryRemoveChildDirectory parent.into rq.name) errorRs
  directoryRenameChild rq :=
    serve
      (do
        let parent ← required "parent is required!" rq.parent
        let newParent ← required "new_parent is required!" rq.newParent
        return (parent, newParent))
      (fun args => fsImpl.directoryRenameChild args.1.into rq.childName args.2.into rq.newChildName)
      errorRs
  directoryChildGetAllAttributes rq :=
    serve (required "parent is required!" rq.parent)
      (fun parent => fsImpl.directoryChildGetAllAttributes parent.into rq.name)
      (valueRs (allAttributes wire))
  directoryAddNewSymlink rq :=
    serve (required "parent is required!" rq.parent)
      (fun parent => fsImpl.directoryAddNewSymlink rq.gid rq.uid parent.into rq.name rq.link)
      (valueRs StorageDirItem.of)
  inodeGetAllAttributes rq :=
    serve (required "ino parameter is required!" rq.ino)
      (fun ino => fsImpl.inodeGetAllAttributes ino.into) (valueRs (allAttributes wire))
  inodeSetAllAttributes rq :=
    serve (required "ino parameter is required!" rq.ino)
      (fun ino => fsImpl.inodeSetAllAttributes ino.into
        { mode := rq.mode.map StorageFilePermission.into
          uid := rq.uid
          gid := rq.gid
          size := rq.size
          atime := rq.atime.map (TimeOrNow.into wire)
          mtime := rq.mtime.map (TimeOrNow.into wire)
          ctime := rq.ctime.map wire.grpcTimeToSystemTime
          crtime := rq.crtime.map wire.grpcTimeToSystemTime
          chgtime := rq.chgtime.map wire.grpcTimeToSystemTime
          bkuptime := rq.bkuptime.map wire.grpcTimeToSystemTime
          flags := rq.flags })
      errorRs
  inodeOpen rq :=
    serve (required "ino parameter is required!" rq.ino) (fun ino => fsImpl.inodeOpen ino.into)
      (valueRs Uuid.of)
  inodeClose rq :=
    serve
      (do
        let ino ← required "ino parameter is required!" rq.ino
        let useId ← required "use_id parameter is required!" rq.useId
        return (ino, useId))
      (fun args => fsImpl.inodeClose args.1.into (args.2.into wire)) errorRs
  inodeAllocateSize rq :=
    serve (required "ino parameter is required!" rq.ino)
      (fun ino => fsImpl.inodeAllocateSize ino.into rq.offset rq.length) errorRs
  inodeReadInlineData rq :=
    serve (required "ino parameter is required!" rq.ino)
      (fun ino => fsImpl.inodeReadInlineData ino.into) dataRs
  inodeReadBlockHashesDataRange rq :=
    serve (required "ino parameter is required!" rq.ino)
      (fun ino => fsImpl.inodeReadBlockHashesDataRange ino.into rq.start rq.readSize)
      (blockHashesRs wire)
  inodeReadBlockHashesBlockRange rq :=
    serve
      (do
        let ino ← required "ino parameter is required!" rq.ino
        if rq.ranges.length = 0 then
          throw (invalidArgument "block_ranges parameter is required!")
        return ino)
      (fun ino => fsImpl.inodeReadBlockHashesBlockRange ino.into (rq.ranges.map BlockRange.into))
      (blockHashesRs wire)
  hbGetBlockDataByHashes rq :=
    serve (.ok ()) (fun _ => fsImpl.hbGetBlockDataByHashes (rq.hashes.map Hash.data).toFinset)
      (hbGetBlockDataByHashesRs wire)
  fileGetHash rq :=
    serve (required "ino parameter is required!" rq.ino) (fun ino => fsImpl.fileGetHash ino.into)
      (valueRs Hash.mk)
  fileReadBlockHashes rq :=
    serve
      (do
        let ino ← required "ino parameter is required!" rq.ino
        let blockRange ← required "block_range parameter is required!" rq.blockRange
        return (ino, blockRange))
      (fun args => fsImpl.fileReadBlockHashes args.1.into args.2.into) dataRs
  hbIncrementReferenceCount rq :=
    serve
      (if rq.increments.length = 0 then
        .error (invalidArgument "increments parameter is required!")
      else
        .ok (rq.increments.filterMap fun e => e.hash.map fun hash => (hash.data, e.inc)))
      fsImpl.hbIncrementReferenceCount (hbIncrementReferenceCountRs wire)
  hbUploadNewBlock rq :=
    serve
      (if rq.blocks.length = 0 then
        .error (invalidArgument "blocks parameter is required!")
      else
        .ok (rq.blocks.filterMap fun d => d.hash.map fun hash => (hash.data, d.data)))
      fsImpl.hbUploadNewBlock errorRs
  inodeWriteHashBlockToAddressesUpdateInoSizeAndCleaningPreviousBlockHashes rq :=
    serve
      (do
        let ino ← required "ino parameter is required!" rq.ino
        if rq.blocks.length = 0 then
          throw (invalidArgument "blocks parameter is required!")
        return (ino, rq.blocks.filterMap fun d => d.hash.map fun hash =>
          (hash.data, d.blockActualLength, d.blockIds.map BlockIndex.into)))
      (fun args =>
        fsImpl.inodeWriteHashBlockToAddressesUpdateInoSizeAndCleaningPreviousBlockHashes
          args.1.into args.2)
      errorRs
  snapshotCreate rq := serve (.ok rq.name) fsImpl.snapshotCreate gotOrMadeRs

end Server

section Client

def handleError : Option HashFsError → HashFsResult Unit
  | some err => .error err.into
  | none => .ok ()

/-- An absent message of a response without an error. -/
def present {A : Type} : Option A → HashFsResult A
  | some value => .ok value
  | none => .error .grpcMessageIncomplete

def receiveValue {V Value : Type} (decode : Value → V) (rs : ValueRs Value) : HashFsResult V := do
  handleError rs.error
  let value ← present rs.value
  return decode value

def receiveUnit (rs : ErrorRs) : HashFsResult Unit := handleError rs.error

def receiveGotOrMade (rs : GotOrMadeRs) : HashFsResult (GotOrMade TiFs.StorageDirItem) := do
  handleError rs.error
  let item ← present rs.item
  if rs.existedAlready then
    return .existedAlready item.into
  else
    return .newlyCreated item.into

def receiveData (rs : DataRs) : HashFsResult Bytes := do
  handleError rs.error
  return rs.data

/-- The client's own reading of the children, which leaves the error alone. -/
def receiveChildren (rs : DirectoryReadChildrenRs) : HashFsResult (List TiFs.DirectoryItem) :=
  .ok (rs.value.filterMap fun item => item.ino.map fun ino =>
    ⟨ino.into, item.name, StorageDirItemKind.ofNumber item.typ⟩)

variable (wire : Wire)

def parseAllAttrs (all : InoAllAttributes wire.Timestamp) : HashFsResult AllAttributes := do
  let desc ← present all.desc
  let attr ← present all.attrs
  let size ← present all.size
  let atime ← present all.atime
  return (desc.into, attr.into, size.into, atime.into)

def receiveAllAttributes (rs : ValueRs (InoAllAttributes wire.Timestamp)) :
    HashFsResult AllAttributes := do
  handleError rs.error
  let all ← present rs.value
  parseAllAttrs wire all

def receiveBlockHashes (rs : BlockHashesRs) : HashFsResult (HashMap TiFs.BlockIndex TiFsHash) := do
  handleError rs.error
  return collectMap ((wire.iter rs.blockHashes).map fun entry => (entry.1, entry.2.data))

def receiveBlockData (rs : HbGetBlockDataByHashesRs) : HashFsResult (HashMap TiFsHash Bytes) := do
  handleError rs.error
  return collectMap (rs.blockData.filterMap fun d => d.hash.map fun hash => (hash.data, d.data))

def receivePreviousCounts (rs : HbIncrementReferenceCountRs) :
    HashFsResult (HashMap TiFsHash Nat) := do
  handleError rs.error
  return collectMap (rs.previousCounts.filterMap fun entry => do
    let hash ← entry.hash
    let count ← entry.count
    return (hash.data, count.into))

def call {S Response V : Type} (response : StateM S (Except GrpcStatus Response))
    (receive : Response → HashFsResult V) : StateM S (HashFsResult V) :=
  request (fun status => .error (.rawGrpcStatus (some status))) response receive

/-- `HashFsClient` connected to a service. -/
def client {S : Type} (grpc : HashFs S wire.Timestamp) : HashFsInterface S where
  init gid uid := call (grpc.init ⟨gid, uid⟩) (receiveValue StorageDirItem.into)
  metaStaticRead := call grpc.metaStaticRead (receiveValue MetaStatic.into)
  directoryReadChildren dirIno :=
    call (grpc.directoryReadChildren ⟨some (StorageIno.of dirIno)⟩) receiveChildren
  directoryAddChildCheckedNewInode parent name typ perm gid uid rdev inlineData :=
    call
      (grpc.directoryAddChildCheckedNewInode
        { parent := some (ParentStorageIno.of parent)
          name := name
          typ := StorageDirItemKind.number typ
          perm := some (StorageFilePermission.of perm)
          gid := gid
          uid := uid
          rdev := rdev
          inlineData := inlineData.getD [] })
      receiveGotOrMade
  directoryAddChildCheckedExistingInode parent name ino :=
    call
      (grpc.directoryAddChildCheckedExistingInode
        ⟨some (ParentStorageIno.of parent), name, some (StorageIno.of ino)⟩)
      receiveUnit
  directoryRemoveChildFile parent name :=
    call (grpc.directoryRemoveChildFile ⟨some (ParentStorageIno.of parent), name⟩) receiveUnit
  directoryRemoveChildDirectory parent name :=
    call (grpc.directoryRemoveChildDirectory ⟨some (ParentStorageIno.of parent), name⟩) receiveUnit
  directoryRenameChild parent childName newParent newChildName :=
    call
      (grpc.directoryRenameChild ⟨some (ParentStorageIno.of parent), childName,
        some (ParentStorageIno.of newParent), newChildName⟩)
      receiveUnit
  directoryChildGetAllAttributes parent name :=
    call (grpc.directoryChildGetAllAttributes ⟨some (ParentStorageIno.of parent), name⟩)
      (receiveAllAttributes wire)
  directoryAddNewSymlink gid uid parent name link :=
    call
      (grpc.directoryAddNewSymlink ⟨some (ParentStorageIno.of parent), name, link, gid, uid⟩)
      (receiveValue StorageDirItem.into)
  inodeGetAllAttributes ino :=
    call (grpc.inodeGetAllAttributes ⟨some (StorageIno.of ino)⟩) (receiveAllAttributes wire)
  inodeSetAllAttributes ino attributes :=
    call
      (grpc.inodeSetAllAttributes
        { ino := some (StorageIno.of ino)
          mode := attributes.mode.map StorageFilePermission.of
          uid := attributes.uid
          gid := attributes.gid
          size := attributes.size
          atime := attributes.atime.map (TimeOrNow.of wire)
          mtime := attributes.mtime.map (TimeOrNow.of wire)
          ctime := attributes.ctime.map wire.ofSystemTime
          crtime := attributes.crtime.map wire.ofSystemTime
          chgtime := attributes.chgtime.map wire.ofSystemTime
          bkuptime := attributes.bkuptime.map wire.ofSystemTime
          flags := attributes.flags })
      receiveUnit
  inodeOpen ino :=
    call (grpc.inodeOpen ⟨some (StorageIno.of ino)⟩) (receiveValue (Uuid.into wire))
  inodeClose ino useId :=
    call (grpc.inodeClose ⟨some (StorageIno.of ino), some (Uuid.of useId)⟩) receiveUnit
  inodeAllocateSize ino offset length :=
    call (grpc.inodeAllocateSize ⟨some (StorageIno.of ino), offset, length⟩) receiveUnit
  inodeReadInlineData ino :=
    call (grpc.inodeReadInlineData ⟨some (StorageIno.of ino)⟩) receiveData
  inodeReadBlockHashesDataRange ino start readSize :=
    call (grpc.inodeReadBlockHashesDataRange ⟨some (StorageIno.of ino), start, readSize⟩)
      (receiveBlockHashes wire)
  inodeReadBlockHashesBlockRange ino blockRanges :=
    call
      (grpc.inodeReadBlockHashesBlockRange
        ⟨some (StorageIno.of ino), blockRanges.map BlockRange.of⟩)
      (receiveBlockHashes wire)
  hbGetBlockDataByHashes hashes :=
    call (grpc.hbGetBlockDataByHashes ⟨(wire.iterSet hashes).map Hash.mk⟩) receiveBlockData
  fileGetHash ino :=
    call (grpc.fileGetHash ⟨some (StorageIno.of ino)⟩) (receiveValue Hash.data)
  fileReadBlockHashes ino blockRange :=
    call (grpc.fileReadBlockHashes ⟨some (StorageIno.of ino), some (BlockRange.of blockRange)⟩)
      receiveData
  hbIncrementReferenceCount blocks :=
    if blocks.length = 0 then
      pure (.ok ∅)
    else
      call
        (grpc.hbIncrementReferenceCount
          ⟨blocks.map fun block => ⟨some ⟨block.1⟩, block.2⟩⟩)
        receivePreviousCounts
  hbUploadNewBlock blocks :=
    if blocks.length = 0 then
      pure (.ok ())
    else
      call (grpc.hbUploadNewBlock ⟨blocks.map fun block => ⟨some ⟨block.1⟩, block.2⟩⟩) receiveUnit
  inodeWriteHashBlockToAddressesUpdateInoSizeAndCleaningPreviousBlockHashes ino blocks :=
    if blocks.length = 0 then
      pure (.ok ())
    else
      call
        (grpc.inodeWriteHashBlockToAddressesUpdateInoSizeAndCleaningPreviousBlockHashes
          ⟨some (StorageIno.of ino), blocks.map fun block =>
            ⟨some ⟨block.1⟩, block.2.1, block.2.2.map BlockIndex.of⟩⟩)
        receiveUnit
  snapshotCreate name := call (grpc.snapshotCreate ⟨name⟩) receiveGotOrMade

end Client

end TiFs.Grpc
