import TiFs.AtomicCalls
import TiFs.Library.WritesOnly

namespace TiFs

open KeyValue Tables

def Key.isMeta : Key → Bool
  | .metaStatic => true
  | .metaMutable => true
  | _ => false

def Key.isOther : Key → Bool
  | .directoryChild _ _ => false
  | .inodeX _ _ => false
  | key => !key.isMeta

namespace MiniCall

def reserves : MiniCall → Bool
  | .metaMutableReserveNewInos _ => true
  | _ => false

/-- The names of which a call can write the entry. -/
def gives : MiniCall → List (ParentStorageIno × ByteString)
  | .directoryAddChildCheckedNewInode args _ _ => [(args.parent, args.name)]
  | .directoryAddChildCheckedExistingInode parent name _ => [(parent, name)]
  | .directoryRenameChild _ _ newParent newName => [(newParent, newName)]
  | .inodeOpen _ useId => [(openedInodeParentInode, uuidToString useId)]
  | _ => []

/-- The names of which a call that succeeds has deleted the entry. -/
def takes : MiniCall → List (ParentStorageIno × ByteString)
  | .directoryRemoveChild parent name _ => [(parent, name)]
  | .directoryRemoveChildEmptyDirectory parent name => [(parent, name)]
  | .directoryRenameChild parent name _ _ => [(parent, name)]
  | .inodeClose _ useId => [(openedInodeParentInode, uuidToString useId)]
  | _ => []

/-- The records of inodes that a call can write or delete. -/
def records : MiniCall → List (StorageIno × InoMetadata)
  | .directoryAddChildCheckedNewInode _ newIno _ =>
      [(newIno, .description), (newIno, .unixAttributes), (newIno, .size), (newIno, .inlineData)]
  | .inodeCheckForDeleteAndDeleteAtomicallyDescription ino => [(ino, .description)]
  | .deleteMetadata ino kind => [(ino, kind)]
  | .putAccessTime ino _ => [(ino, .accessTime)]
  | .putModificationTime ino _ => [(ino, .modificationTime)]
  | .putUnixAttributes ino _ => [(ino, .unixAttributes)]
  | .inodeAllocateSize _ ino _ _ => [(ino, .size)]
  | .checkedWriteOfFileHash ino _ _ => [(ino, .fullHash)]
  | .deleteFullHash ino => [(ino, .fullHash)]
  | .putChangeIterationId ino _ => [(ino, .changeIterationId)]
  | .hbReplaceBlockHashForAddressOnlySizeUpdate _ addr _ => [(addr.ino, .size)]
  | .hbReplaceBlockHashForAddressOnlySizeUpdateB _ ino _ => [(ino, .size)]
  | _ => []

end MiniCall

def NamesOnly (gives takes : List (ParentStorageIno × ByteString)) (write : Write) : Prop :=
  ∀ parent name, write.key = .directoryChild parent name →
    (parent, name) ∈ if write.value.isSome then gives else takes

def RecordsOnly (records : List (StorageIno × InoMetadata)) (write : Write) : Prop :=
  ∀ ino kind, write.key = .inodeX ino kind → (ino, kind) ∈ records

def entryWrites (gives takes : List (ParentStorageIno × ByteString))
    (records : List (StorageIno × InoMetadata)) : Set Write :=
  {write | write.key.isMeta = false ∧ NamesOnly gives takes write ∧ RecordsOnly records write}

section Bodies

variable (cfg : TiFsConfig) {gives takes : List (ParentStorageIno × ByteString)}
  {records : List (StorageIno × InoMetadata)}

theorem mem_entryWrites {write : Write} {key : Key} (isKey : write.key = key) (isOther : key.isOther = true) :
    write ∈ entryWrites gives takes records := by
  subst isKey
  refine ⟨?_, ?_, ?_⟩
  · cases isKey : write.key with
    | metaStatic => rw [isKey] at isOther; cases isOther
    | metaMutable => rw [isKey] at isOther; cases isOther
    | _ => rfl
  · intro parent name isEntry
    rw [isEntry] at isOther
    cases isOther
  · intro ino kind isRecord
    rw [isRecord] at isOther
    cases isOther

theorem record_mem_entryWrites {ino : StorageIno} {kind : InoMetadata} (value : Option kind.Value)
    (listed : (ino, kind) ∈ records) : ⟨.inodeX ino kind, value⟩ ∈ entryWrites gives takes records := by
  refine ⟨rfl, nofun, ?_⟩
  rintro _ _ ⟨⟩
  exact listed

theorem put_mem_entryWrites {parent : ParentStorageIno} {name : ByteString} (item : StorageDirItem)
    (given : (parent, name) ∈ gives) :
    Mutation.put (.directoryChild parent name) item ∈ entryWrites gives takes records := by
  refine ⟨rfl, ?_, nofun⟩
  rintro _ _ ⟨⟩
  exact given

theorem delete_mem_entryWrites {parent : ParentStorageIno} {name : ByteString}
    (taken : (parent, name) ∈ takes) :
    Mutation.delete (.directoryChild parent name) ∈ entryWrites gives takes records := by
  refine ⟨rfl, ?_, nofun⟩
  rintro _ _ ⟨⟩
  exact taken

theorem writesOnly_put {allowed : Set Write} {key : Key} {value : key.Value}
    (within : Mutation.put key value ∈ allowed) : WritesOnly allowed (put key value) := by
  apply writesOnly_batchMutate
  intro write listed
  rw [List.mem_singleton.mp listed]
  exact within

theorem writesOnly_delete {allowed : Set Write} {key : Key} (within : Mutation.delete key ∈ allowed) :
    WritesOnly allowed (delete key) := by
  apply writesOnly_batchMutate
  intro write listed
  rw [List.mem_singleton.mp listed]
  exact within

theorem writesOnly_fetch {allowed : Set Write} (key : Key) : WritesOnly allowed (fetch key) := by
  refine (writesOnly_readKey key).bind fun found => ?_
  cases found with
  | none => exact writesOnly_throw _
  | some value => exact writesOnly_pure value

theorem writesOnly_scan {allowed : Set Write} (dirIno : StorageIno) (limit : Nat) :
    WritesOnly allowed (directoryScanForChildren dirIno limit) := by
  intro txn result after ran
  obtain ⟨_, rfl⟩ := Prod.mk.inj (Except.ok.inj ran)
  exact ⟨[], by simp [Txn.mutate], nofun⟩

theorem entryWrites_addNew (args : NewInode) (newIno : StorageIno) (now : SystemTime)
    (given : (args.parent, args.name) ∈ gives)
    (listed : ∀ kind ∈ [InoMetadata.description, .unixAttributes, .size, .inlineData], (newIno, kind) ∈ records) :
    WritesOnly (entryWrites gives takes records) (directoryAddChildCheckedNewInode args newIno now) := by
  refine (writesOnly_readKey _).bind fun found => ?_
  cases found with
  | some existing => exact writesOnly_pure _
  | none =>
      apply (writesOnly_put (record_mem_entryWrites _ (listed .description (by simp)))).bind
      intro _
      apply (writesOnly_put (record_mem_entryWrites _ (listed .unixAttributes (by simp)))).bind
      intro _
      apply (writesOnly_put (record_mem_entryWrites _ (listed .size (by simp)))).bind
      intro _
      apply (writesOnly_put (put_mem_entryWrites _ given)).bind
      intro _
      apply (writesOnly_put (mem_entryWrites rfl rfl)).bind
      intro _
      cases args.inlineData with
      | none => exact (writesOnly_pure ()).bind fun _ => writesOnly_pure _
      | some data =>
          exact (writesOnly_put (record_mem_entryWrites _ (listed .inlineData (by simp)))).bind
            fun _ => writesOnly_pure _

theorem entryWrites_addLink {parent : ParentStorageIno} {name : ByteString} (item : StorageDirItem)
    (given : (parent, name) ∈ gives) :
    WritesOnly (entryWrites gives takes records) (directoryAddChildLinkUnchecked parent name item) := by
  apply (writesOnly_put (mem_entryWrites rfl rfl)).bind
  intro _
  exact writesOnly_put (put_mem_entryWrites _ given)

theorem entryWrites_addExisting {parent : ParentStorageIno} {name : ByteString} (ino : StorageIno)
    (given : (parent, name) ∈ gives) :
    WritesOnly (entryWrites gives takes records) (directoryAddChildCheckedExistingInode parent name ino) := by
  refine (writesOnly_readKey _).bind fun found => ?_
  cases found with
  | some existing => exact writesOnly_pure _
  | none =>
      apply (writesOnly_fetch _).bind
      intro inoDesc
      exact (entryWrites_addLink _ given).bind fun _ => writesOnly_pure _

theorem entryWrites_removeLinks {parent : ParentStorageIno} {name : ByteString} (childIno : StorageIno)
    (taken : (parent, name) ∈ takes) :
    WritesOnly (entryWrites gives takes records) (directoryRemoveChildLinksUnchecked parent name childIno) := by
  apply writesOnly_batchMutate
  intro write listed
  simp only [List.mem_cons, List.not_mem_nil, or_false] at listed
  rcases listed with rfl | rfl
  · exact delete_mem_entryWrites taken
  · exact mem_entryWrites rfl rfl

theorem entryWrites_removeChild {parent : ParentStorageIno} {name : ByteString}
    (allowedTypes : List StorageDirItemKind) (taken : (parent, name) ∈ takes) :
    WritesOnly (entryWrites gives takes records) (directoryRemoveChild parent name allowedTypes) := by
  refine (writesOnly_readKey _).bind fun found => ?_
  cases found with
  | none => exact writesOnly_throw _
  | some childItem =>
      by_cases refused : childItem.typ ∉ allowedTypes
      · simp only [refused, not_false_eq_true, if_true]
        apply (writesOnly_throw _).bind
        exact fun _ => (entryWrites_removeLinks _ taken).bind fun _ => writesOnly_pure _
      · simp only [refused, if_false]
        exact (entryWrites_removeLinks _ taken).bind fun _ => writesOnly_pure _

theorem entryWrites_removeEmpty {parent : ParentStorageIno} {name : ByteString}
    (taken : (parent, name) ∈ takes) :
    WritesOnly (entryWrites gives takes records) (directoryRemoveChildEmptyDirectory parent name) := by
  intro txn result after ran
  obtain ⟨_, _, _, rfl⟩ := removeEmpty_ok ran
  exact entryWrites_removeLinks result.ino taken txn () _ rfl

theorem entryWrites_rename {parent newParent : ParentStorageIno} {name newName : ByteString}
    (given : (newParent, newName) ∈ gives) (taken : (parent, name) ∈ takes) :
    WritesOnly (entryWrites gives takes records) (directoryRenameChild parent name newParent newName) := by
  apply (writesOnly_readKey _).bind
  intro found
  cases found with
  | none => exact writesOnly_throw _
  | some dirItem =>
      apply (entryWrites_addExisting _ given).bind
      intro _
      exact (entryWrites_removeChild _ taken).bind fun _ => writesOnly_pure _

theorem entryWrites_checkForDelete {ino : StorageIno} (listed : (ino, .description) ∈ records) :
    WritesOnly (entryWrites gives takes records) (inodeCheckForDeleteAndDeleteAtomicallyDescription ino) := by
  apply writesOnly_get.bind
  intro txn
  by_cases unused : min (parentLinks txn.view ino).card maxTikvScanLimit = 0
  · simp only [unused, if_true]
    exact (writesOnly_delete (record_mem_entryWrites none listed)).bind fun _ => writesOnly_pure _
  · simp only [unused, if_false]
    exact writesOnly_pure _

theorem entryWrites_open (ino : StorageIno) {useId : Uuid}
    (given : (openedInodeParentInode, uuidToString useId) ∈ gives) :
    WritesOnly (entryWrites gives takes records) (inodeOpen ino useId) := by
  apply (writesOnly_fetch _).bind
  intro inoDesc
  apply (entryWrites_addExisting _ given).bind
  intro result
  cases result with
  | existedAlready item => exact writesOnly_throw _
  | newlyCreated item => exact writesOnly_pure _

theorem entryWrites_close (ino : StorageIno) {useId : Uuid}
    (taken : (openedInodeParentInode, uuidToString useId) ∈ takes) :
    WritesOnly (entryWrites gives takes records) (inodeClose ino useId) := by
  apply (entryWrites_removeChild _ taken).bind
  intro result
  by_cases wrong : result.ino ≠ ino
  · simp only [wrong, ne_eq, not_false_eq_true, if_true]
    exact writesOnly_throw _
  · simp only [wrong, if_false]
    exact writesOnly_pure _

theorem entryWrites_readInlineData (ino : StorageIno) :
    WritesOnly (entryWrites gives takes records) (inodeReadInlineData ino) :=
  (writesOnly_fetch _).bind fun _ => writesOnly_pure _

theorem entryWrites_allocate (now : SystemTime) {ino : StorageIno} (offset length : Int)
    (listed : (ino, .size) ∈ records) :
    WritesOnly (entryWrites gives takes records) (inodeAllocateSize cfg now ino offset length) := by
  apply (writesOnly_fetch _).bind
  intro size
  by_cases enough : ((offset + length) % 2 ^ 64).toNat ≤ size.size
  · simp only [enough, if_true]
    exact writesOnly_pure _
  · simp only [enough, if_false]
    exact writesOnly_put (record_mem_entryWrites _ listed)

theorem entryWrites_checkedWrite {ino : StorageIno} (changeIteration : Uuid) (newFullHash : TiFsHash)
    (listed : (ino, .fullHash) ∈ records) :
    WritesOnly (entryWrites gives takes records) (checkedWriteOfFileHash ino changeIteration newFullHash) := by
  apply (writesOnly_fetch _).bind
  intro inoChangeId
  by_cases same : inoChangeId = changeIteration
  · simp only [same, if_true]
    exact (writesOnly_put (record_mem_entryWrites _ listed)).bind fun _ => writesOnly_pure _
  · simp only [same, if_false]
    exact writesOnly_pure _

theorem entryWrites_chunked (ino : StorageIno) (blockRange : BlockIndex × BlockIndex) :
    WritesOnly (entryWrites gives takes records) (hbGetBlockHashListByBlockRangeChunked cfg ino blockRange) := by
  intro txn result after ran
  rw [chunkedLoop_readOnly cfg ino _ _ _ _ _ _ _ ran]
  exact ⟨[], by simp [Txn.mutate], nofun⟩

theorem entryWrites_upload (blocks : List (TiFsHash × Bytes)) :
    WritesOnly (entryWrites gives takes records) (hbUploadNewBlock blocks) := by
  apply writesOnly_batchMutate
  intro write listed
  obtain ⟨block, _, rfl⟩ := List.mem_map.mp listed
  exact mem_entryWrites rfl rfl

theorem entryWrites_increment (blocks : List (TiFsHash × Nat)) :
    WritesOnly (entryWrites gives takes records) (hbIncrementBlocksReferenceCount cfg blocks) := by
  apply writesOnly_get.bind
  intro txn
  apply WritesOnly.bind
  · apply writesOnly_batchMutate
    intro write listed
    obtain ⟨block, _, rfl⟩ := List.mem_map.mp listed
    exact mem_entryWrites rfl rfl
  · exact fun _ => writesOnly_pure _

theorem entryWrites_replace (addresses : List (BlockAddress × Option TiFsHash)) :
    WritesOnly (entryWrites gives takes records) (hbReplaceBlockHashForAddressNoSizeUpdate cfg addresses) := by
  rw [hbReplaceBlockHashForAddressNoSizeUpdate]
  split
  · exact writesOnly_pure _
  · apply writesOnly_get.bind
    intro txn
    apply WritesOnly.bind
    · apply writesOnly_batchMutate
      intro write listed
      obtain ⟨address, _, rfl⟩ := List.mem_map.mp listed
      exact mem_entryWrites (addressWrite_key address) rfl
    · intro _
      split
      · exact writesOnly_throw _
      · exact writesOnly_pure _

theorem entryWrites_onlySizeUpdate (now : SystemTime) {addr : BlockAddress} (actual : Nat)
    (listed : (addr.ino, .size) ∈ records) :
    WritesOnly (entryWrites gives takes records) (hbReplaceBlockHashForAddressOnlySizeUpdate cfg now addr actual) := by
  apply (writesOnly_fetch _).bind
  intro size
  split
  · exact writesOnly_put (record_mem_entryWrites _ listed)
  · exact writesOnly_pure _

theorem entryWrites_onlySizeUpdateB (now : SystemTime) {ino : StorageIno} (target : Nat)
    (listed : (ino, .size) ∈ records) :
    WritesOnly (entryWrites gives takes records) (hbReplaceBlockHashForAddressOnlySizeUpdateB cfg now ino target) := by
  apply (writesOnly_fetch _).bind
  intro size
  split
  · exact writesOnly_put (record_mem_entryWrites _ listed)
  · exact writesOnly_pure _

theorem entryWrites_decrement (decrements : RefCounts) :
    WritesOnly (entryWrites gives takes records)
      (hbDecrementBlocksReferenceCountAndDeleteIfZeroReached cfg decrements) := by
  apply writesOnly_get.bind
  intro txn
  apply writesOnly_batchMutate
  intro write listed
  obtain ⟨entry, _, inWrites⟩ := List.mem_flatMap.mp listed
  rcases mem_decrementWrites_keys (List.mem_map_of_mem inWrites) with same | same
  · exact mem_entryWrites same rfl
  · exact mem_entryWrites same rfl

theorem MiniCall.writesOnly (call : MiniCall) (others : call.reserves = false) :
    WritesOnly (entryWrites call.gives call.takes call.records) (call.body cfg) := by
  cases call with
  | metaMutableReserveNewInos count => cases others
  | metaStaticRead => exact (writesOnly_readKey _).map _
  | directoryGetChild parent name => exact (writesOnly_readKey _).map _
  | directoryScanForChildren dirIno limit => exact (writesOnly_scan dirIno limit).map _
  | directoryAddChildCheckedNewInode args newIno now =>
      refine (entryWrites_addNew args newIno now (List.mem_singleton_self _) ?_).map _
      intro kind written
      exact List.mem_map_of_mem (f := Prod.mk newIno) written
  | directoryAddChildCheckedExistingInode parent name ino =>
      exact (entryWrites_addExisting ino (List.mem_singleton_self _)).map _
  | directoryRemoveChild parent name allowedTypes =>
      exact (entryWrites_removeChild allowedTypes (List.mem_singleton_self _)).map _
  | directoryRemoveChildEmptyDirectory parent name =>
      exact (entryWrites_removeEmpty (List.mem_singleton_self _)).map _
  | directoryRenameChild parent name newParent newName =>
      exact (entryWrites_rename (List.mem_singleton_self _) (List.mem_singleton_self _)).map _
  | inodeCheckForDeleteAndDeleteAtomicallyDescription ino =>
      exact (entryWrites_checkForDelete (List.mem_singleton_self _)).map _
  | inodeOpen ino useId => exact (entryWrites_open ino (List.mem_singleton_self _)).map _
  | inodeClose ino useId => exact (entryWrites_close ino (List.mem_singleton_self _)).map _
  | inodeReadInlineData ino => exact (entryWrites_readInlineData ino).map _
  | deleteMetadata ino kind =>
      exact (writesOnly_delete (record_mem_entryWrites none (List.mem_singleton_self _))).map _
  | putAccessTime ino time =>
      exact (writesOnly_put (record_mem_entryWrites _ (List.mem_singleton_self _))).map _
  | putModificationTime ino time =>
      exact (writesOnly_put (record_mem_entryWrites _ (List.mem_singleton_self _))).map _
  | putUnixAttributes ino attr =>
      exact (writesOnly_put (record_mem_entryWrites _ (List.mem_singleton_self _))).map _
  | inodeAllocateSize now ino offset length =>
      exact (entryWrites_allocate cfg now offset length (List.mem_singleton_self _)).map _
  | checkedWriteOfFileHash ino changeIteration newFullHash =>
      exact (entryWrites_checkedWrite changeIteration newFullHash (List.mem_singleton_self _)).map _
  | deleteFullHash ino =>
      exact (writesOnly_delete (record_mem_entryWrites none (List.mem_singleton_self _))).map _
  | putChangeIterationId ino id =>
      exact (writesOnly_put (record_mem_entryWrites _ (List.mem_singleton_self _))).map _
  | hbGetBlockHashListByBlockRangeChunked ino blockRange => exact (entryWrites_chunked cfg ino blockRange).map _
  | hbUploadNewBlock blocks => exact (entryWrites_upload blocks).map _
  | hbIncrementBlocksReferenceCount blocks => exact (entryWrites_increment cfg blocks).map _
  | hbReplaceBlockHashForAddressNoSizeUpdate addresses => exact (entryWrites_replace cfg addresses).map _
  | hbReplaceBlockHashForAddressOnlySizeUpdate now addr actual =>
      exact (entryWrites_onlySizeUpdate cfg now actual (List.mem_singleton_self _)).map _
  | hbReplaceBlockHashForAddressOnlySizeUpdateB now ino target =>
      exact (entryWrites_onlySizeUpdateB cfg now target (List.mem_singleton_self _)).map _
  | hbDecrementBlocksReferenceCountAndDeleteIfZeroReached decrements =>
      exact (entryWrites_decrement cfg decrements).map _

theorem metaOnly_put {key : Key} {value : key.Value} (isMeta : key.isMeta = true) :
    WritesOnly {write | write.key.isMeta = true} (put key value) :=
  writesOnly_put isMeta

theorem metaOnly_reserve (count : Nat) :
    WritesOnly {write | write.key.isMeta = true} (metaMutableReserveNewInos cfg count) := by
  refine (writesOnly_readKey _).bind fun found => ?_
  cases found with
  | none =>
      apply WritesOnly.bind
      · exact (metaOnly_put rfl).bind fun _ => metaOnly_put rfl
      · exact fun _ => writesOnly_pure _
  | some dynMeta => exact (metaOnly_put rfl).bind fun _ => writesOnly_pure _

/-- A call writes the entries of its names and its records of inodes only. -/
theorem MiniCall.namesRecordsOnly (call : MiniCall) :
    WritesOnly {write | NamesOnly call.gives call.takes write ∧ RecordsOnly call.records write}
      (call.body cfg) := by
  cases reserves : call.reserves with
  | false => exact (call.writesOnly cfg reserves).weaken fun write within => within.2
  | true =>
      cases call with
      | metaMutableReserveNewInos count =>
          apply ((metaOnly_reserve cfg count).map _).weaken
          intro write isMeta
          constructor
          · intro parent name isEntry
            rw [Set.mem_ofPred_eq, isEntry] at isMeta
            cases isMeta
          · intro ino kind isRecord
            rw [Set.mem_ofPred_eq, isRecord] at isMeta
            cases isMeta
      | _ => cases reserves

end Bodies

section Log

variable {first : Store} {log : List (Commit Key.Value ℕ ClientCall MiniReply)} {db : Db Key.Value} {n : ℕ}
  {commit : Commit Key.Value ℕ ClientCall MiniReply}

theorem within_of_logged (logged : Logged ClientCall.body first log db) (listed : log[n]? = some commit)
    {write : Write} (written : write ∈ commit.writes) :
    NamesOnly commit.op.call.gives commit.op.call.takes write ∧
      RecordsOnly commit.op.call.records write := by
  obtain ⟨_, txn, ran, wrote⟩ := logged.ran listed
  obtain ⟨writes, rfl, within⟩ := commit.op.call.namesRecordsOnly commit.op.cfg _ _ _ ran
  rw [← wrote] at written
  exact within write written

end Log

end TiFs
