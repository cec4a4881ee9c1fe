import TiFs.MiniTransactions

/-! The transactions of the storage implementation, one call of the loop for each. Those that
write what they read are one step each, at a moment between the call and its return, whatever
runs beside them. -/

namespace TiFs

open KeyValue Tables

/-- The bodies between `start` and `finish`, and the single reads and writes that a
`FlexibleTransaction` makes a transaction of. Those that copy a snapshot are not among them. -/
inductive MiniCall where
  | metaStaticRead
  | metaMutableReserveNewInos (count : Nat)
  | directoryGetChild (parent : ParentStorageIno) (name : ByteString)
  | directoryScanForChildren (dirIno : StorageIno) (limit : Nat)
  | directoryAddChildCheckedNewInode (args : NewInode) (newIno : StorageIno) (now : SystemTime)
  | directoryAddChildCheckedExistingInode (parent : ParentStorageIno) (name : ByteString) (ino : StorageIno)
  | directoryRemoveChild (parent : ParentStorageIno) (name : ByteString) (allowedTypes : List StorageDirItemKind)
  | directoryRemoveChildEmptyDirectory (parent : ParentStorageIno) (name : ByteString)
  | directoryRenameChild (parent : ParentStorageIno) (name : ByteString) (newParent : ParentStorageIno)
      (newName : ByteString)
  | inodeCheckForDeleteAndDeleteAtomicallyDescription (ino : StorageIno)
  | inodeOpen (ino : StorageIno) (useId : Uuid)
  | inodeClose (ino : StorageIno) (useId : Uuid)
  | inodeReadInlineData (ino : StorageIno)
  | deleteMetadata (ino : StorageIno) (kind : InoMetadata)
  | putAccessTime (ino : StorageIno) (time : SystemTime)
  | putModificationTime (ino : StorageIno) (time : SystemTime)
  | putUnixAttributes (ino : StorageIno) (attr : InoStorageFileAttr)
  | inodeAllocateSize (now : SystemTime) (ino : StorageIno) (offset length : Int)
  | checkedWriteOfFileHash (ino : StorageIno) (changeIteration : Uuid) (newFullHash : TiFsHash)
  | deleteFullHash (ino : StorageIno)
  | putChangeIterationId (ino : StorageIno) (id : Uuid)
  | hbGetBlockHashListByBlockRangeChunked (ino : StorageIno) (blockRange : BlockIndex × BlockIndex)
  | hbUploadNewBlock (blocks : List (TiFsHash × Bytes))
  | hbIncrementBlocksReferenceCount (blocks : List (TiFsHash × Nat))
  | hbReplaceBlockHashForAddressNoSizeUpdate (addresses : List (BlockAddress × Option TiFsHash))
  | hbReplaceBlockHashForAddressOnlySizeUpdate (now : SystemTime) (addr : BlockAddress)
      (newBlocksActualSize : Nat)
  | hbReplaceBlockHashForAddressOnlySizeUpdateB (now : SystemTime) (ino : StorageIno) (newTargetSize : Nat)
  | hbDecrementBlocksReferenceCountAndDeleteIfZeroReached (decrements : RefCounts)
  deriving DecidableEq

inductive MiniReply where
  | done
  | metaStatic (metadata : Option MetaStatic)
  | ino (ino : StorageIno)
  | child (item : Option StorageDirItem)
  | children (items : List DirectoryItem)
  | added (item : GotOrMade StorageDirItem)
  | removed (item : StorageDirItem)
  | checked (result : DeletionCheckResult)
  | inlineData (data : Bytes)
  | hashWritten (written : Bool)
  | hashes (hashes : BlockHashes)
  | counts (counts : RefCounts)
  deriving DecidableEq

def MiniCall.body (cfg : TiFsConfig) : MiniCall → Mini MiniReply
  | .metaStaticRead => .metaStatic <$> fetchTry .metaStatic
  | .metaMutableReserveNewInos count => .ino <$> TiFs.metaMutableReserveNewInos cfg count
  | .directoryGetChild parent name => .child <$> TiFs.directoryGetChild parent name
  | .directoryScanForChildren dirIno limit => .children <$> TiFs.directoryScanForChildren dirIno limit
  | .directoryAddChildCheckedNewInode args newIno now =>
      .added <$> TiFs.directoryAddChildCheckedNewInode args newIno now
  | .directoryAddChildCheckedExistingInode parent name ino =>
      .added <$> TiFs.directoryAddChildCheckedExistingInode parent name ino
  | .directoryRemoveChild parent name allowedTypes =>
      .removed <$> TiFs.directoryRemoveChild parent name allowedTypes
  | .directoryRemoveChildEmptyDirectory parent name =>
      .removed <$> TiFs.directoryRemoveChildEmptyDirectory parent name
  | .directoryRenameChild parent name newParent newName =>
      (fun _ => .done) <$> TiFs.directoryRenameChild parent name newParent newName
  | .inodeCheckForDeleteAndDeleteAtomicallyDescription ino =>
      .checked <$> TiFs.inodeCheckForDeleteAndDeleteAtomicallyDescription ino
  | .inodeOpen ino useId => (fun _ => .done) <$> TiFs.inodeOpen ino useId
  | .inodeClose ino useId => (fun _ => .done) <$> TiFs.inodeClose ino useId
  | .inodeReadInlineData ino => .inlineData <$> TiFs.inodeReadInlineData ino
  | .deleteMetadata ino kind => (fun _ => .done) <$> delete (.inodeX ino kind)
  | .putAccessTime ino time => (fun _ => .done) <$> put (.inodeX ino .accessTime) time
  | .putModificationTime ino time => (fun _ => .done) <$> put (.inodeX ino .modificationTime) time
  | .putUnixAttributes ino attr => (fun _ => .done) <$> put (.inodeX ino .unixAttributes) attr
  | .inodeAllocateSize now ino offset length =>
      (fun _ => .done) <$> TiFs.inodeAllocateSize cfg now ino offset length
  | .checkedWriteOfFileHash ino changeIteration newFullHash =>
      .hashWritten <$> TiFs.checkedWriteOfFileHash ino changeIteration newFullHash
  | .deleteFullHash ino => (fun _ => .done) <$> delete (.inodeX ino .fullHash)
  | .putChangeIterationId ino id => (fun _ => .done) <$> put (.inodeX ino .changeIterationId) id
  | .hbGetBlockHashListByBlockRangeChunked ino blockRange =>
      .hashes <$> TiFs.hbGetBlockHashListByBlockRangeChunked cfg ino blockRange
  | .hbUploadNewBlock blocks => (fun _ => .done) <$> TiFs.hbUploadNewBlock blocks
  | .hbIncrementBlocksReferenceCount blocks => .counts <$> TiFs.hbIncrementBlocksReferenceCount cfg blocks
  | .hbReplaceBlockHashForAddressNoSizeUpdate addresses =>
      .counts <$> TiFs.hbReplaceBlockHashForAddressNoSizeUpdate cfg addresses
  | .hbReplaceBlockHashForAddressOnlySizeUpdate now addr newBlocksActualSize =>
      (fun _ => .done) <$> TiFs.hbReplaceBlockHashForAddressOnlySizeUpdate cfg now addr newBlocksActualSize
  | .hbReplaceBlockHashForAddressOnlySizeUpdateB now ino newTargetSize =>
      (fun _ => .done) <$> TiFs.hbReplaceBlockHashForAddressOnlySizeUpdateB cfg now ino newTargetSize
  | .hbDecrementBlocksReferenceCountAndDeleteIfZeroReached decrements =>
      (fun _ => .done) <$> TiFs.hbDecrementBlocksReferenceCountAndDeleteIfZeroReached cfg decrements

/-- The other calls read a record, or scan records, that they leave alone while they write
some other one. -/
def MiniCall.writesWhatItReads : MiniCall → Bool
  | .directoryAddChildCheckedExistingInode _ _ _ => false
  | .directoryRemoveChildEmptyDirectory _ _ => false
  | .directoryRenameChild _ _ _ _ => false
  | .inodeCheckForDeleteAndDeleteAtomicallyDescription _ => false
  | .inodeOpen _ _ => false
  | .checkedWriteOfFileHash _ _ _ => false
  | _ => true

structure ClientCall where
  cfg : TiFsConfig
  call : MiniCall

def ClientCall.body (op : ClientCall) : Mini MiniReply := op.call.body op.cfg

section Bodies

variable (cfg : TiFsConfig)

theorem ownReads_reserve (count : Nat) : OwnReads (metaMutableReserveNewInos cfg count) := by
  apply ownReads_readKey
  intro found
  cases found with
  | none =>
      refine .written rootInode (initWrites cfg) (by simp [initWrites]) fun txn => ?_
      change Except.ok (rootInode, (txn.mutate _).mutate _) = _
      rw [Txn.mutate_mutate]
      rfl
  | some dynMeta => exact .written dynMeta.inodeNext _ List.mem_cons_self fun _ => rfl

theorem ownReads_batchMutate (writes : List Write) : OwnReads (batchMutate writes : Mini Unit) := by
  intro start result txn ran
  obtain ⟨rfl, rfl⟩ := Prod.mk.inj (Except.ok.inj ran)
  exact ⟨rfl, Or.inr fun _ _ => rfl⟩

theorem ownReads_fetchTry (key : Key) : OwnReads (fetchTry key) :=
  ownReads_of_readOnly fun _ _ _ ran => (Prod.mk.inj (Except.ok.inj ran)).2.symm

theorem ownReads_scan (dirIno : StorageIno) (limit : Nat) : OwnReads (directoryScanForChildren dirIno limit) :=
  ownReads_of_readOnly fun _ _ _ ran => (Prod.mk.inj (Except.ok.inj ran)).2.symm

theorem chunkedLoop_readOnly (ino : StorageIno) (rangeEnd : BlockIndex) (fuel : Nat) (i : BlockIndex)
    (found result : BlockHashes) (txn after : Txn Key.Value)
    (ran : chunkedLoop cfg ino rangeEnd fuel i found txn = .ok (result, after)) : after = txn := by
  induction fuel generalizing i found with
  | zero => exact (Prod.mk.inj (Except.ok.inj ran)).2.symm
  | succ fuel ih =>
      rw [chunkedLoop] at ran
      split at ran
      · obtain ⟨chunk, between, read, rest⟩ := bind_eq_ok ran
        obtain ⟨_, rfl⟩ := Prod.mk.inj (Except.ok.inj read)
        exact ih _ _ rest
      · exact (Prod.mk.inj (Except.ok.inj ran)).2.symm

theorem ownReads_chunked (ino : StorageIno) (blockRange : BlockIndex × BlockIndex) :
    OwnReads (hbGetBlockHashListByBlockRangeChunked cfg ino blockRange) :=
  ownReads_of_readOnly fun _ _ _ ran => chunkedLoop_readOnly cfg ino _ _ _ _ _ _ _ ran

theorem ownReads_addNew (args : NewInode) (newIno : StorageIno) (now : SystemTime) :
    OwnReads (directoryAddChildCheckedNewInode args newIno now) := by
  apply ownReads_readKey
  intro found
  cases found with
  | some existing => exact .kept (.existedAlready existing) fun _ => rfl
  | none =>
      refine .written (.newlyCreated ⟨newIno, args.typ⟩) (createdWrites args newIno now)
        (by simp [createdWrites]) fun txn => ?_
      rcases args with ⟨parent, name, typ, perm, gid, uid, rdev, _ | data⟩
      · change Except.ok (_, ((((txn.mutate _).mutate _).mutate _).mutate _).mutate _) = _
        simp only [Txn.mutate_mutate]
        rfl
      · change Except.ok (_, (((((txn.mutate _).mutate _).mutate _).mutate _).mutate _).mutate _) = _
        simp only [Txn.mutate_mutate]
        rfl

theorem ownReads_removeChild (parent : ParentStorageIno) (name : ByteString)
    (allowedTypes : List StorageDirItemKind) : OwnReads (directoryRemoveChild parent name allowedTypes) := by
  apply ownReads_readKey
  intro found
  cases found with
  | none => exact .refused (.fileNotFound name) fun _ => rfl
  | some item =>
      by_cases accepted : item.typ ∈ allowedTypes
      · refine .written item (removedLinks parent name item.ino) List.mem_cons_self fun txn => ?_
        simp only [accepted, not_true_eq_false, if_false]
        rfl
      · refine .refused .wrongFileType fun txn => ?_
        simp only [accepted, not_false_eq_true, if_true]
        rfl

theorem ownReads_fetch {key : Key} {next : key.Value → Mini Unit}
    (update : ∀ value, next value = pure () ∨ ∃ changed, next value = put key changed) :
    OwnReads (fetch key >>= next) := by
  rw [fetch, bind_assoc]
  apply ownReads_readKey
  intro found
  cases found with
  | none => exact .refused (.keyNotFound (some key)) fun _ => rfl
  | some value =>
      rcases update value with kept | ⟨changed, written⟩
      · exact .kept () fun txn => congrFun kept txn
      · exact .written () [Mutation.put key changed] List.mem_cons_self fun txn => congrFun written txn

theorem ownReads_close (ino : StorageIno) (useId : Uuid) : OwnReads (inodeClose ino useId) := by
  intro start result txn ran
  obtain ⟨item, found, owner, rfl⟩ := close_ok ran
  refine ⟨rfl, Or.inr fun current same => ?_⟩
  have still : dirEntry (Txn.mk current []).view openedInodeParentInode (uuidToString useId) = some item :=
    (same _ List.mem_cons_self).trans found
  have allowed : item.typ ∈ [StorageDirItemKind.directory, .file, .symlink] := by
    cases item.typ <;> decide
  rw [inodeClose, bind_ok (removeChild_removed still allowed)]
  simp only [owner, ne_eq, not_true_eq_false, if_false]
  rfl

theorem ownReads_readInlineData (ino : StorageIno) : OwnReads (inodeReadInlineData ino) := by
  rw [inodeReadInlineData, fetch, bind_assoc]
  apply ownReads_readKey
  intro found
  cases found with
  | none => exact .refused (.keyNotFound (some (.inodeX ino .inlineData))) fun _ => rfl
  | some value => exact .kept (InoInlineData.inlined value) fun _ => rfl

theorem ownReads_allocate (now : SystemTime) (ino : StorageIno) (offset length : Int) :
    OwnReads (inodeAllocateSize cfg now ino offset length) := by
  apply ownReads_fetch
  intro size
  by_cases enough : ((offset + length) % 2 ^ 64).toNat ≤ size.size
  · left
    simp only [enough, if_true]
  · right
    simp only [enough, if_false]
    exact ⟨_, rfl⟩

theorem ownReads_onlySizeUpdate (now : SystemTime) (addr : BlockAddress) (actual : Nat) :
    OwnReads (hbReplaceBlockHashForAddressOnlySizeUpdate cfg now addr actual) := by
  apply ownReads_fetch
  intro size
  cases InoSize.blockWriteSizeUpdate size addr cfg.blockSize actual now with
  | none => exact Or.inl rfl
  | some changed => exact Or.inr ⟨changed, rfl⟩

theorem ownReads_onlySizeUpdateB (now : SystemTime) (ino : StorageIno) (target : Nat) :
    OwnReads (hbReplaceBlockHashForAddressOnlySizeUpdateB cfg now ino target) := by
  apply ownReads_fetch
  intro size
  by_cases larger : target > size.size
  · right
    simp only [larger, if_true]
    exact ⟨_, rfl⟩
  · left
    simp only [larger, if_false]

theorem prevCounterValues_congr {start current : Store} {hashes : List TiFsHash}
    (same : ∀ hash ∈ hashes, current.lookup (.countedNamedUsages hash) = start.lookup (.countedNamedUsages hash)) :
    prevCounterValues cfg current hashes = prevCounterValues cfg start hashes := by
  rw [prevCounterValues, prevCounterValues]
  congr 1
  apply List.filterMap_congr
  intro hash listed
  rw [same hash listed]

theorem ownReads_increment (blocks : List (TiFsHash × Nat)) :
    OwnReads (hbIncrementBlocksReferenceCount cfg blocks) := by
  refine ownReads_view (fun store => prevCounterValues cfg store (blocks.map Prod.fst))
    (fun prev => (do
      batchMutate (blocks.map fun block =>
        Mutation.put (.countedNamedUsages block.1) (block.2 + (prev.lookup block.1).getD 0))
      return prev : Mini RefCounts)) ?_
  intro start
  refine Or.inr ⟨_, _, fun _ => rfl, fun current same => ?_⟩
  apply prevCounterValues_congr
  intro hash listed
  obtain ⟨block, member, rfl⟩ := List.mem_map.mp listed
  exact same _ (List.mem_map.mpr ⟨_, List.mem_map.mpr ⟨block, member, rfl⟩, rfl⟩)

theorem counter_mem_decrements (prev decrements : RefCounts) {hash : TiFsHash} (listed : hash ∈ decrements.keys) :
    Key.countedNamedUsages hash ∈
      (decrements.entries.flatMap fun entry => decrementWrites prev entry.1 entry.2).map Mutation.key := by
  obtain ⟨entry, member, rfl⟩ := List.mem_map.mp listed
  rw [List.map_flatMap, List.mem_flatMap]
  refine ⟨entry, member, ?_⟩
  rcases decrementWrites_keys prev entry.1 entry.2 with both | one
  · rw [both]
    exact List.mem_cons_self
  · rw [one]
    exact List.mem_cons_self

theorem ownReads_decrement (decrements : RefCounts) :
    OwnReads (hbDecrementBlocksReferenceCountAndDeleteIfZeroReached cfg decrements) := by
  refine ownReads_view (fun store => prevCounterValues cfg store decrements.keys)
    (fun prev => batchMutate (decrements.entries.flatMap fun entry => decrementWrites prev entry.1 entry.2)) ?_
  intro start
  refine Or.inr ⟨(), _, fun _ => rfl, fun current same => ?_⟩
  apply prevCounterValues_congr
  intro hash listed
  exact same _ (counter_mem_decrements _ decrements listed)

theorem addressWrite_key (address : BlockAddress × Option TiFsHash) :
    (addressWrite address).key = .blockHash address.1 := by
  obtain ⟨addr, hash⟩ := address
  cases hash with
  | none => rfl
  | some hash => rfl

theorem ownReads_replace (addresses : List (BlockAddress × Option TiFsHash)) :
    OwnReads (hbReplaceBlockHashForAddressNoSizeUpdate cfg addresses) := by
  cases addresses with
  | nil => exact ownReads_of_readOnly fun _ _ _ ran => (Prod.mk.inj (Except.ok.inj ran)).2.symm
  | cons head tail =>
      refine ownReads_view (fun store => prevHashes store (head :: tail))
        (fun prevBlockHash => (do
          batchMutate ((head :: tail).map addressWrite)
          if ∃ hash ∈ prevBlockHash, hash.length ≠ cfg.hashLen then
            throw (.serialize "hash" "BIN" "hash length mismatch.")
          else return tally prevBlockHash : Mini RefCounts)) ?_
      intro start
      by_cases mismatch : ∃ hash ∈ prevHashes start (head :: tail), hash.length ≠ cfg.hashLen
      · refine Or.inl ⟨.serialize "hash" "BIN" "hash length mismatch.", fun txn => ?_⟩
        simp only [if_pos mismatch]
        rfl
      · refine Or.inr ⟨tally (prevHashes start (head :: tail)), (head :: tail).map addressWrite, fun txn => ?_,
          fun current same => ?_⟩
        · simp only [if_neg mismatch]
          rfl
        · apply List.filterMap_congr
          intro address listed
          rw [mapping, mapping, same]
          rw [← addressWrite_key]
          exact List.mem_map_of_mem (List.mem_map_of_mem listed)

theorem MiniCall.ownReads (call : MiniCall) (own : call.writesWhatItReads = true) :
    OwnReads (call.body cfg) := by
  cases call with
  | metaStaticRead => exact (ownReads_fetchTry _).map _
  | metaMutableReserveNewInos count => exact (ownReads_reserve cfg count).map _
  | directoryGetChild parent name => exact (ownReads_fetchTry _).map _
  | directoryScanForChildren dirIno limit => exact (ownReads_scan dirIno limit).map _
  | directoryAddChildCheckedNewInode args newIno now => exact (ownReads_addNew args newIno now).map _
  | directoryRemoveChild parent name allowedTypes => exact (ownReads_removeChild parent name allowedTypes).map _
  | inodeClose ino useId => exact (ownReads_close ino useId).map _
  | inodeReadInlineData ino => exact (ownReads_readInlineData ino).map _
  | deleteMetadata ino kind => exact (ownReads_batchMutate _).map _
  | putAccessTime ino time => exact (ownReads_batchMutate _).map _
  | putModificationTime ino time => exact (ownReads_batchMutate _).map _
  | putUnixAttributes ino attr => exact (ownReads_batchMutate _).map _
  | inodeAllocateSize now ino offset length => exact (ownReads_allocate cfg now ino offset length).map _
  | deleteFullHash ino => exact (ownReads_batchMutate _).map _
  | putChangeIterationId ino id => exact (ownReads_batchMutate _).map _
  | hbGetBlockHashListByBlockRangeChunked ino blockRange => exact (ownReads_chunked cfg ino blockRange).map _
  | hbUploadNewBlock blocks => exact (ownReads_batchMutate _).map _
  | hbIncrementBlocksReferenceCount blocks => exact (ownReads_increment cfg blocks).map _
  | hbReplaceBlockHashForAddressNoSizeUpdate addresses => exact (ownReads_replace cfg addresses).map _
  | hbReplaceBlockHashForAddressOnlySizeUpdate now addr actual =>
      exact (ownReads_onlySizeUpdate cfg now addr actual).map _
  | hbReplaceBlockHashForAddressOnlySizeUpdateB now ino target =>
      exact (ownReads_onlySizeUpdateB cfg now ino target).map _
  | hbDecrementBlocksReferenceCountAndDeleteIfZeroReached decrements =>
      exact (ownReads_decrement cfg decrements).map _
  | directoryAddChildCheckedExistingInode _ _ _ => cases own
  | directoryRemoveChildEmptyDirectory _ _ => cases own
  | directoryRenameChild _ _ _ _ => cases own
  | inodeCheckForDeleteAndDeleteAtomicallyDescription _ => cases own
  | inodeOpen _ _ => cases own
  | checkedWriteOfFileHash _ _ _ => cases own

end Bodies

namespace SpinSystem

variable {R Op : Type} {body : Op → Mini R} {first : Store}

/-- The returned value of a call with its moment, if the body writes what it reads. -/
theorem Valid.one_step {state : SpinSystem Op R} (valid : Valid body first state) {id : ℕ}
    {call : SpinCall Op R} (present : state.calls id = some call) {reply : R} {ended : ℕ}
    (isReturned : call.phase = .returned (.ok reply) ended) (own : OwnReads (body call.op)) :
    ∃ n after, call.since ≤ n ∧ n ≤ ended ∧ ended ≤ state.log.length ∧
      atomically (body call.op) (storeAt first state.log n) = .ok (reply, after) ∧
        (after = storeAt first state.log n ∨ after = storeAt first state.log (n + 1) ∧
          n < ended ∧ (state.log[n]?).map Commit.id = some id) := by
  obtain ⟨within, n, entry, listed, isId, isOp, isReply, since, begun, before⟩ :=
    (valid.sound id call present).ended reply ended isReturned
  have ownReads : OwnReads (body entry.op) := isOp ▸ own
  rcases valid.logged.atomic listed ownReads with written | ⟨_, readOnly⟩
  · rw [isOp, isReply] at written
    have isCommit : (state.log[n]?).map Commit.id = some id := by rw [listed, ← isId, Option.map_some]
    exact ⟨n, _, since.trans begun, before.le, within, written, Or.inr ⟨rfl, before, isCommit⟩⟩
  · rw [isOp, isReply] at readOnly
    exact ⟨entry.begun, _, since, begun.trans before.le, within, readOnly, Or.inl rfl⟩

/-- A call that writes what it reads returns what its body returns when it runs alone on the
store of one moment between the call and the return, and what it wrote is in the store from
that moment on: nobody else's transaction came between. -/
theorem returned_in_one_step (db : Db Key.Value)
    {allowed : SpinSystem ClientCall MiniReply → SpinEvent ClientCall → Prop}
    {state : SpinSystem ClientCall MiniReply} (run : Run (Step ClientCall.body) allowed (initial db) state)
    {id : ℕ} {call : SpinCall ClientCall MiniReply} (present : state.calls id = some call)
    {reply : MiniReply} {ended : ℕ} (isReturned : call.phase = .returned (.ok reply) ended)
    (own : call.op.call.writesWhatItReads = true) :
    ∃ n after, call.since ≤ n ∧ n ≤ ended ∧ ended ≤ state.log.length ∧
      atomically call.op.body (storeAt db.data state.log n) = .ok (reply, after) ∧
        (after = storeAt db.data state.log n ∨ after = storeAt db.data state.log (n + 1) ∧
          n < ended ∧ (state.log[n]?).map Commit.id = some id) :=
  (valid_of_run run).one_step present isReturned (call.op.call.ownReads call.op.cfg own)

/-- Two clients create one entry; the second one commits behind the first one, is refused and
finds the entry when it tries again. -/
theorem returned_in_one_step_create :
    ∃ (state : SpinSystem ClientCall MiniReply) (call : SpinCall ClientCall MiniReply) (n : ℕ)
        (after : Store) (item : StorageDirItem),
      Run (Step ClientCall.body) Answered (initial ⟨∅, fun _ => 0⟩) state ∧
      state.calls 1 = some call ∧ item.ino = 10 ∧ n ≤ state.log.length ∧
      atomically call.op.body (storeAt ∅ state.log n) = .ok (.added (.existedAlready item), after) := by
  obtain ⟨state, run, checked⟩ := exists_run ClientCall.body ⟨∅, fun _ => 0⟩
    [.call 0 .miniTransaction ⟨paddingConfig 2 (by decide),
      .directoryAddChildCheckedNewInode ⟨1, [97], .file, 0, 0, 0, 0, none⟩ 10 5⟩,
     .call 1 .miniTransaction ⟨paddingConfig 3 (by decide),
      .directoryAddChildCheckedNewInode ⟨1, [97], .file, 0, 0, 0, 0, none⟩ 11 5⟩,
     .start 0, .start 1, .finish 0 .committed, .finish 1 (.refused (.keyError "conflict")), .start 1,
     .finish 1 .committed]
    (fun state => (state.calls 1).any fun call => call.op.call.writesWhatItReads ∧
      call.returned = some (.added (.existedAlready ⟨10, .file⟩), 2)) (by decide +kernel)
  obtain ⟨call, present, isReturned⟩ := (Option.any_eq_true _ _).mp checked
  obtain ⟨own, reply⟩ := of_decide_eq_true isReturned
  obtain ⟨n, after, _, before, within, ran, _⟩ :=
    returned_in_one_step _ run present (SpinCall.phase_of_returned reply) own
  exact ⟨state, call, n, after, ⟨10, .file⟩, run, present, rfl, before.trans within, ran⟩

end SpinSystem

end TiFs
