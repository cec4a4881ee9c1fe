import TiFs.HashFsError
import TiFs.WriteCall

/-! The hash over a whole file, which `file_get_hash` keeps under a key of the inode
and block writes delete. Block writes, hash computations and size allocations of
any clients on one inode run interleaved, transaction by transaction. -/

namespace TiFs

open KeyValue Tables

def asciiDigits (n : Nat) : Bytes := (Nat.toDigits 10 n).map fun digit => UInt8.ofNat digit.toNat

/-- The stored form of `InoFullHash`: a JSON array of numbers. -/
def serializeFullHash (hash : TiFsHash) : Bytes :=
  91 :: ((hash.map fun byte => asciiDigits byte.toNat).intersperse [44]).flatten ++ [93]

def hashedBlockRange (cfg : TiFsConfig) (size : Nat) : Nat × Nat :=
  (0, divCeil size cfg.blockSize * cfg.hashLen)

def readHashesOfFile (cfg : TiFsConfig) (ino : StorageIno) (blockRange : Nat × Nat) (store : Store) :
    Except HashFsError Bytes := do
  let (hashes, _) ← (atomically (hbGetBlockHashListByBlockRangeChunked cfg ino blockRange) store).mapError
    HashFsError.ofFsError
  let zeroHash := cfg.calculateHash []
  (List.range' blockRange.1 (blockRange.2 - blockRange.1)).foldlM (fun result blockId =>
    let blockHash := (hashes.lookup blockId).getD zeroHash
    if blockHash.length ≠ cfg.hashLen then
      .error (.fsHasInvalidData (some ("hash has invalid length. Expected: " ++ toString cfg.hashLen ++
        ", actual: " ++ toString blockHash.length)))
    else .ok (result ++ blockHash)) []

def checkedWriteOfFileHash (ino : StorageIno) (changeIteration : Uuid) (newFullHash : TiFsHash) :
    Mini Bool := do
  let inoChangeId ← fetch (.inodeX ino .changeIterationId)
  if inoChangeId = changeIteration then
    put (.inodeX ino .fullHash) (serializeFullHash newFullHash)
    return true
  else return false

/-- The sum is an `i64` that is cast to a `u64`. -/
def inodeAllocateSize (cfg : TiFsConfig) (now : SystemTime) (ino : StorageIno) (offset length : Int) :
    Mini Unit := do
  let inoSize ← fetch (.inodeX ino .size)
  let targetSize := ((offset + length) % 2 ^ 64).toNat
  if targetSize ≤ InoSize.size inoSize then return ()
  put (.inodeX ino .size) { InoSize.setSize inoSize targetSize cfg.blockSize now with lastChange := now }

abbrev RegisteredBlocks := List (TiFsHash × Nat × List BlockIndex)

def RegisteredBlocks.addressesToModify (blocks : RegisteredBlocks) (ino : StorageIno) :
    List (BlockAddress × Option TiFsHash) :=
  blocks.flatMap fun block => block.2.2.map fun id => (⟨ino, id⟩, some block.1)

def RegisteredBlocks.maxFileSize (cfg : TiFsConfig) (blocks : RegisteredBlocks) : Nat :=
  (blocks.flatMap fun block => block.2.2.map fun id => id * cfg.blockSize + block.2.1).foldl max 0

/-- A call of `inode_write_hash_block_to_addresses_update_ino_size_and_cleaning_previous_block_hashes`;
its first transaction is the replacement. -/
structure RegisterTask where
  blocks : RegisteredBlocks
  phase : WritePhase

def RegisterTask.step (cfg : TiFsConfig) (ino : StorageIno) (ambient : Ambient) (task : RegisterTask)
    (store : Store) : Except FsError (RegisterTask × Store) :=
  match task.phase with
  | .replace => do
      let (decrements, after) ← atomically
        (hbReplaceBlockHashForAddressNoSizeUpdate cfg (task.blocks.addressesToModify ino)) store
      return ({ task with phase := .clearFullHash decrements }, after)
  | .clearFullHash decrements => do
      let (_, after) ← atomically (delete (.inodeX ino .fullHash)) store
      return ({ task with phase := .changeIterationId decrements }, after)
  | .changeIterationId decrements => do
      let (_, after) ← atomically (put (.inodeX ino .changeIterationId) ambient.uuid) store
      return ({ task with phase := .sizePeek decrements }, after)
  | .sizePeek decrements => do
      let (sizePeek, after) ← atomically (fetch (.inodeX ino .size)) store
      if task.blocks.maxFileSize cfg > InoSize.size sizePeek then
        return ({ task with phase := .sizeUpdate decrements }, after)
      else return ({ task with phase := .decrement decrements }, after)
  | .sizeUpdate decrements => do
      let (_, after) ← atomically (hbReplaceBlockHashForAddressOnlySizeUpdateB cfg ambient.now ino
        (task.blocks.maxFileSize cfg)) store
      return ({ task with phase := .decrement decrements }, after)
  | .decrement decrements => do
      let (_, after) ← atomically
        (hbDecrementBlocksReferenceCountAndDeleteIfZeroReached cfg decrements) store
      return ({ task with phase := .done }, after)
  | _ => return (task, store)

inductive HashPhase where
  | readHash
  | readMetadata
  | readHashes (changeIterId : Uuid) (size : Nat)
  | writeHash (changeIterId : Uuid) (newFullHash : TiFsHash)
  | returned (result : Except HashFsError Bytes)

def HashPhase.step (cfg : TiFsConfig) (ino : StorageIno) (phase : HashPhase) (store : Store) :
    HashPhase × Store :=
  match phase with
  | .readHash =>
      match store.lookup (.inodeX ino .fullHash) with
      | some hash => (.returned (.ok hash), store)
      | none => (.readMetadata, store)
  | .readMetadata =>
      match store.lookup (.inodeX ino .fullHash) with
      | some hash => (.returned (.ok hash), store)
      | none =>
          match store.lookup (.inodeX ino .size) with
          | none => (.returned (.error .fileNotFound), store)
          | some size =>
              (.readHashes ((store.lookup (.inodeX ino .changeIterationId)).getD 0) (InoSize.size size), store)
  | .readHashes changeIterId size =>
      match readHashesOfFile cfg ino (hashedBlockRange cfg size) store with
      | .ok hashData => (.writeHash changeIterId (cfg.calculateHash hashData), store)
      | .error issue => (.returned (.error issue), store)
  | .writeHash changeIterId newFullHash =>
      match atomically (checkedWriteOfFileHash ino changeIterId newFullHash) store with
      | .ok (_, after) => (.returned (.ok newFullHash), after)
      | .error issue => (.returned (.error (.ofFsError issue)), store)
  | .returned result => (.returned result, store)

structure FileHashSystem where
  store : Store
  writers : List RegisterTask
  hashers : List HashPhase

inductive FileHashEvent where
  | write (blocks : RegisteredBlocks)
  | getHash
  | allocate (offset length : Int) (now : SystemTime)
  | advanceWrite (i : Nat) (ambient : Ambient)
  | advanceHash (i : Nat)

/-- Nothing fails: a transaction that would is not taken. -/
def FileHashSystem.step (cfg : TiFsConfig) (ino : StorageIno) (state : FileHashSystem) :
    FileHashEvent → Option FileHashSystem
  | .write blocks => some { state with writers := state.writers ++ [⟨blocks, .replace⟩] }
  | .getHash => some { state with hashers := state.hashers ++ [.readHash] }
  | .allocate offset length now =>
      match atomically (inodeAllocateSize cfg now ino offset length) state.store with
      | .ok (_, after) => some { state with store := after }
      | .error _ => none
  | .advanceWrite i ambient =>
      match state.writers[i]? with
      | some task =>
          match task.step cfg ino ambient state.store with
          | .ok (next, after) => some { state with store := after, writers := state.writers.set i next }
          | .error _ => none
      | none => none
  | .advanceHash i =>
      match state.hashers[i]? with
      | some phase =>
          let next := phase.step cfg ino state.store
          some { state with store := next.2, hashers := state.hashers.set i next.1 }
      | none => none

def FileHashSystem.Step (cfg : TiFsConfig) (ino : StorageIno) (before : FileHashSystem)
    (event : FileHashEvent) (after : FileHashSystem) : Prop :=
  before.step cfg ino event = some after

@[ext] structure FileView where
  fullHash : Option Bytes
  changeId : Option Uuid
  size : Option InoSize
  hashes : BlockIndex → Option TiFsHash

def fileView (ino : StorageIno) (store : Store) : FileView :=
  ⟨store.lookup (.inodeX ino .fullHash), store.lookup (.inodeX ino .changeIterationId),
   inoSize store ino, fun index => mapping store ⟨ino, index⟩⟩

/-- A block that is not there has the hash of no bytes. -/
def FileView.blockHash (cfg : TiFsConfig) (view : FileView) (id : BlockIndex) : TiFsHash :=
  ((view.hashes id).filter fun hash => hash.length = cfg.hashLen).getD (cfg.calculateHash [])

theorem FileView.blockHash_length (cfg : TiFsConfig) (view : FileView) (id : BlockIndex) :
    (view.blockHash cfg id).length = cfg.hashLen := by
  rw [blockHash]
  cases kept : (view.hashes id).filter fun hash => hash.length = cfg.hashLen with
  | none => exact cfg.hash_length []
  | some hash => simpa using (Option.filter_eq_some_iff.mp kept).2

def FileView.hashData (cfg : TiFsConfig) (view : FileView) (blocks : Nat) : Bytes :=
  (List.range (blocks * cfg.hashLen)).flatMap fun id =>
    ((view.hashes id).filter fun hash => hash.length = cfg.hashLen).getD (cfg.calculateHash [])

def FileView.hashesUpTo (cfg : TiFsConfig) (view : FileView) (count : Nat) : Bytes :=
  (List.range count).flatMap fun id =>
    ((view.hashes id).filter fun hash => hash.length = cfg.hashLen).getD (cfg.calculateHash [])

theorem foldlM_ok {A E : Type} {items : List A} {body : Bytes → A → Except E Bytes} {part : A → Bytes}
    (ok : ∀ item ∈ items, ∀ result, body result item = .ok (result ++ part item)) (result : Bytes) :
    items.foldlM body result = .ok (result ++ items.flatMap part) := by
  induction items generalizing result with
  | nil => rw [List.flatMap_nil, List.append_nil]; rfl
  | cons head tail ih =>
      rw [List.foldlM_cons, ok head List.mem_cons_self]
      have rest := ih (fun item member => ok item (List.mem_cons_of_mem _ member)) (result ++ part head)
      rw [List.flatMap_cons, ← List.append_assoc]
      exact rest

theorem readHashesOfFile_range (cfg : TiFsConfig) (ino : StorageIno) (blockRange : Nat × Nat) (store : Store) :
    readHashesOfFile cfg ino blockRange store =
      .ok ((List.range' blockRange.1 (blockRange.2 - blockRange.1)).flatMap
        ((fileView ino store).blockHash cfg)) := by
  obtain ⟨found, ran, inFound⟩ := readRange_spec cfg store ino blockRange
  unfold readHashesOfFile
  rw [ran]
  simp only [Except.mapError, bind, Except.bind]
  refine (foldlM_ok ?_ []).trans (by rw [List.nil_append])
  intro id member result
  have inside : blockRange.1 ≤ id ∧ id < blockRange.2 := by
    have bounds := List.mem_range'_1.mp member
    have filled : blockRange.1 < blockRange.2 := Nat.lt_of_sub_pos (by omega)
    exact ⟨bounds.1, bounds.2.trans_le (Nat.add_sub_cancel' filled.le).le⟩
  have isFound : found.lookup id =
      (((fileView ino store).hashes id).filter fun hash => hash.length = cfg.hashLen) := by
    rw [inFound id, if_pos inside]
    rfl
  have length : ((found.lookup id).getD (cfg.calculateHash [])).length = cfg.hashLen := by
    rw [isFound]
    exact FileView.blockHash_length cfg (fileView ino store) id
  rw [if_neg (not_not.mpr length), isFound, FileView.blockHash]

theorem readHashesOfFile_upTo (cfg : TiFsConfig) (ino : StorageIno) (count : Nat) (store : Store) :
    readHashesOfFile cfg ino (0, count) store = .ok ((fileView ino store).hashesUpTo cfg count) := by
  rw [readHashesOfFile_range, Nat.sub_zero, ← List.range_eq_range']
  rfl

theorem readHashesOfFile_eq (cfg : TiFsConfig) (ino : StorageIno) (size : Nat) (store : Store) :
    readHashesOfFile cfg ino (hashedBlockRange cfg size) store =
      .ok ((fileView ino store).hashData cfg (divCeil size cfg.blockSize)) :=
  readHashesOfFile_upTo cfg ino (divCeil size cfg.blockSize * cfg.hashLen) store

inductive RegisterMove (cfg : TiFsConfig) (ambient : Ambient) (task : RegisterTask) (view : FileView) :
    WritePhase → FileView → Prop
  | replaced (decrements : RefCounts) (hashes : BlockIndex → Option TiFsHash)
      (current : task.phase = .replace) :
      RegisterMove cfg ambient task view (.clearFullHash decrements) { view with hashes := hashes }
  | cleared (decrements : RefCounts) (current : task.phase = .clearFullHash decrements) :
      RegisterMove cfg ambient task view (.changeIterationId decrements) { view with fullHash := none }
  | changed (decrements : RefCounts) (current : task.phase = .changeIterationId decrements) :
      RegisterMove cfg ambient task view (.sizePeek decrements) { view with changeId := some ambient.uuid }
  | tooSmall (decrements : RefCounts) (current : task.phase = .sizePeek decrements) :
      RegisterMove cfg ambient task view (.sizeUpdate decrements) view
  | enough (decrements : RefCounts)
      (current : task.phase = .sizePeek decrements ∨ task.phase = .sizeUpdate decrements) :
      RegisterMove cfg ambient task view (.decrement decrements) view
  | grown (decrements : RefCounts) (size larger : InoSize) (current : task.phase = .sizeUpdate decrements)
      (stored : view.size = some size) (isMax : larger.size = task.blocks.maxFileSize cfg)
      (small : size.size < larger.size) :
      RegisterMove cfg ambient task view (.decrement decrements) { view with size := some larger }
  | decremented (decrements : RefCounts) (current : task.phase = .decrement decrements) :
      RegisterMove cfg ambient task view .done view
  | idle : RegisterMove cfg ambient task view task.phase view

section Moves

variable {cfg : TiFsConfig} {ino : StorageIno} {store : Store}

theorem fileView_applyAll {writes : List Write}
    (noHash : ∀ index, Key.blockHash ⟨ino, index⟩ ∉ writes.map Mutation.key)
    (noRecord : ∀ kind, Key.inodeX ino kind ∉ writes.map Mutation.key) :
    fileView ino (applyAll store writes) = fileView ino store := by
  ext1
  · exact lookup_applyAll_of_notMem store writes _ (noRecord .fullHash)
  · exact lookup_applyAll_of_notMem store writes _ (noRecord .changeIterationId)
  · exact lookup_applyAll_of_notMem store writes _ (noRecord .size)
  · funext index
    exact lookup_applyAll_of_notMem store writes _ (noHash index)

theorem fileView_addresses (ino : StorageIno) (store : Store) (addresses : List (BlockAddress × Option TiFsHash)) :
    ∃ hashes, fileView ino (applyAll store (addresses.map addressWrite)) =
      { fileView ino store with hashes := hashes } := by
  refine ⟨(fileView ino (applyAll store (addresses.map addressWrite))).hashes, ?_⟩
  have noRecord : ∀ kind, Key.inodeX ino kind ∉ (addresses.map addressWrite).map Mutation.key := by
    intro kind listed
    obtain ⟨write, member, isKey⟩ := List.mem_map.mp listed
    obtain ⟨⟨addr, hash⟩, _, rfl⟩ := List.mem_map.mp member
    cases hash with
    | none => cases isKey
    | some hash => cases isKey
  ext1
  · exact lookup_applyAll_of_notMem store _ _ (noRecord .fullHash)
  · exact lookup_applyAll_of_notMem store _ _ (noRecord .changeIterationId)
  · exact lookup_applyAll_of_notMem store _ _ (noRecord .size)
  · rfl

theorem lookup_record_of_ne (kind other : InoMetadata) (value : Option kind.Value)
    (different : other ≠ kind) :
    (applyAll store [⟨.inodeX ino kind, value⟩]).lookup (.inodeX ino other) =
      store.lookup (.inodeX ino other) :=
  lookup_apply_of_ne store _ _ (by simpa using different)

theorem mapping_record (kind : InoMetadata) (value : Option kind.Value) (index : BlockIndex) :
    mapping (applyAll store [⟨.inodeX ino kind, value⟩]) ⟨ino, index⟩ = mapping store ⟨ino, index⟩ :=
  lookup_apply_of_ne store _ _ (by simp)

theorem fileView_fullHash (ino : StorageIno) (store : Store) (value : Option Bytes) :
    fileView ino (applyAll store [⟨.inodeX ino .fullHash, value⟩]) =
      { fileView ino store with fullHash := value } := by
  ext1
  · exact lookup_apply_self store ⟨.inodeX ino .fullHash, value⟩
  · exact lookup_record_of_ne .fullHash .changeIterationId value (by decide)
  · exact lookup_record_of_ne .fullHash .size value (by decide)
  · funext index
    exact mapping_record .fullHash value index

theorem fileView_changeId (ino : StorageIno) (store : Store) (value : Uuid) :
    fileView ino (applyAll store [⟨.inodeX ino .changeIterationId, some value⟩]) =
      { fileView ino store with changeId := some value } := by
  ext1
  · exact lookup_record_of_ne .changeIterationId .fullHash (some value) (by decide)
  · exact lookup_apply_self store ⟨.inodeX ino .changeIterationId, some value⟩
  · exact lookup_record_of_ne .changeIterationId .size (some value) (by decide)
  · funext index
    exact mapping_record .changeIterationId (some value) index

theorem fileView_size (ino : StorageIno) (store : Store) (value : InoSize) :
    fileView ino (applyAll store [⟨.inodeX ino .size, some value⟩]) =
      { fileView ino store with size := some value } := by
  ext1
  · exact lookup_record_of_ne .size .fullHash (some value) (by decide)
  · exact lookup_record_of_ne .size .changeIterationId (some value) (by decide)
  · exact lookup_apply_self store ⟨.inodeX ino .size, some value⟩
  · funext index
    exact mapping_record .size (some value) index

theorem fileView_decrement (ino : StorageIno) (store : Store) (decrements : RefCounts) (prev : RefCounts) :
    fileView ino (applyAll store (decrements.entries.flatMap fun entry =>
      decrementWrites prev entry.1 entry.2)) = fileView ino store := by
  have keys : ∀ key ∈ (decrements.entries.flatMap fun entry =>
      decrementWrites prev entry.1 entry.2).map Mutation.key,
      ∃ hash, key = .countedNamedUsages hash ∨ key = .hashedBlock hash := by
    intro key listed
    rw [List.map_flatMap] at listed
    obtain ⟨entry, _, named⟩ := List.mem_flatMap.mp listed
    exact ⟨entry.1, mem_decrementWrites_keys named⟩
  apply fileView_applyAll
  · intro index listed
    obtain ⟨hash, isKey | isKey⟩ := keys _ listed
    · cases isKey
    · cases isKey
  · intro kind listed
    obtain ⟨hash, isKey | isKey⟩ := keys _ listed
    · cases isKey
    · cases isKey

theorem RegisterTask.move_of_step {ambient : Ambient} {task next : RegisterTask} {after : Store}
    (ran : task.step cfg ino ambient store = .ok (next, after)) :
    ∃ phase, next = { task with phase := phase } ∧
      RegisterMove cfg ambient task (fileView ino store) phase (fileView ino after) := by
  unfold RegisterTask.step at ran
  split at ran
  · next current =>
      obtain ⟨⟨decrements, between⟩, first, rest⟩ := except_bind_eq_ok ran
      obtain ⟨rfl, rfl⟩ := Prod.mk.inj (Except.ok.inj rest)
      rw [replace_run] at first
      split at first
      · obtain ⟨rfl, rfl⟩ := Prod.mk.inj (Except.ok.inj first)
        obtain ⟨hashes, isView⟩ := fileView_addresses ino store
          (task.blocks.addressesToModify ino)
        rw [isView]
        exact ⟨_, rfl, .replaced _ hashes current⟩
      · cases first
  · next decrements current =>
      obtain ⟨rfl, rfl⟩ := Prod.mk.inj (Except.ok.inj ran)
      refine ⟨_, rfl, ?_⟩
      have isView := fileView_fullHash ino store none
      exact isView ▸ .cleared decrements current
  · next decrements current =>
      obtain ⟨rfl, rfl⟩ := Prod.mk.inj (Except.ok.inj ran)
      refine ⟨_, rfl, ?_⟩
      have isView := fileView_changeId ino store ambient.uuid
      exact isView ▸ .changed decrements current
  · next decrements current =>
      cases stored : inoSize (Txn.mk store []).view ino with
      | none =>
          rw [atomically, fetch_of_none stored] at ran
          cases ran
      | some size =>
          rw [atomically, fetch_of_some stored] at ran
          have chosen : (if task.blocks.maxFileSize cfg > size.size then
              (Except.ok ({ task with phase := .sizeUpdate decrements }, store) : Except FsError _)
              else Except.ok ({ task with phase := .decrement decrements }, store)) =
              .ok (next, after) := ran
          by_cases small : task.blocks.maxFileSize cfg > size.size
          · rw [if_pos small] at chosen
            obtain ⟨rfl, rfl⟩ := Prod.mk.inj (Except.ok.inj chosen)
            exact ⟨_, rfl, .tooSmall decrements current⟩
          · rw [if_neg small] at chosen
            obtain ⟨rfl, rfl⟩ := Prod.mk.inj (Except.ok.inj chosen)
            exact ⟨_, rfl, .enough decrements (Or.inl current)⟩
  · next decrements current =>
      obtain ⟨⟨_, between⟩, first, rest⟩ := except_bind_eq_ok ran
      obtain ⟨rfl, rfl⟩ := Prod.mk.inj (Except.ok.inj rest)
      obtain ⟨size, stored, ⟨small, larger, isMax, rfl⟩ | ⟨_, rfl⟩⟩ := sizeUpdateB_cases first
      · refine ⟨_, rfl, ?_⟩
        have isView := fileView_size ino store larger
        exact isView ▸ .grown decrements size larger current stored isMax (by omega)
      · exact ⟨_, rfl, .enough decrements (Or.inr current)⟩
  · next decrements current =>
      obtain ⟨rfl, rfl⟩ := Prod.mk.inj (Except.ok.inj ran)
      refine ⟨_, rfl, ?_⟩
      have isView := fileView_decrement ino store decrements
        (prevCounterValues cfg store decrements.keys)
      exact isView ▸ .decremented decrements current
  · obtain ⟨rfl, rfl⟩ := Prod.mk.inj (Except.ok.inj ran)
    exact ⟨_, rfl, .idle⟩

end Moves

end TiFs
