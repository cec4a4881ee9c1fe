import TiFs.BlockTxn

/-! The operations on block data as sequences of transactions: a planned write,
the clearing of a block and the cloning of an inode's data. Any number of them
run interleaved, and each may stop after any of its transactions. -/

namespace TiFs

open KeyValue Tables

/-- One entry of the multimap of new blocks, with the block it is about. -/
structure BlockGroup where
  hash : TiFsHash
  data : Bytes
  ids : List BlockIndex
  deriving DecidableEq, Repr

/-- What `hb_write_data` has decided to write: blocks under their own hashes,
no hash and no block index twice. -/
structure WritePlan (cfg : TiFsConfig) where
  groups : List BlockGroup
  hash_eq : ∀ group ∈ groups, group.hash = cfg.calculateHash group.data
  hashes_nodup : (groups.map BlockGroup.hash).Nodup
  ids_nodup : (groups.flatMap BlockGroup.ids).Nodup

namespace WritePlan

variable {cfg : TiFsConfig}

def increments (plan : WritePlan cfg) : List (TiFsHash × Nat) :=
  plan.groups.map fun group => (group.hash, group.ids.length)

def addressesToModify (plan : WritePlan cfg) (ino : StorageIno) :
    List (BlockAddress × Option TiFsHash) :=
  plan.groups.flatMap fun group => group.ids.map fun id => (⟨ino, id⟩, some group.hash)

def maxFileSize (plan : WritePlan cfg) : Nat :=
  (plan.groups.flatMap fun group =>
    group.ids.map fun id => id * cfg.blockSize + group.data.length).foldl max 0

def blocksToUpload (plan : WritePlan cfg) (prevRefCounts : RefCounts) : List (TiFsHash × Bytes) :=
  (plan.groups.filter fun group => (prevRefCounts.lookup group.hash).getD 0 = 0).map
    fun group => (group.hash, group.data)

end WritePlan

inductive WritePhase where
  | increment
  | upload (blocks : List (TiFsHash × Bytes))
  | replace
  | clearFullHash (decrements : RefCounts)
  | changeIterationId (decrements : RefCounts)
  | sizePeek (decrements : RefCounts)
  | sizeUpdate (decrements : RefCounts)
  | decrement (decrements : RefCounts)
  | done
  deriving DecidableEq

structure WriteTask (cfg : TiFsConfig) where
  ino : StorageIno
  plan : WritePlan cfg
  phase : WritePhase

def WriteTask.step {cfg : TiFsConfig} (ambient : Ambient) (task : WriteTask cfg) (store : Store) :
    Except FsError (WriteTask cfg × Store) :=
  match task.phase with
  | .increment => do
      let (prev, after) ← atomically (hbIncrementBlocksReferenceCount cfg task.plan.increments) store
      return ({ task with phase := .upload (task.plan.blocksToUpload prev) }, after)
  | .upload blocks => do
      let (_, after) ← atomically (hbUploadNewBlock blocks) store
      return ({ task with phase := .replace }, after)
  | .replace => do
      let (decrements, after) ← atomically
        (hbReplaceBlockHashForAddressNoSizeUpdate cfg (task.plan.addressesToModify task.ino)) store
      return ({ task with phase := .clearFullHash decrements }, after)
  | .clearFullHash decrements => do
      let (_, after) ← atomically (delete (.inodeX task.ino .fullHash)) store
      return ({ task with phase := .changeIterationId decrements }, after)
  | .changeIterationId decrements => do
      let (_, after) ← atomically (put (.inodeX task.ino .changeIterationId) ambient.uuid) store
      return ({ task with phase := .sizePeek decrements }, after)
  | .sizePeek decrements => do
      let (sizePeek, after) ← atomically (fetch (.inodeX task.ino .size)) store
      if task.plan.maxFileSize > InoSize.size sizePeek then
        return ({ task with phase := .sizeUpdate decrements }, after)
      else return ({ task with phase := .decrement decrements }, after)
  | .sizeUpdate decrements => do
      let (_, after) ← atomically (hbReplaceBlockHashForAddressOnlySizeUpdateB cfg ambient.now
        task.ino task.plan.maxFileSize) store
      return ({ task with phase := .decrement decrements }, after)
  | .decrement decrements => do
      let (_, after) ← atomically
        (hbDecrementBlocksReferenceCountAndDeleteIfZeroReached cfg decrements) store
      return ({ task with phase := .done }, after)
  | .done => return (task, store)

section Plan

variable {cfg : TiFsConfig} (plan : WritePlan cfg)

theorem WritePlan.increments_hashes : plan.increments.map Prod.fst = plan.groups.map BlockGroup.hash := by
  simp only [WritePlan.increments, List.map_map]
  rfl

theorem WritePlan.increments_nodup : (plan.increments.map Prod.fst).Nodup := by
  rw [plan.increments_hashes]
  exact plan.hashes_nodup

theorem WritePlan.increments_lengths :
    ∀ hash ∈ plan.increments.map Prod.fst, hash.length = cfg.hashLen := by
  intro hash listed
  rw [plan.increments_hashes] at listed
  obtain ⟨group, member, rfl⟩ := List.mem_map.mp listed
  rw [plan.hash_eq group member]
  exact cfg.hash_length group.data

theorem WritePlan.addresses_fst (ino : StorageIno) :
    (plan.addressesToModify ino).map Prod.fst =
      (plan.groups.flatMap BlockGroup.ids).map (BlockAddress.mk ino) := by
  simp only [WritePlan.addressesToModify, List.map_flatMap, List.map_map]
  rfl

theorem WritePlan.addresses_nodup (ino : StorageIno) :
    ((plan.addressesToModify ino).map Prod.fst).Nodup := by
  rw [plan.addresses_fst]
  exact plan.ids_nodup.map fun _ _ same => (BlockAddress.mk.inj same).2

end Plan

def WritePhase.decrements : WritePhase → RefCounts
  | .clearFullHash decrements => decrements
  | .changeIterationId decrements => decrements
  | .sizePeek decrements => decrements
  | .sizeUpdate decrements => decrements
  | .decrement decrements => decrements
  | _ => ∅

structure WriteTask.Sound {cfg : TiFsConfig} (task : WriteTask cfg) : Prop where
  uploads : ∀ blocks, task.phase = .upload blocks → ∃ prev, blocks = task.plan.blocksToUpload prev
  lengths : ∀ hash ∈ task.phase.decrements, hash.length = cfg.hashLen

structure Uploaded (blocks : List (TiFsHash × Bytes)) (store after : Store) : Prop where
  stored : ∀ block ∈ blocks, blockData after block.1 = some block.2
  kept : ∀ hash, hash ∉ blocks.map Prod.fst → blockData after hash = blockData store hash
  frame : ∀ key : Key, (∀ hash, key ≠ .hashedBlock hash) → after.lookup key = store.lookup key

inductive WriteMove {cfg : TiFsConfig} (task : WriteTask cfg) (store : Store) :
    WritePhase → Store → Prop
  | incremented (prev : RefCounts) (after : Store) (current : task.phase = .increment)
      (counted : Incremented task.plan.increments store after prev) :
      WriteMove task store (.upload (task.plan.blocksToUpload prev)) after
  | uploaded (blocks : List (TiFsHash × Bytes)) (after : Store) (current : task.phase = .upload blocks)
      (stored : Uploaded blocks store after) : WriteMove task store .replace after
  | replaced (decrements : RefCounts) (after : Store) (current : task.phase = .replace)
      (placed : Replaced (task.plan.addressesToModify task.ino) store after decrements)
      (lengths : ∀ hash ∈ decrements, hash.length = cfg.hashLen) :
      WriteMove task store (.clearFullHash decrements) after
  | fullHashCleared (decrements : RefCounts) (current : task.phase = .clearFullHash decrements) :
      WriteMove task store (.changeIterationId decrements)
        (applyAll store [Mutation.delete (.inodeX task.ino .fullHash)])
  | iterationChanged (decrements : RefCounts) (uuid : Uuid)
      (current : task.phase = .changeIterationId decrements) :
      WriteMove task store (.sizePeek decrements)
        (applyAll store [Mutation.put (.inodeX task.ino .changeIterationId) uuid])
  | sizeTooSmall (decrements : RefCounts) (size : InoSize) (current : task.phase = .sizePeek decrements)
      (stored : inoSize store task.ino = some size) (small : size.size < task.plan.maxFileSize) :
      WriteMove task store (.sizeUpdate decrements) store
  | sizeEnough (decrements : RefCounts) (size : InoSize) (current : task.phase = .sizePeek decrements)
      (stored : inoSize store task.ino = some size) (enough : task.plan.maxFileSize ≤ size.size) :
      WriteMove task store (.decrement decrements) store
  | sizeUpdated (decrements : RefCounts) (size grown : InoSize)
      (current : task.phase = .sizeUpdate decrements) (stored : inoSize store task.ino = some size)
      (small : size.size < task.plan.maxFileSize) (isMax : grown.size = task.plan.maxFileSize) :
      WriteMove task store (.decrement decrements)
        (applyAll store [Mutation.put (.inodeX task.ino .size) grown])
  | sizeKept (decrements : RefCounts) (size : InoSize) (current : task.phase = .sizeUpdate decrements)
      (stored : inoSize store task.ino = some size) (enough : task.plan.maxFileSize ≤ size.size) :
      WriteMove task store (.decrement decrements) store
  | decremented (decrements : RefCounts) (after : Store) (current : task.phase = .decrement decrements)
      (counted : Decremented decrements store after) : WriteMove task store .done after
  | finished (current : task.phase = .done) : WriteMove task store .done store

theorem blocksToUpload_fst {cfg : TiFsConfig} (plan : WritePlan cfg) (prev : RefCounts) :
    (plan.blocksToUpload prev).map Prod.fst =
      (plan.groups.filter fun group => (prev.lookup group.hash).getD 0 = 0).map BlockGroup.hash := by
  simp only [WritePlan.blocksToUpload, List.map_map]
  rfl

theorem blocksToUpload_nodup {cfg : TiFsConfig} (plan : WritePlan cfg) (prev : RefCounts) :
    ((plan.blocksToUpload prev).map Prod.fst).Nodup := by
  rw [blocksToUpload_fst]
  exact plan.hashes_nodup.sublist (List.filter_sublist.map BlockGroup.hash)

theorem mem_tally_lengths {cfg : TiFsConfig} {hashes : List TiFsHash}
    (lengths : ∀ hash ∈ hashes, hash.length = cfg.hashLen) :
    ∀ hash ∈ tally hashes, hash.length = cfg.hashLen := by
  intro hash listed
  exact lengths hash ((mem_tally hashes hash).mp listed)

theorem sizeUpdateB_cases {cfg : TiFsConfig} {now : SystemTime} {ino : StorageIno} {target : Nat}
    {store after : Store}
    (ran : atomically (hbReplaceBlockHashForAddressOnlySizeUpdateB cfg now ino target) store =
      .ok ((), after)) :
    ∃ size, inoSize store ino = some size ∧
      ((size.size < target ∧ ∃ grown : InoSize, grown.size = target ∧
          after = applyAll store [Mutation.put (.inodeX ino .size) grown]) ∨
        (target ≤ size.size ∧ after = store)) := by
  cases stored : inoSize (Txn.mk store []).view ino with
  | none =>
      rw [atomically, hbReplaceBlockHashForAddressOnlySizeUpdateB,
        bind_error (fetch_of_none stored)] at ran
      cases ran
  | some size =>
      rw [atomically, hbReplaceBlockHashForAddressOnlySizeUpdateB,
        bind_ok (fetch_of_some stored)] at ran
      refine ⟨size, stored, ?_⟩
      by_cases small : size.size < target
      · rw [if_pos small] at ran
        obtain ⟨_, rfl⟩ := Prod.mk.inj (Except.ok.inj ran)
        exact Or.inl ⟨small, _, InoSize.setSize_size size target cfg.blockSize now, rfl⟩
      · rw [if_neg small] at ran
        obtain ⟨_, rfl⟩ := Prod.mk.inj (Except.ok.inj ran)
        exact Or.inr ⟨Nat.le_of_not_lt small, rfl⟩

theorem except_bind_eq_ok {E A B : Type} {first : Except E A} {next : A → Except E B} {result : B}
    (ran : (first >>= next) = .ok result) : ∃ middle, first = .ok middle ∧ next middle = .ok result := by
  cases first with
  | error issue => cases ran
  | ok middle => exact ⟨middle, rfl, ran⟩

theorem except_map_eq_ok {E A B : Type} {first : Except E A} {next : A → B} {result : B}
    (ran : first.map next = .ok result) : ∃ middle, first = .ok middle ∧ next middle = result := by
  cases first with
  | error issue => cases ran
  | ok middle => exact ⟨middle, rfl, Except.ok.inj ran⟩

theorem WriteTask.move_of_step {cfg : TiFsConfig} {ambient : Ambient} {task next : WriteTask cfg}
    {store after : Store} (sound : task.Sound) (ran : task.step ambient store = .ok (next, after)) :
    ∃ phase, next = { task with phase := phase } ∧ WriteMove task store phase after := by
  unfold WriteTask.step at ran
  split at ran
  · next current =>
      obtain ⟨prev, between, first, counted⟩ := increment_spec cfg store task.plan.increments
        task.plan.increments_lengths task.plan.increments_nodup
      rw [first] at ran
      obtain ⟨rfl, rfl⟩ := Prod.mk.inj (Except.ok.inj ran)
      exact ⟨_, rfl, .incremented prev between current counted⟩
  · next blocks current =>
      obtain ⟨prev, fromPlan⟩ := sound.uploads blocks current
      have distinct : (blocks.map Prod.fst).Nodup := by
        rw [fromPlan]
        exact blocksToUpload_nodup task.plan prev
      obtain ⟨between, first, stored, kept, frame⟩ := upload_spec store blocks distinct
      rw [first] at ran
      obtain ⟨rfl, rfl⟩ := Prod.mk.inj (Except.ok.inj ran)
      exact ⟨_, rfl, .uploaded blocks between current ⟨stored, kept, frame⟩⟩
  · next current =>
      obtain ⟨⟨decrements, between⟩, first, rest⟩ := except_bind_eq_ok ran
      obtain ⟨rfl, rfl⟩ := Prod.mk.inj (Except.ok.inj rest)
      rw [replace_run] at first
      split at first
      · next lengths =>
          obtain ⟨rfl, rfl⟩ := Prod.mk.inj (Except.ok.inj first)
          exact ⟨_, rfl, .replaced _ _ current (replaced_applyAll store _ (task.plan.addresses_nodup task.ino))
            (mem_tally_lengths lengths)⟩
      · cases first
  · next decrements current =>
      obtain ⟨rfl, rfl⟩ := Prod.mk.inj (Except.ok.inj ran)
      exact ⟨_, rfl, .fullHashCleared decrements current⟩
  · next decrements current =>
      obtain ⟨rfl, rfl⟩ := Prod.mk.inj (Except.ok.inj ran)
      exact ⟨_, rfl, .iterationChanged decrements ambient.uuid current⟩
  · next decrements current =>
      cases stored : inoSize (Txn.mk store []).view task.ino with
      | none =>
          rw [atomically, fetch_of_none stored] at ran
          cases ran
      | some size =>
          rw [atomically, fetch_of_some stored] at ran
          have chosen : (if task.plan.maxFileSize > size.size then
              (Except.ok ({ task with phase := .sizeUpdate decrements }, store) : Except FsError _)
              else Except.ok ({ task with phase := .decrement decrements }, store)) =
              .ok (next, after) := ran
          by_cases small : size.size < task.plan.maxFileSize
          · rw [if_pos small] at chosen
            obtain ⟨rfl, rfl⟩ := Prod.mk.inj (Except.ok.inj chosen)
            exact ⟨_, rfl, .sizeTooSmall decrements size current stored small⟩
          · rw [if_neg small] at chosen
            obtain ⟨rfl, rfl⟩ := Prod.mk.inj (Except.ok.inj chosen)
            exact ⟨_, rfl, .sizeEnough decrements size current stored (Nat.le_of_not_lt small)⟩
  · next decrements current =>
      obtain ⟨⟨_, between⟩, first, rest⟩ := except_bind_eq_ok ran
      obtain ⟨rfl, rfl⟩ := Prod.mk.inj (Except.ok.inj rest)
      obtain ⟨size, stored, ⟨small, grown, isMax, rfl⟩ | ⟨enough, rfl⟩⟩ := sizeUpdateB_cases first
      · exact ⟨_, rfl, .sizeUpdated decrements size grown current stored small isMax⟩
      · exact ⟨_, rfl, .sizeKept decrements size current stored enough⟩
  · next decrements current =>
      have lengths : ∀ hash ∈ decrements, hash.length = cfg.hashLen := by
        have all := sound.lengths
        rw [current] at all
        exact all
      obtain ⟨between, first, counted⟩ := decrement_spec cfg store decrements lengths
      rw [first] at ran
      obtain ⟨rfl, rfl⟩ := Prod.mk.inj (Except.ok.inj ran)
      exact ⟨_, rfl, .decremented decrements between current counted⟩
  · next current =>
      obtain ⟨rfl, rfl⟩ := Prod.mk.inj (Except.ok.inj ran)
      exact ⟨.done, by rw [← current], .finished current⟩

def WritePhase.isReplaced : WritePhase → Bool
  | .increment => false
  | .upload _ => false
  | .replace => false
  | _ => true

/-- What a move does to counters, blocks and mappings; the moves of the size and
of the other records of the inode do nothing to them. -/
inductive BlockMove {cfg : TiFsConfig} (task : WriteTask cfg) (store : Store) :
    WritePhase → Store → Prop
  | incremented (prev : RefCounts) (after : Store) (current : task.phase = .increment)
      (counted : Incremented task.plan.increments store after prev) :
      BlockMove task store (.upload (task.plan.blocksToUpload prev)) after
  | uploaded (blocks : List (TiFsHash × Bytes)) (after : Store) (current : task.phase = .upload blocks)
      (stored : Uploaded blocks store after) : BlockMove task store .replace after
  | replaced (decrements : RefCounts) (after : Store) (current : task.phase = .replace)
      (placed : Replaced (task.plan.addressesToModify task.ino) store after decrements)
      (lengths : ∀ hash ∈ decrements, hash.length = cfg.hashLen) :
      BlockMove task store (.clearFullHash decrements) after
  | decremented (decrements : RefCounts) (after : Store) (current : task.phase = .decrement decrements)
      (counted : Decremented decrements store after) : BlockMove task store .done after
  | quiet (phase : WritePhase) (after : Store)
      (frame : ∀ key : Key, (∀ kind, key ≠ .inodeX task.ino kind) →
        after.lookup key = store.lookup key)
      (before : task.phase.isReplaced) (later : phase.isReplaced)
      (owed : phase.decrements = task.phase.decrements) : BlockMove task store phase after

theorem WriteMove.blockMove {cfg : TiFsConfig} {task : WriteTask cfg} {store after : Store}
    {phase : WritePhase} (move : WriteMove task store phase after) :
    BlockMove task store phase after := by
  have inode : ∀ (kind : InoMetadata) (value : Option kind.Value) (key : Key),
      (∀ kind, key ≠ .inodeX task.ino kind) →
      (applyAll store [⟨.inodeX task.ino kind, value⟩]).lookup key = store.lookup key :=
    fun kind value key different => lookup_apply_of_ne store _ _ (different kind)
  cases move with
  | incremented prev after current counted => exact .incremented prev after current counted
  | uploaded blocks after current stored => exact .uploaded blocks after current stored
  | replaced decrements after current placed lengths =>
      exact .replaced decrements after current placed lengths
  | decremented decrements after current counted => exact .decremented decrements after current counted
  | fullHashCleared decrements current =>
      exact .quiet _ _ (inode .fullHash none) (by rw [current]; rfl) rfl (by rw [current]; rfl)
  | iterationChanged decrements uuid current =>
      exact .quiet _ _ (inode .changeIterationId (some uuid)) (by rw [current]; rfl) rfl
        (by rw [current]; rfl)
  | sizeUpdated decrements size grown current stored small isMax =>
      exact .quiet _ _ (inode .size (some grown)) (by rw [current]; rfl) rfl (by rw [current]; rfl)
  | sizeTooSmall decrements size current stored small =>
      exact .quiet _ _ (fun _ _ => rfl) (by rw [current]; rfl) rfl (by rw [current]; rfl)
  | sizeEnough decrements size current stored enough =>
      exact .quiet _ _ (fun _ _ => rfl) (by rw [current]; rfl) rfl (by rw [current]; rfl)
  | sizeKept decrements size current stored enough =>
      exact .quiet _ _ (fun _ _ => rfl) (by rw [current]; rfl) rfl (by rw [current]; rfl)
  | finished current =>
      exact .quiet _ _ (fun _ _ => rfl) (by rw [current]; rfl) rfl (by rw [current])

theorem WriteMove.sound {cfg : TiFsConfig} {task : WriteTask cfg} {store after : Store}
    {phase : WritePhase} (sound : task.Sound) (move : WriteMove task store phase after) :
    WriteTask.Sound { task with phase := phase } := by
  cases move.blockMove with
  | incremented prev after current counted =>
      refine ⟨fun blocks same => ⟨prev, (WritePhase.upload.inj same).symm⟩, ?_⟩
      exact fun hash listed => absurd listed (AList.notMem_empty hash)
  | uploaded blocks after current stored =>
      exact ⟨by simp, fun hash listed => absurd listed (AList.notMem_empty hash)⟩
  | replaced decrements after current placed lengths => exact ⟨by simp, lengths⟩
  | decremented decrements after current counted =>
      exact ⟨by simp, fun hash listed => absurd listed (AList.notMem_empty hash)⟩
  | quiet phase after frame before later owed =>
      constructor
      · intro blocks same
        simp only at same
        rw [same] at later
        cases later
      · simp only [owed]
        exact sound.lengths

/-- Of the replaced hashes the clearing of one block uses the first only. -/
inductive ClearPhase where
  | replace
  | sizeUpdate (prevHash : Option TiFsHash)
  | decrement (prevHash : Option TiFsHash)
  | done
  deriving DecidableEq, Repr

/-- `hb_clear_data_single_block`. -/
structure ClearTask where
  addr : BlockAddress
  doSizeUpdate : Bool
  phase : ClearPhase
  deriving DecidableEq, Repr

def ClearTask.step (cfg : TiFsConfig) (ambient : Ambient) (task : ClearTask) (store : Store) :
    Except FsError (ClearTask × Store) :=
  match task.phase with
  | .replace => do
      let (prevHash, after) ← atomically
        (hbReplaceBlockHashForAddressNoSizeUpdate cfg [(task.addr, none)]) store
      let prev := prevHash.keys.head?
      if task.doSizeUpdate then return ({ task with phase := .sizeUpdate prev }, after)
      else return ({ task with phase := .decrement prev }, after)
  | .sizeUpdate prevHash => do
      let (_, after) ← atomically
        (hbReplaceBlockHashForAddressOnlySizeUpdate cfg ambient.now task.addr 0) store
      return ({ task with phase := .decrement prevHash }, after)
  | .decrement none => return ({ task with phase := .done }, store)
  | .decrement (some prevHash) => do
      let (_, after) ← atomically
        (hbDecrementBlocksReferenceCountAndDeleteIfZeroReached cfg (collect [(prevHash, 1)])) store
      return ({ task with phase := .done }, after)
  | .done => return (task, store)

inductive ClonePhase where
  | increment
  | map
  | done
  deriving DecidableEq, Repr

/-- `inode_clone_data` with the hashes it has read from the snapshot: one of a
wrong length was skipped there. -/
structure CloneTask (cfg : TiFsConfig) where
  dst : StorageIno
  hashes : BlockHashes
  phase : ClonePhase
  lengths : ∀ entry ∈ hashes.entries, entry.2.length = cfg.hashLen

namespace CloneTask

variable {cfg : TiFsConfig}

def blockIncs (task : CloneTask cfg) : List (TiFsHash × Nat) :=
  (tally (task.hashes.entries.map Sigma.snd)).entries.map fun entry => (entry.1, entry.2)

def addresses (task : CloneTask cfg) : List (BlockAddress × Option TiFsHash) :=
  task.hashes.entries.map fun entry => (⟨task.dst, entry.1⟩, some entry.2)

def step (task : CloneTask cfg) (store : Store) : Except FsError (CloneTask cfg × Store) :=
  match task.phase with
  | .increment => do
      let (_, after) ← atomically (hbIncrementBlocksReferenceCount cfg task.blockIncs) store
      return ({ task with phase := .map }, after)
  | .map => do
      let (_, after) ← atomically (batchMutate (task.addresses.map addressWrite)) store
      return ({ task with phase := .done }, after)
  | .done => return (task, store)

end CloneTask

/-- An operation in flight or done, or one that ended early: with the error of a
transaction that failed, or with none when it was abandoned. -/
inductive Op (cfg : TiFsConfig) where
  | write (task : WriteTask cfg)
  | clear (task : ClearTask)
  | clone (task : CloneTask cfg)
  | ended (failure : Option FsError)

inductive Work (cfg : TiFsConfig) where
  | write (ino : StorageIno) (plan : WritePlan cfg)
  | clear (addr : BlockAddress) (doSizeUpdate : Bool)
  | clone (dst : StorageIno) (hashes : BlockHashes)
      (lengths : ∀ entry ∈ hashes.entries, entry.2.length = cfg.hashLen)

def Work.start {cfg : TiFsConfig} : Work cfg → Op cfg
  | .write ino plan => .write ⟨ino, plan, .increment⟩
  | .clear addr doSizeUpdate => .clear ⟨addr, doSizeUpdate, .replace⟩
  | .clone dst hashes lengths => .clone ⟨dst, hashes, .increment, lengths⟩

def Op.step {cfg : TiFsConfig} (ambient : Ambient) (store : Store) :
    Op cfg → Except FsError (Op cfg × Store)
  | .write task => (task.step ambient store).map fun result => (.write result.1, result.2)
  | .clear task => (task.step cfg ambient store).map fun result => (.clear result.1, result.2)
  | .clone task => (task.step store).map fun result => (.clone result.1, result.2)
  | .ended failure => .ok (.ended failure, store)

theorem Op.move_of_step {cfg : TiFsConfig} {ambient : Ambient} {task : WriteTask cfg} {next : Op cfg}
    {store after : Store} (sound : task.Sound)
    (ran : (Op.write task).step ambient store = .ok (next, after)) :
    ∃ phase, next = .write { task with phase := phase } ∧ WriteMove task store phase after := by
  obtain ⟨result, moved, isNext⟩ := except_map_eq_ok ran
  obtain ⟨rfl, rfl⟩ := Prod.mk.inj isNext
  obtain ⟨phase, equal, move⟩ := WriteTask.move_of_step sound moved
  exact ⟨phase, by rw [equal], move⟩

structure BlockSystem (cfg : TiFsConfig) where
  store : Store
  ops : List (Op cfg)

inductive BlockEvent (cfg : TiFsConfig) where
  | spawn (work : Work cfg)
  | advance (op : Nat) (ambient : Ambient)
  | abandon (op : Nat)

/-- A transaction that fails is rolled back, and its operation returns the error. -/
def BlockSystem.step {cfg : TiFsConfig} (state : BlockSystem cfg) :
    BlockEvent cfg → Option (BlockSystem cfg)
  | .spawn work => some { state with ops := state.ops ++ [work.start] }
  | .advance i ambient =>
      match state.ops[i]? with
      | some op =>
          match op.step ambient state.store with
          | .ok (next, after) => some ⟨after, state.ops.set i next⟩
          | .error issue => some { state with ops := state.ops.set i (.ended (some issue)) }
      | none => none
  | .abandon i =>
      match state.ops[i]? with
      | some _ => some { state with ops := state.ops.set i (.ended none) }
      | none => none

def BlockSystem.Step {cfg : TiFsConfig} (before : BlockSystem cfg) (event : BlockEvent cfg)
    (after : BlockSystem cfg) : Prop :=
  before.step event = some after

theorem BlockSystem.exists_run {cfg : TiFsConfig} (allowed : BlockSystem cfg → BlockEvent cfg → Prop)
    [∀ state event, Decidable (allowed state event)] (first : BlockSystem cfg)
    (events : List (BlockEvent cfg)) (check : BlockSystem cfg → Bool)
    (ran : (runAll (restrict allowed BlockSystem.step) first events).any check = true) :
    ∃ last, Run BlockSystem.Step allowed first last ∧ check last = true :=
  Run.of_restrict (fun _ _ _ taken => taken) events check ran

inductive BlockSystem.Effect {cfg : TiFsConfig} (state : BlockSystem cfg) :
    BlockEvent cfg → BlockSystem cfg → Prop
  | spawned (work : Work cfg) :
      Effect state (.spawn work) ⟨state.store, state.ops ++ [work.start]⟩
  | moved (i : Nat) (ambient : Ambient) (op next : Op cfg) (after : Store)
      (present : state.ops[i]? = some op) (ran : op.step ambient state.store = .ok (next, after)) :
      Effect state (.advance i ambient) ⟨after, state.ops.set i next⟩
  | failed (i : Nat) (ambient : Ambient) (op : Op cfg) (issue : FsError)
      (present : state.ops[i]? = some op) (ran : op.step ambient state.store = .error issue) :
      Effect state (.advance i ambient) ⟨state.store, state.ops.set i (.ended (some issue))⟩
  | abandoned (i : Nat) (op : Op cfg) (present : state.ops[i]? = some op) :
      Effect state (.abandon i) ⟨state.store, state.ops.set i (.ended none)⟩

theorem BlockSystem.effect_of_step {cfg : TiFsConfig} {before after : BlockSystem cfg}
    {event : BlockEvent cfg} (taken : before.Step event after) : before.Effect event after := by
  unfold BlockSystem.Step BlockSystem.step at taken
  cases event with
  | spawn work =>
      obtain rfl := Option.some.inj taken
      exact .spawned work
  | advance i ambient =>
      simp only at taken
      split at taken
      · next op present =>
          split at taken
          · next next store ran =>
              obtain rfl := Option.some.inj taken
              exact .moved i ambient op next store present ran
          · next issue ran =>
              obtain rfl := Option.some.inj taken
              exact .failed i ambient op issue present ran
      · cases taken
  | abandon i =>
      simp only at taken
      split at taken
      · next op present =>
          obtain rfl := Option.some.inj taken
          exact .abandoned i op present
      · cases taken

end TiFs
