import TiFs.BlockData
import TiFs.WriteCall

/-! The tasks of writes carry out what a file is to contain: as long as none of
them fails, the mappings, blocks and sizes in the store together with what the
tasks still have to write are one file, whatever the order of their transactions. -/

namespace TiFs

open KeyValue Tables

def WritePhase.sizePending : WritePhase → Bool
  | .decrement _ => false
  | .done => false
  | _ => true

section Move

variable {cfg : TiFsConfig} {task : WriteTask cfg} {store after : Store} {phase : WritePhase}

theorem WriteMove.size_cases (move : WriteMove task store phase after) {size : InoSize}
    (stored : inoSize store task.ino = some size) :
    (inoSize after task.ino = some size ∧
        (phase.sizePending = task.phase.sizePending ∨
          (phase.sizePending = false ∧ task.plan.maxFileSize ≤ size.size))) ∨
      ∃ grown, inoSize after task.ino = some grown ∧ grown.size = task.plan.maxFileSize ∧
        size.size < task.plan.maxFileSize ∧ task.phase.sizePending = true ∧
        phase.sizePending = false := by
  have other : ∀ (kind : InoMetadata) (value : Option kind.Value), kind ≠ .size →
      inoSize (applyAll store [⟨.inodeX task.ino kind, value⟩]) task.ino = some size := by
    intro kind value different
    rw [← stored]
    exact lookup_apply_of_ne store _ _ (by simpa using different.symm)
  cases move with
  | incremented prev after current counted =>
      left
      rw [inoSize, counted.frame (.inodeX task.ino .size) (by simp), current]
      exact ⟨stored, Or.inl rfl⟩
  | uploaded blocks after current uploaded =>
      left
      rw [inoSize, uploaded.frame (.inodeX task.ino .size) (by simp), current]
      exact ⟨stored, Or.inl rfl⟩
  | replaced decrements after current placed lengths =>
      left
      rw [inoSize, placed.frame (.inodeX task.ino .size) (by simp), current]
      exact ⟨stored, Or.inl rfl⟩
  | fullHashCleared decrements current =>
      left
      rw [current]
      exact ⟨other .fullHash none (by simp), Or.inl rfl⟩
  | iterationChanged decrements uuid current =>
      left
      rw [current]
      exact ⟨other .changeIterationId (some uuid) (by simp), Or.inl rfl⟩
  | sizeTooSmall decrements size' current found small =>
      left
      rw [current]
      exact ⟨stored, Or.inl rfl⟩
  | sizeEnough decrements size' current found enough =>
      left
      rw [stored] at found
      obtain rfl := Option.some.inj found
      exact ⟨stored, Or.inr ⟨rfl, enough⟩⟩
  | sizeUpdated decrements size' grown current found small isMax =>
      right
      rw [stored] at found
      obtain rfl := Option.some.inj found
      refine ⟨grown, ?_, isMax, small, by rw [current]; rfl, rfl⟩
      exact lookup_apply_self store (Mutation.put (.inodeX task.ino .size) grown)
  | sizeKept decrements size' current found enough =>
      left
      rw [stored] at found
      obtain rfl := Option.some.inj found
      exact ⟨stored, Or.inr ⟨rfl, enough⟩⟩
  | decremented decrements after current counted =>
      left
      rw [inoSize, counted.frame (.inodeX task.ino .size) (by simp) (by simp), current]
      exact ⟨stored, Or.inl rfl⟩
  | finished current =>
      left
      rw [current]
      exact ⟨stored, Or.inl rfl⟩

theorem WriteTask.step_ok (ambient : Ambient) (sound : task.Sound)
    (lengths : ∀ hash ∈ prevHashes store (task.plan.addressesToModify task.ino),
      hash.length = cfg.hashLen)
    {size : InoSize} (stored : inoSize store task.ino = some size) :
    ∃ result, task.step ambient store = .ok result := by
  have view : (Txn.mk store []).view.lookup (.inodeX task.ino .size) = some size := stored
  unfold WriteTask.step
  split
  · obtain ⟨prev, between, first, _⟩ := increment_spec cfg store task.plan.increments
      task.plan.increments_lengths task.plan.increments_nodup
    rw [first]
    exact ⟨_, rfl⟩
  · exact ⟨_, rfl⟩
  · rw [replace_run, if_pos lengths]
    exact ⟨_, rfl⟩
  · exact ⟨_, rfl⟩
  · exact ⟨_, rfl⟩
  · next decrements current =>
      have read : atomically (fetch (.inodeX task.ino .size)) store = .ok (size, store) := by
        rw [atomically, fetch_of_some view]
        rfl
      rw [read]
      by_cases small : task.plan.maxFileSize > size.size
      · exact ⟨_, if_pos small⟩
      · exact ⟨_, if_neg small⟩
  · next decrements current =>
      rw [atomically, hbReplaceBlockHashForAddressOnlySizeUpdateB, bind_ok (fetch_of_some view)]
      by_cases small : task.plan.maxFileSize > size.size
      · rw [if_pos small]
        exact ⟨_, rfl⟩
      · rw [if_neg small]
        exact ⟨_, rfl⟩
  · next decrements current =>
      have fits : ∀ hash ∈ decrements, hash.length = cfg.hashLen := by
        have all := sound.lengths
        rw [current] at all
        exact all
      obtain ⟨between, first, _⟩ := decrement_spec cfg store decrements fits
      rw [first]
      exact ⟨_, rfl⟩
  · exact ⟨_, rfl⟩

end Move

def Op.pendingWrites {cfg : TiFsConfig} : Op cfg → List (BlockAddress × Option TiFsHash)
  | .write task => if task.phase.isReplaced then [] else task.plan.addressesToModify task.ino
  | _ => []

def WritePhase.uploads : WritePhase → List (TiFsHash × Bytes)
  | .upload blocks => blocks
  | _ => []

def Op.uploads {cfg : TiFsConfig} : Op cfg → List (TiFsHash × Bytes)
  | .write task => task.phase.uploads
  | _ => []

/-- The mappings and blocks of a store and what the tasks in flight on one inode have still
to write, whatever the counters are. -/
structure TasksRefine {cfg : TiFsConfig} (ino : StorageIno) (involved : Set Bytes) (file : FileMap)
    (state : BlockSystem cfg) : Prop where
  sound : ∀ op ∈ state.ops, op.Sound
  tasks : ∀ op ∈ state.ops, ∃ task, op = .write task ∧ task.ino = ino ∧
    ∀ group ∈ task.plan.groups, group.data ∈ involved
  addressed : ∀ hash data, blockData state.store hash = some data → Addressed cfg involved hash data
  lengths : ∀ index hash, mapping state.store ⟨ino, index⟩ = some hash → hash.length = cfg.hashLen
  pending : ∀ op ∈ state.ops, ∀ write ∈ op.pendingWrites,
    write.2 = (file.content write.1.index).map cfg.calculateHash
  mapped : ∀ index : Nat, (∀ op ∈ state.ops, (⟨ino, index⟩ : BlockAddress) ∉ op.pendingWrites.map Prod.fst) →
    mapping state.store ⟨ino, index⟩ = (file.content index).map cfg.calculateHash
  sized : (inoSize state.store ino).isSome

/-- The store and the tasks in flight on one inode as one file. -/
structure BlocksRefine {cfg : TiFsConfig} (ino : StorageIno) (involved : Set Bytes) (file : FileMap)
    (state : BlockSystem cfg) : Prop where
  covered : state.Covered
  tasks : ∀ op ∈ state.ops, ∃ task, op = .write task ∧ task.ino = ino ∧
    ∀ group ∈ task.plan.groups, group.data ∈ involved
  addressed : ∀ hash data, blockData state.store hash = some data → Addressed cfg involved hash data
  backed : ∀ hash, 0 < counter state.store hash →
    (blockData state.store hash).isSome ∨ ∃ op ∈ state.ops, hash ∈ op.uploads.map Prod.fst
  pending : ∀ op ∈ state.ops, ∀ write ∈ op.pendingWrites,
    write.2 = (file.content write.1.index).map cfg.calculateHash
  mapped : ∀ index : Nat, (∀ op ∈ state.ops, (⟨ino, index⟩ : BlockAddress) ∉ op.pendingWrites.map Prod.fst) →
    mapping state.store ⟨ino, index⟩ = (file.content index).map cfg.calculateHash
  size : ∃ size, inoSize state.store ino = some size ∧ size.size ≤ file.size ∧
    (size.size = file.size ∨ ∃ task, .write task ∈ state.ops ∧ task.phase.sizePending = true ∧
      task.plan.maxFileSize = file.size)
  sizes : ∀ task, .write task ∈ state.ops → task.phase.sizePending = true →
    task.plan.maxFileSize ≤ file.size

section Refine

variable {cfg : TiFsConfig} {ino : StorageIno} {involved : Set Bytes} {file : FileMap}
  {state : BlockSystem cfg}

theorem uploads_of_plan {task : WriteTask cfg} (sound : task.Sound) {block : TiFsHash × Bytes}
    (listed : block ∈ (Op.write task).uploads) :
    ∃ group ∈ task.plan.groups, block = (group.hash, group.data) := by
  simp only [Op.uploads] at listed
  unfold WritePhase.uploads at listed
  split at listed
  · next blocks current =>
      obtain ⟨prev, rfl⟩ := sound.uploads blocks current
      obtain ⟨group, member, rfl⟩ := List.mem_map.mp listed
      exact ⟨group, List.mem_of_mem_filter member, rfl⟩
  · cases listed

theorem uploads_addressed {task : WriteTask cfg} (sound : task.Sound)
    (data : ∀ group ∈ task.plan.groups, group.data ∈ involved) {block : TiFsHash × Bytes}
    (listed : block ∈ (Op.write task).uploads) : Addressed cfg involved block.1 block.2 := by
  obtain ⟨group, inPlan, rfl⟩ := uploads_of_plan sound listed
  exact ⟨data group inPlan, (task.plan.hash_eq group inPlan).symm⟩

theorem BlocksRefine.counted_length (refines : BlocksRefine ino involved file state) {hash : TiFsHash}
    (counted : 0 < counter state.store hash) : hash.length = cfg.hashLen := by
  rcases refines.backed hash counted with stored | ⟨op, member, listed⟩
  · obtain ⟨data, found⟩ := Option.isSome_iff_exists.mp stored
    rw [← (refines.addressed hash data found).2]
    exact cfg.hash_length data
  · obtain ⟨task, rfl, _, data⟩ := refines.tasks op member
    obtain ⟨block, inUploads, rfl⟩ := List.mem_map.mp listed
    have addressed := uploads_addressed (refines.covered.sound _ member) data inUploads
    rw [← addressed.2]
    exact cfg.hash_length block.2

theorem BlocksRefine.tasksRefine (refines : BlocksRefine ino involved file state) :
    TasksRefine ino involved file state where
  sound := refines.covered.sound
  tasks := refines.tasks
  addressed := refines.addressed
  lengths := fun _ _ found => refines.counted_length (refines.covered.counter_pos_of_mapping found)
  pending := refines.pending
  mapped := refines.mapped
  sized := by
    obtain ⟨size, stored, _⟩ := refines.size
    exact Option.isSome_iff_exists.mpr ⟨size, stored⟩

theorem TasksRefine.step_ok (refines : TasksRefine ino involved file state) (ambient : Ambient)
    {task : WriteTask cfg} (member : .write task ∈ state.ops) :
    ∃ result, task.step ambient state.store = .ok result := by
  obtain ⟨other, same, isIno, _⟩ := refines.tasks _ member
  obtain rfl := Op.write.inj same
  obtain ⟨size, stored⟩ := Option.isSome_iff_exists.mp refines.sized
  rw [← isIno] at stored
  refine WriteTask.step_ok ambient (refines.sound _ member) ?_ stored
  intro hash listed
  obtain ⟨address, inPlan, found⟩ := List.mem_filterMap.mp listed
  obtain ⟨group, _, id, _, rfl⟩ := (mem_addressesToModify task.plan).mp inPlan
  rw [isIno] at found
  exact refines.lengths id hash found

theorem BlocksRefine.step_ok (refines : BlocksRefine ino involved file state) (ambient : Ambient)
    {task : WriteTask cfg} (member : .write task ∈ state.ops) :
    ∃ result, task.step ambient state.store = .ok result :=
  refines.tasksRefine.step_ok ambient member

theorem pendingWrites_of_replaced {task : WriteTask cfg} (replaced : task.phase.isReplaced) :
    (Op.write task).pendingWrites = [] := by
  simp only [Op.pendingWrites, replaced, if_true]

theorem uploads_of_replaced {phase : WritePhase} (replaced : phase.isReplaced) :
    phase.uploads = [] := by
  cases phase with
  | upload blocks => cases replaced
  | _ => rfl

section Pending

variable {task : WriteTask cfg} {phase : WritePhase} {before store : Store}

/-- A move writes all the mappings of its task or none. -/
theorem WriteMove.pending_cases (move : WriteMove task before phase store) :
    (Op.write { task with phase := phase }).pendingWrites = (Op.write task).pendingWrites ∧
        (∀ addr, mapping store addr = mapping before addr) ∨
      (Op.write { task with phase := phase }).pendingWrites = [] ∧
        (∀ write ∈ (Op.write task).pendingWrites, mapping store write.1 = write.2) ∧
        ∀ addr, addr ∉ (Op.write task).pendingWrites.map Prod.fst →
          mapping store addr = mapping before addr := by
  cases move.blockMove with
  | incremented prev after current counted =>
      left
      refine ⟨?_, fun addr => counted.frame (.blockHash addr) (by simp)⟩
      simp [Op.pendingWrites, current, WritePhase.isReplaced]
  | uploaded blocks after current uploaded =>
      left
      refine ⟨?_, fun addr => uploaded.frame (.blockHash addr) (by simp)⟩
      simp [Op.pendingWrites, current, WritePhase.isReplaced]
  | replaced decrements after current placed lengths =>
      right
      have all : (Op.write task).pendingWrites = task.plan.addressesToModify task.ino := by
        simp [Op.pendingWrites, current, WritePhase.isReplaced]
      rw [all]
      exact ⟨rfl, placed.placed, placed.kept⟩
  | decremented decrements after current counted =>
      left
      refine ⟨?_, fun addr => counted.frame (.blockHash addr) (by simp) (by simp)⟩
      simp only [Op.pendingWrites, current, WritePhase.isReplaced]
  | quiet phase after frame earlier later owed =>
      left
      refine ⟨?_, fun addr => frame (.blockHash addr) (by simp)⟩
      simp only [Op.pendingWrites, earlier, later]

theorem WriteMove.sizePending (move : WriteMove task before phase store)
    (pending : phase.sizePending = true) : task.phase.sizePending = true := by
  cases move with
  | decremented decrements after current counted => cases pending
  | finished current => cases pending
  | sizeEnough decrements size current found enough => cases pending
  | sizeUpdated decrements size grown current found small isMax => cases pending
  | sizeKept decrements size current found enough => cases pending
  | incremented prev after current counted => rw [current]; rfl
  | uploaded blocks after current stored => rw [current]; rfl
  | replaced decrements after current placed lengths => rw [current]; rfl
  | fullHashCleared decrements current => rw [current]; rfl
  | iterationChanged decrements uuid current => rw [current]; rfl
  | sizeTooSmall decrements size current found small => rw [current]; rfl

theorem WriteMove.done (move : WriteMove task before phase store) (isDone : task.phase = .done) :
    phase = .done := by
  cases move with
  | finished current => rfl
  | decremented decrements after current counted => rfl
  | _ => simp_all

end Pending

theorem TasksRefine.move_of_step (refines : TasksRefine ino involved file state) {i : Nat}
    {ambient : Ambient} {after : BlockSystem cfg} (taken : state.Step (.advance i ambient) after) :
    ∃ task phase store, state.ops[i]? = some (.write task) ∧ WriteMove task state.store phase store ∧
      after = ⟨store, state.ops.set i (.write { task with phase := phase })⟩ := by
  cases BlockSystem.effect_of_step taken with
  | moved i ambient op next store present ran =>
      have member := List.mem_of_getElem? present
      obtain ⟨task, rfl, _⟩ := refines.tasks op member
      obtain ⟨phase, rfl, move⟩ := Op.move_of_step (refines.sound _ member) ran
      exact ⟨task, phase, store, present, move, rfl⟩
  | failed i ambient op issue present ran =>
      have member := List.mem_of_getElem? present
      obtain ⟨task, rfl, _⟩ := refines.tasks op member
      obtain ⟨result, succeeded⟩ := refines.step_ok ambient member
      rw [Op.step, succeeded] at ran
      cases ran

theorem BlocksRefine.move_of_step (refines : BlocksRefine ino involved file state) {i : Nat}
    {ambient : Ambient} {after : BlockSystem cfg} (taken : state.Step (.advance i ambient) after) :
    ∃ task phase store, state.ops[i]? = some (.write task) ∧ WriteMove task state.store phase store ∧
      after = ⟨store, state.ops.set i (.write { task with phase := phase })⟩ :=
  refines.tasksRefine.move_of_step taken

section TasksMoved

variable {i : Nat} {task : WriteTask cfg} {phase : WritePhase} {store : Store}
  (refines : TasksRefine ino involved file state) (present : state.ops[i]? = some (.write task))
  (move : WriteMove task state.store phase store)

include refines present move

theorem moved_addressed {hash : TiFsHash} {data : Bytes} (found : blockData store hash = some data) :
    Addressed cfg involved hash data := by
  cases move.blockMove with
  | incremented prev after current counted =>
      rw [blockData, counted.frame (.hashedBlock hash) (by simp)] at found
      exact refines.addressed hash data found
  | uploaded blocks after current uploaded =>
      by_cases listed : hash ∈ blocks.map Prod.fst
      · obtain ⟨block, member, rfl⟩ := List.mem_map.mp listed
        rw [uploaded.stored block member] at found
        obtain rfl := Option.some.inj found
        have inOps := List.mem_of_getElem? present
        obtain ⟨other, same, _, inPlan⟩ := refines.tasks _ inOps
        obtain rfl := Op.write.inj same
        refine uploads_addressed (refines.sound _ inOps) inPlan ?_
        rw [Op.uploads, current]
        exact member
      · rw [uploaded.kept hash listed] at found
        exact refines.addressed hash data found
  | replaced decrements after current placed lengths =>
      rw [blockData, placed.frame (.hashedBlock hash) (by simp)] at found
      exact refines.addressed hash data found
  | decremented decrements after current counted =>
      exact refines.addressed hash data (counted.old hash data found)
  | quiet phase after frame before later owed =>
      rw [blockData, frame (.hashedBlock hash) (by simp)] at found
      exact refines.addressed hash data found

theorem moved_mapped {index : Nat}
    (free : ∀ op ∈ state.ops.set i (.write { task with phase := phase }),
      (⟨ino, index⟩ : BlockAddress) ∉ op.pendingWrites.map Prod.fst) :
    mapping store ⟨ino, index⟩ = (file.content index).map cfg.calculateHash := by
  have inOps := List.mem_of_getElem? present
  have own : Op.write { task with phase := phase } ∈
      state.ops.set i (.write { task with phase := phase }) :=
    List.mem_set (List.getElem?_eq_some_iff.mp present).1 _
  have others : (⟨ino, index⟩ : BlockAddress) ∉ (Op.write task).pendingWrites.map Prod.fst →
      mapping state.store ⟨ino, index⟩ = (file.content index).map cfg.calculateHash := by
    intro notOwn
    apply refines.mapped index
    intro op member
    rcases eq_or_mem_set present member (.write { task with phase := phase }) with rfl | still
    · exact notOwn
    · exact free op still
  rcases move.pending_cases with ⟨same, kept⟩ | ⟨_, placed, kept⟩
  · rw [kept]
    apply others
    rw [← same]
    exact free _ own
  · by_cases listed : (⟨ino, index⟩ : BlockAddress) ∈ (Op.write task).pendingWrites.map Prod.fst
    · obtain ⟨write, member, isAddr⟩ := List.mem_map.mp listed
      have isHash := refines.pending _ inOps write member
      have isMapped := placed write member
      rw [isAddr] at isHash isMapped
      rw [isMapped, isHash]
    · rw [kept _ listed]
      exact others listed

end TasksMoved

theorem TasksRefine.advance (refines : TasksRefine ino involved file state) {i : Nat}
    {ambient : Ambient} {after : BlockSystem cfg} (taken : state.Step (.advance i ambient) after) :
    TasksRefine ino involved file after := by
  obtain ⟨task, phase, store, present, move, rfl⟩ := refines.move_of_step taken
  have inOps := List.mem_of_getElem? present
  obtain ⟨task', same, isIno, inPlan⟩ := refines.tasks _ inOps
  obtain rfl := Op.write.inj same
  constructor
  · intro op member
    rcases List.mem_or_eq_of_mem_set member with old | rfl
    · exact refines.sound op old
    · exact move.sound (refines.sound _ inOps)
  · intro op member
    rcases List.mem_or_eq_of_mem_set member with old | rfl
    · exact refines.tasks op old
    · exact ⟨_, rfl, isIno, inPlan⟩
  · exact fun hash data found => moved_addressed refines present move found
  · intro index hash found
    rcases move.blockMove.mapping_cases found with old | ⟨_, listed⟩
    · exact refines.lengths index hash old
    · obtain ⟨group, member, _, _, isWrite⟩ := (mem_addressesToModify task.plan).mp listed
      rw [Option.some.inj (Prod.mk.inj isWrite).2, task.plan.hash_eq group member]
      exact cfg.hash_length group.data
  · intro op member write listed
    rcases List.mem_or_eq_of_mem_set member with old | rfl
    · exact refines.pending op old write listed
    · rcases move.pending_cases with ⟨unchanged, _⟩ | ⟨none, _⟩
      · rw [unchanged] at listed
        exact refines.pending _ inOps write listed
      · rw [none] at listed
        cases listed
  · exact fun index free => moved_mapped refines present move free
  · obtain ⟨size, stored⟩ := Option.isSome_iff_exists.mp refines.sized
    rw [← isIno] at stored
    rw [← isIno]
    rcases move.size_cases stored with ⟨kept, _⟩ | ⟨grown, isGrown, _⟩
    · exact Option.isSome_iff_exists.mpr ⟨size, kept⟩
    · exact Option.isSome_iff_exists.mpr ⟨grown, isGrown⟩

section Moved

variable {i : Nat} {task : WriteTask cfg} {phase : WritePhase} {store : Store}
  (refines : BlocksRefine ino involved file state) (present : state.ops[i]? = some (.write task))
  (move : WriteMove task state.store phase store)

include refines present move

theorem moved_backed {hash : TiFsHash} (counted : 0 < counter store hash) :
    (blockData store hash).isSome ∨
      ∃ op ∈ state.ops.set i (.write { task with phase := phase }), hash ∈ op.uploads.map Prod.fst := by
  -- The other uploads stay; what the task itself was about to upload is considered by the move.
  have later : 0 < counter state.store hash → hash ∉ task.phase.uploads.map Prod.fst →
      (blockData store hash).isSome ∨
        ∃ op ∈ state.ops.set i (.write { task with phase := phase }), hash ∈ op.uploads.map Prod.fst := by
    intro before notOwn
    rcases refines.backed hash before with stored | ⟨op, member, listed⟩
    · rcases move.blockMove.data_kept stored with kept | zero
      · exact Or.inl kept
      · omega
    · rcases eq_or_mem_set present member (.write { task with phase := phase }) with rfl | still
      · exact absurd listed notOwn
      · exact Or.inr ⟨op, still, listed⟩
  have own : state.ops[i]? = some (.write task) → i < state.ops.length :=
    fun found => (List.getElem?_eq_some_iff.mp found).1
  cases move.blockMove with
  | incremented prev after current raised =>
      have noUploads : hash ∉ task.phase.uploads.map Prod.fst := by
        rw [current]
        exact List.not_mem_nil
      by_cases before : 0 < counter state.store hash
      · exact later before noUploads
      · have new : 0 < amount task.plan.increments hash := by
          rw [raised.counted hash] at counted
          omega
        obtain ⟨group, member, rfl⟩ := task.plan.mem_of_amount_pos new
        refine Or.inr ⟨_, List.mem_set (own present) _, ?_⟩
        refine mem_blocksToUpload task.plan member ?_
        rw [raised.previous group.hash]
        · omega
        · rw [task.plan.increments_hashes]
          exact List.mem_map_of_mem member
  | uploaded blocks after current uploaded =>
      by_cases listed : hash ∈ blocks.map Prod.fst
      · left
        obtain ⟨block, member, rfl⟩ := List.mem_map.mp listed
        rw [uploaded.stored block member]
        rfl
      · refine later ?_ (by rw [current]; exact listed)
        rwa [counter, ← uploaded.frame (.countedNamedUsages hash) (by simp)]
  | replaced decrements after current placed lengths =>
      refine later ?_ (by rw [current]; exact List.not_mem_nil)
      rwa [counter, ← placed.frame (.countedNamedUsages hash) (by simp)]
  | decremented decrements after current lowered =>
      refine later ?_ (by rw [current]; exact List.not_mem_nil)
      rw [lowered.counted hash] at counted
      omega
  | quiet phase after frame before isReplaced owed =>
      refine later ?_ (by rw [uploads_of_replaced before]; exact List.not_mem_nil)
      rwa [counter, ← frame (.countedNamedUsages hash) (by simp)]

theorem moved_size :
    (∃ size, inoSize store ino = some size ∧ size.size ≤ file.size ∧
      (size.size = file.size ∨ ∃ other,
        Op.write other ∈ state.ops.set i (.write { task with phase := phase }) ∧
          other.phase.sizePending = true ∧ other.plan.maxFileSize = file.size)) := by
  have inOps := List.mem_of_getElem? present
  have own : Op.write { task with phase := phase } ∈
      state.ops.set i (.write { task with phase := phase }) :=
    List.mem_set (List.getElem?_eq_some_iff.mp present).1 _
  obtain ⟨task', same, isIno, _⟩ := refines.tasks _ inOps
  obtain rfl := Op.write.inj same
  obtain ⟨size, stored, below, reached⟩ := refines.size
  rw [← isIno] at stored
  rw [← isIno]
  rcases move.size_cases stored with ⟨kept, pending⟩ | ⟨grown, isGrown, isMax, small, was, _⟩
  · refine ⟨size, kept, below, ?_⟩
    rcases reached with equal | ⟨other, member, isPending, isMax⟩
    · exact Or.inl equal
    · rcases eq_or_mem_set present member (.write { task with phase := phase }) with equal | still
      · obtain rfl := Op.write.inj equal
        rcases pending with unchanged | ⟨_, enough⟩
        · exact Or.inr ⟨_, own, unchanged.trans isPending, isMax⟩
        · left
          omega
      · exact Or.inr ⟨other, still, isPending, isMax⟩
  · have bound := refines.sizes task inOps was
    refine ⟨grown, isGrown, by omega, ?_⟩
    rcases reached with equal | ⟨other, member, isPending, otherMax⟩
    · omega
    · rcases eq_or_mem_set present member (.write { task with phase := phase }) with equal | still
      · obtain rfl := Op.write.inj equal
        left
        omega
      · exact Or.inr ⟨other, still, isPending, otherMax⟩

end Moved

/-- The transactions of the tasks change nothing about the file. -/
theorem BlocksRefine.advance (refines : BlocksRefine ino involved file state) {i : Nat}
    {ambient : Ambient} {after : BlockSystem cfg} (taken : state.Step (.advance i ambient) after) :
    BlocksRefine ino involved file after := by
  have covered := BlockSystem.covered_step refines.covered taken
  have advanced := refines.tasksRefine.advance taken
  obtain ⟨task, phase, store, present, move, rfl⟩ := refines.move_of_step taken
  constructor
  · exact covered
  · exact advanced.tasks
  · exact advanced.addressed
  · exact fun hash counted => moved_backed refines present move counted
  · exact advanced.pending
  · exact advanced.mapped
  · exact moved_size refines present move
  · intro other member pending
    rcases List.mem_or_eq_of_mem_set member with old | equal
    · exact refines.sizes other old pending
    · obtain rfl := Op.write.inj equal
      exact refines.sizes task (List.mem_of_getElem? present) (move.sizePending pending)

theorem WritePlan.maxFileSize_le (plan : WritePlan cfg) (bound : Nat) :
    plan.maxFileSize ≤ bound ↔ ∀ group ∈ plan.groups, ∀ id ∈ group.ids,
      id * cfg.blockSize + group.data.length ≤ bound := by
  rw [WritePlan.maxFileSize, foldl_max_le]
  simp only [List.mem_flatMap, List.mem_map]
  constructor
  · rintro ⟨_, all⟩ group member id listed
    exact all _ ⟨group, member, id, listed, rfl⟩
  · intro all
    refine ⟨Nat.zero_le _, ?_⟩
    rintro value ⟨group, member, id, listed, rfl⟩
    exact all group member id listed

structure TasksOf (ino : StorageIno) (groups : List BlockGroup) (tasks : List (WriteTask cfg)) :
    Prop where
  start : ∀ task ∈ tasks, task.ino = ino ∧ task.phase = .increment
  only : ∀ task ∈ tasks, ∀ group ∈ task.plan.groups, group ∈ groups
  all : ∀ group ∈ groups, ∃ task ∈ tasks, group ∈ task.plan.groups

theorem tasksOf_writeTasks (ino : StorageIno) (plan : WritePlan cfg) :
    TasksOf ino plan.groups (writeTasks cfg ino plan) := by
  unfold writeTasks
  by_cases chunked : cfg.chunkedBlockUpload
  · rw [if_pos chunked]
    refine ⟨?_, ?_, ?_⟩
    · intro task member
      rw [List.mem_singleton.mp member]
      exact ⟨rfl, rfl⟩
    · intro task member
      rw [List.mem_singleton.mp member]
      exact fun group listed => listed
    · intro group member
      exact ⟨_, List.mem_singleton_self _, member⟩
  · rw [if_neg chunked]
    refine ⟨?_, ?_, ?_⟩
    · intro task member
      obtain ⟨group, _, rfl⟩ := List.mem_map.mp member
      exact ⟨rfl, rfl⟩
    · intro task member other listed
      obtain ⟨group, _, rfl⟩ := List.mem_map.mp member
      rw [List.mem_singleton.mp listed]
      exact group.2
    · intro group member
      exact ⟨_, List.mem_map.mpr ⟨⟨group, member⟩, List.mem_attach _ _, rfl⟩,
        List.mem_singleton_self _⟩

theorem sum_owed_start {tasks : List (WriteTask cfg)} (start : ∀ task ∈ tasks, task.phase = .increment)
    (hash : TiFsHash) : ((tasks.map Op.write).map fun op => op.owed hash).sum = 0 := by
  rw [List.sum_eq_zero_iff]
  intro value listed
  obtain ⟨op, member, rfl⟩ := List.mem_map.mp listed
  obtain ⟨task, inTasks, rfl⟩ := List.mem_map.mp member
  simp [Op.owed, Op.owedIncrements, Op.owedDecrements, WriteTask.owedIncrements,
    WriteTask.owedDecrements, WritePhase.decrements, start task inTasks]

theorem sound_start {task : WriteTask cfg} (start : task.phase = .increment) : (Op.write task).Sound := by
  refine ⟨by simp [start], ?_⟩
  rw [start]
  exact fun hash counted => absurd counted (AList.notMem_empty hash)

theorem Covered.spawn {tasks : List (WriteTask cfg)} (covered : state.Covered)
    (start : ∀ task ∈ tasks, task.phase = .increment) :
    BlockSystem.Covered (⟨state.store, state.ops ++ tasks.map .write⟩ : BlockSystem cfg) := by
  constructor
  · intro op member
    rcases List.mem_append.mp member with old | new
    · exact covered.sound op old
    · obtain ⟨task, listed, rfl⟩ := List.mem_map.mp new
      exact sound_start (start task listed)
  · intro hash
    simp only [List.map_append, List.sum_append, sum_owed_start start hash, Nat.add_zero]
    exact covered.counters hash

theorem mem_pendingWrites {task : WriteTask cfg} {write : BlockAddress × Option TiFsHash}
    (listed : write ∈ (Op.write task).pendingWrites) :
    ∃ group ∈ task.plan.groups, ∃ id ∈ group.ids, write = (⟨task.ino, id⟩, some group.hash) := by
  simp only [Op.pendingWrites] at listed
  split at listed
  · cases listed
  · exact (mem_addressesToModify task.plan).mp listed

/-- New tasks change the file to what they will have written. -/
theorem TasksRefine.spawn (refines : TasksRefine ino involved file state) {groups : List BlockGroup}
    {tasks : List (WriteTask cfg)} {touched : Nat → Prop} {after : FileMap}
    (tasksOf : TasksOf ino groups tasks) (planned : Planned cfg groups touched file after)
    (data : ∀ group ∈ groups, group.data ∈ involved)
    (apart : ∀ op ∈ state.ops, ∀ write ∈ op.pendingWrites, ¬ touched write.1.index) :
    TasksRefine ino involved after
      (⟨state.store, state.ops ++ tasks.map .write⟩ : BlockSystem cfg) := by
  have keptPending : ∀ op ∈ state.ops, ∀ write ∈ op.pendingWrites,
      after.content write.1.index = file.content write.1.index := by
    intro op member write listed
    apply planned.kept
    intro group inGroups isId
    exact apart op member write listed (planned.written group inGroups _ isId).1
  constructor
  · intro op member
    rcases List.mem_append.mp member with old | new
    · exact refines.sound op old
    · obtain ⟨task, listed, rfl⟩ := List.mem_map.mp new
      exact sound_start (tasksOf.start task listed).2
  · intro op member
    rcases List.mem_append.mp member with old | new
    · exact refines.tasks op old
    · obtain ⟨task, listed, rfl⟩ := List.mem_map.mp new
      exact ⟨task, rfl, (tasksOf.start task listed).1,
        fun group inPlan => data group (tasksOf.only task listed group inPlan)⟩
  · exact refines.addressed
  · exact refines.lengths
  · intro op member write listed
    rcases List.mem_append.mp member with old | new
    · rw [keptPending op old write listed]
      exact refines.pending op old write listed
    · obtain ⟨task, inTasks, rfl⟩ := List.mem_map.mp new
      obtain ⟨group, inPlan, id, isId, rfl⟩ := mem_pendingWrites listed
      have isContent := (planned.written group (tasksOf.only task inTasks group inPlan) id isId).2
      simp only [isContent, Option.map_some, task.plan.hash_eq group inPlan]
  · intro index free
    have unplanned : ∀ group ∈ groups, index ∉ group.ids := by
      intro group inGroups isId
      obtain ⟨task, inTasks, inPlan⟩ := tasksOf.all group inGroups
      obtain ⟨isIno, current⟩ := tasksOf.start task inTasks
      refine free (.write task) (List.mem_append_right _ (List.mem_map_of_mem inTasks)) ?_
      have pending : (Op.write task).pendingWrites = task.plan.addressesToModify task.ino := by
        simp [Op.pendingWrites, current, WritePhase.isReplaced]
      rw [pending, List.mem_map]
      exact ⟨_, (mem_addressesToModify task.plan).mpr ⟨group, inPlan, index, isId, rfl⟩, by rw [isIno]⟩
    rw [planned.kept index unplanned]
    exact refines.mapped index fun op member => free op (List.mem_append_left _ member)
  · exact refines.sized

theorem BlocksRefine.spawn (refines : BlocksRefine ino involved file state) {groups : List BlockGroup}
    {tasks : List (WriteTask cfg)} {touched : Nat → Prop} {after : FileMap}
    (tasksOf : TasksOf ino groups tasks) (planned : Planned cfg groups touched file after)
    (data : ∀ group ∈ groups, group.data ∈ involved)
    (apart : ∀ op ∈ state.ops, ∀ write ∈ op.pendingWrites, ¬ touched write.1.index) :
    BlocksRefine ino involved after
      (⟨state.store, state.ops ++ tasks.map .write⟩ : BlockSystem cfg) := by
  have spawned := refines.tasksRefine.spawn tasksOf planned data apart
  constructor
  · exact Covered.spawn refines.covered fun task member => (tasksOf.start task member).2
  · exact spawned.tasks
  · exact refines.addressed
  · intro hash counted
    rcases refines.backed hash counted with stored | ⟨op, member, listed⟩
    · exact Or.inl stored
    · exact Or.inr ⟨op, List.mem_append_left _ member, listed⟩
  · exact spawned.pending
  · exact spawned.mapped
  · obtain ⟨size, stored, below, reached⟩ := refines.size
    obtain ⟨grown, isReached⟩ := planned.reached
    refine ⟨size, stored, below.trans grown, ?_⟩
    rcases isReached with equal | ⟨group, inGroups, id, isId, isMax⟩
    · rw [equal]
      rcases reached with isSize | ⟨task, member, pending, isMax⟩
      · exact Or.inl isSize
      · exact Or.inr ⟨task, List.mem_append_left _ member, pending, isMax⟩
    · obtain ⟨task, inTasks, inPlan⟩ := tasksOf.all group inGroups
      refine Or.inr ⟨task, List.mem_append_right _ (List.mem_map_of_mem inTasks), ?_, ?_⟩
      · rw [(tasksOf.start task inTasks).2]
        rfl
      · apply Nat.le_antisymm
        · rw [WritePlan.maxFileSize_le]
          exact fun other inPlan' => planned.below other (tasksOf.only task inTasks other inPlan')
        · rw [← isMax]
          exact (task.plan.maxFileSize_le _).mp le_rfl group inPlan id isId
  · intro task member pending
    rcases List.mem_append.mp member with old | new
    · exact (refines.sizes task old pending).trans planned.reached.1
    · obtain ⟨other, inTasks, same⟩ := List.mem_map.mp new
      obtain rfl := Op.write.inj same
      rw [WritePlan.maxFileSize_le]
      exact fun group inPlan => planned.below group (tasksOf.only other inTasks group inPlan)

theorem BlocksRefine.stored_of_counted (refines : BlocksRefine ino involved file state)
    (uploaded : ∀ op ∈ state.ops, op.uploads = []) {hash : TiFsHash} (counted : 0 < counter state.store hash) :
    (blockData state.store hash).isSome := by
  rcases refines.backed hash counted with stored | ⟨op, member, listed⟩
  · exact stored
  · rw [uploaded op member] at listed
    cases listed

theorem BlocksRefine.contents (refines : BlocksRefine ino involved file state)
    (injective : Set.InjOn cfg.calculateHash involved)
    (contents : ∀ index data, file.content index = some data → data ∈ involved)
    (written : ∀ op ∈ state.ops, op.pendingWrites = []) (uploaded : ∀ op ∈ state.ops, op.uploads = [])
    (index : Nat) : (mapping state.store ⟨ino, index⟩).bind (blockData state.store) = file.content index := by
  have isMapped := refines.mapped index fun op member => by
    rw [written op member]
    exact List.not_mem_nil
  rw [isMapped]
  cases found : file.content index with
  | none => rfl
  | some data =>
      rw [found] at isMapped
      have stored := refines.stored_of_counted uploaded (refines.covered.counter_pos_of_mapping isMapped)
      obtain ⟨other, isStored⟩ := Option.isSome_iff_exists.mp stored
      obtain ⟨inInvolved, sameHash⟩ := refines.addressed _ other isStored
      rw [Option.map_some, Option.bind_some, isStored]
      exact congrArg some (injective inInvolved (contents index data found) sameHash)

theorem idle_of_ended {task : WriteTask cfg} (ended : (Op.write task).outcome.isSome) :
    task.phase = .done ∧ (Op.write task).pendingWrites = [] ∧ (Op.write task).uploads = [] := by
  have done : task.phase = .done := by
    by_contra running
    simp [Op.outcome, running] at ended
  refine ⟨done, ?_, ?_⟩
  · simp [Op.pendingWrites, done, WritePhase.isReplaced]
  · simp [Op.uploads, done, WritePhase.uploads]

/-- With no task left the store holds the file. -/
theorem BlocksRefine.settled (refines : BlocksRefine ino involved file state)
    (injective : Set.InjOn cfg.calculateHash involved)
    (contents : ∀ index data, file.content index = some data → data ∈ involved)
    (done : ∀ op ∈ state.ops, op.outcome.isSome) :
    (∀ index : Nat, (mapping state.store ⟨ino, index⟩).bind (blockData state.store) = file.content index) ∧
      (∃ size, inoSize state.store ino = some size ∧ size.size = file.size) := by
  have idle : ∀ op ∈ state.ops, op.pendingWrites = [] ∧ op.uploads = [] := by
    intro op member
    obtain ⟨task, rfl, _⟩ := refines.tasks op member
    exact (idle_of_ended (done _ member)).2
  constructor
  · exact refines.contents injective contents (fun op member => (idle op member).1) fun op member => (idle op member).2
  · obtain ⟨size, stored, _, reached⟩ := refines.size
    refine ⟨size, stored, ?_⟩
    rcases reached with equal | ⟨task, member, pending, _⟩
    · exact equal
    · rw [(idle_of_ended (done _ member)).1] at pending
      cases pending

end Refine

end TiFs
