import TiFs.TaskRuns

/-! What the tasks of one call do to the counter and the block of a hash, whatever the counters
are to begin with. What is still to be counted up, and what is still to be counted down, decide
whether the block is there in the end. -/

namespace TiFs

open KeyValue Tables

section Ops

variable {cfg : TiFsConfig}

def Op.addresses : Op cfg → List (BlockAddress × Option TiFsHash)
  | .write task => task.plan.addressesToModify task.ino
  | _ => []

def Op.toCount (hash : TiFsHash) : Op cfg → Nat
  | .write task => if task.phase = .increment then amount task.plan.increments hash else 0
  | _ => 0

/-- What an operation has still to count down for a hash, if it replaces the mappings of a store. -/
def Op.toRelease (before : Store) (hash : TiFsHash) : Op cfg → Nat
  | .write task =>
      if task.phase = .done then 0
      else (prevHashes before (task.plan.addressesToModify task.ino)).count hash
  | _ => 0

namespace BlockSystem

def toCount (state : BlockSystem cfg) (hash : TiFsHash) : Nat := (state.ops.map (Op.toCount hash)).sum

def toRelease (state : BlockSystem cfg) (before : Store) (hash : TiFsHash) : Nat :=
  (state.ops.map (Op.toRelease before hash)).sum

def Uploads (state : BlockSystem cfg) (hash : TiFsHash) : Prop :=
  ∃ op ∈ state.ops, hash ∈ op.uploads.map Prod.fst

end BlockSystem

/-- The tasks replace the mappings that there were before, each at its own addresses. -/
structure Replacing (before : Store) (state : BlockSystem cfg) : Prop where
  filled : ∀ task, .write task ∈ state.ops → task.plan.Filled
  apart : ((state.ops.map Op.addresses).flatten.map Prod.fst).Nodup
  unreplaced : ∀ op ∈ state.ops, ∀ write ∈ op.pendingWrites, mapping state.store write.1 = mapping before write.1
  owed : ∀ task, .write task ∈ state.ops → task.phase.isReplaced → task.phase ≠ .done →
    task.phase.decrements = tally (prevHashes before (task.plan.addressesToModify task.ino))

variable {before : Store} {state : BlockSystem cfg} {i : Nat} {task : WriteTask cfg} {phase : WritePhase}
  {store after : Store}

theorem pendingWrites_subset {op : Op cfg} {write : BlockAddress × Option TiFsHash}
    (listed : write ∈ op.pendingWrites) : write ∈ op.addresses := by
  cases op with
  | write task =>
      simp only [Op.pendingWrites] at listed
      split at listed
      · cases listed
      · exact listed
  | clear task => cases listed
  | clone task => cases listed
  | ended failure => cases listed

theorem Replacing.addresses_apart (replacing : Replacing before state) {j : Nat} {one other : Op cfg}
    (isOne : state.ops[i]? = some one) (isOther : state.ops[j]? = some other) (different : i ≠ j)
    {addr : BlockAddress} (listed : addr ∈ one.addresses.map Prod.fst) : addr ∉ other.addresses.map Prod.fst := by
  have apart := replacing.apart
  rw [List.map_flatten, List.nodup_flatten, List.map_map] at apart
  have pairs := List.pairwise_iff_getElem.mp apart.2
  have at_ : ∀ {k op}, state.ops[k]? = some op →
      ∃ bound : k < (state.ops.map (List.map Prod.fst ∘ Op.addresses)).length,
        (state.ops.map (List.map Prod.fst ∘ Op.addresses))[k] = op.addresses.map Prod.fst := by
    intro k op isOp
    obtain ⟨bound, isItem⟩ := List.getElem?_eq_some_iff.mp isOp
    exact ⟨by simpa using bound, by simp [isItem]⟩
  obtain ⟨oneBound, isOne⟩ := at_ isOne
  obtain ⟨otherBound, isOther⟩ := at_ isOther
  intro again
  rw [← isOne] at listed
  rw [← isOther] at again
  rcases Nat.lt_or_gt_of_ne different with less | less
  · exact pairs i j oneBound otherBound less listed again
  · exact pairs j i otherBound oneBound less again listed

theorem Replacing.prevHashes_eq (replacing : Replacing before state) (member : .write task ∈ state.ops)
    (pending : task.phase.isReplaced = false) :
    prevHashes state.store (task.plan.addressesToModify task.ino) =
      prevHashes before (task.plan.addressesToModify task.ino) := by
  refine List.filterMap_congr fun write listed => ?_
  apply replacing.unreplaced _ member
  simp only [Op.pendingWrites, pending, Bool.false_eq_true, if_false]
  exact listed

theorem Replacing.advance (replacing : Replacing before state) (present : state.ops[i]? = some (.write task))
    (move : WriteMove task state.store phase store) :
    Replacing before (⟨store, state.ops.set i (.write { task with phase := phase })⟩ : BlockSystem cfg) := by
  have member := List.mem_of_getElem? present
  constructor
  · intro other isOther
    rcases List.mem_or_eq_of_mem_set isOther with old | same
    · exact replacing.filled other old
    · obtain rfl := Op.write.inj same
      exact replacing.filled task member
  · simp only [map_set_same present (show Op.addresses (.write { task with phase := phase }) = _ from rfl)]
    exact replacing.apart
  · intro op isOp write listed
    obtain ⟨j, found⟩ := List.mem_iff_getElem?.mp isOp
    rcases getElem?_set_cases found with ⟨_, rfl⟩ | ⟨different, old⟩
    · rcases move.pending_cases with ⟨same, kept⟩ | ⟨none, _⟩
      · rw [same] at listed
        rw [kept]
        exact replacing.unreplaced _ member write listed
      · rw [none] at listed
        cases listed
    · have before := replacing.unreplaced op (List.mem_of_getElem? old) write listed
      rw [← before]
      rcases move.pending_cases with ⟨_, kept⟩ | ⟨_, _, kept⟩
      · exact kept write.1
      · apply kept
        intro own
        obtain ⟨mine, isMine, same⟩ := List.mem_map.mp own
        refine replacing.addresses_apart present old different ?_
          (List.mem_map_of_mem (pendingWrites_subset listed))
        rw [← same]
        exact List.mem_map_of_mem (pendingWrites_subset isMine)
  · intro other isOther replaced running
    rcases List.mem_or_eq_of_mem_set isOther with old | same
    · exact replacing.owed other old replaced running
    · obtain rfl := Op.write.inj same
      cases move.blockMove with
      | incremented prev after current counted => cases replaced
      | uploaded blocks after current stored => cases replaced
      | replaced decrements after current placed lengths =>
          rw [← replacing.prevHashes_eq member (by rw [current]; rfl)]
          exact placed.tallied
      | decremented decrements after current counted => exact absurd rfl running
      | quiet phase after frame earlier later owed =>
          rw [owed]
          exact replacing.owed task member earlier fun done => running (move.done done)

inductive HashMove (before : Store) (hash : TiFsHash) (task : WriteTask cfg) (store : Store) :
    WritePhase → Store → Prop
  | counted (blocks : List (TiFsHash × Bytes)) (after : Store) (current : task.phase = .increment)
      (raised : counter after hash = counter store hash + amount task.plan.increments hash)
      (same : blockData after hash = blockData store hash)
      (uploads : hash ∈ blocks.map Prod.fst ↔ 0 < amount task.plan.increments hash ∧ counter store hash = 0) :
      HashMove before hash task store (.upload blocks) after
  | uploaded (blocks : List (TiFsHash × Bytes)) (after : Store) (current : task.phase = .upload blocks)
      (same : counter after hash = counter store hash)
      (stored : hash ∈ blocks.map Prod.fst → (blockData after hash).isSome)
      (kept : hash ∉ blocks.map Prod.fst → blockData after hash = blockData store hash) :
      HashMove before hash task store .replace after
  | released (decrements : RefCounts) (amount : Nat) (after : Store) (current : task.phase = .decrement decrements)
      (isAmount : (Op.write task).toRelease before hash = amount)
      (lowered : counter after hash = counter store hash - amount)
      (kept : amount = 0 ∨ amount < counter store hash → blockData after hash = blockData store hash)
      (gone : 0 < amount → counter store hash ≤ amount → blockData after hash = none) :
      HashMove before hash task store .done after
  | silent (phase : WritePhase) (after : Store) (same : counter after hash = counter store hash)
      (kept : blockData after hash = blockData store hash) (earlier : task.phase.uploads = [])
      (later : phase.uploads = []) (begun : task.phase ≠ .increment ∧ phase ≠ .increment)
      (ends : phase = .done ↔ task.phase = .done) : HashMove before hash task store phase after

theorem mem_uploads_of_incremented {plan : WritePlan cfg} {prev : RefCounts}
    (counted : Incremented plan.increments store after prev)
    (filled : plan.Filled) (hash : TiFsHash) :
    hash ∈ (plan.blocksToUpload prev).map Prod.fst ↔ 0 < amount plan.increments hash ∧ counter store hash = 0 := by
  rw [blocksToUpload_fst]
  constructor
  · intro listed
    obtain ⟨group, member, rfl⟩ := List.mem_map.mp listed
    obtain ⟨inPlan, zero⟩ := List.mem_filter.mp member
    have inIncrements : (group.hash, group.ids.length) ∈ plan.increments := List.mem_map_of_mem inPlan
    have isAmount := amount_of_mem plan.increments_nodup inIncrements
    refine ⟨?_, ?_⟩
    · rw [isAmount]
      exact List.length_pos_iff.mpr (filled group inPlan)
    · rw [← counted.previous group.hash (List.mem_map_of_mem inIncrements)]
      exact of_decide_eq_true zero
  · rintro ⟨positive, zero⟩
    obtain ⟨group, member, rfl⟩ := plan.mem_of_amount_pos positive
    have inIncrements : (group.hash, group.ids.length) ∈ plan.increments := List.mem_map_of_mem member
    refine List.mem_map_of_mem (List.mem_filter.mpr ⟨member, decide_eq_true ?_⟩)
    rw [counted.previous group.hash (List.mem_map_of_mem inIncrements), zero]

theorem WriteMove.done_cases (move : WriteMove task store phase after) (isDone : phase = .done) :
    (∃ decrements, task.phase = .decrement decrements ∧ Decremented decrements store after) ∨
      task.phase = .done ∧ after = store := by
  cases move with
  | decremented decrements after current counted => exact Or.inl ⟨decrements, current, counted⟩
  | finished current => exact Or.inr ⟨current, rfl⟩
  | _ => cases isDone

theorem Replacing.released (replacing : Replacing before state) (member : .write task ∈ state.ops)
    {decrements : RefCounts} (current : task.phase = .decrement decrements)
    (counted : Decremented decrements state.store store) (hash : TiFsHash) :
    HashMove before hash task state.store .done store := by
  have owed := replacing.owed task member (by rw [current]; rfl) (by simp [current])
  have isTally : decrements = tally (prevHashes before (task.plan.addressesToModify task.ino)) := by
    rw [current] at owed
    exact owed
  have isAmount : (decrements.lookup hash).getD 0 =
      (prevHashes before (task.plan.addressesToModify task.ino)).count hash := by
    rw [isTally, lookup_tally]
  have listed : hash ∈ decrements ↔
      0 < (prevHashes before (task.plan.addressesToModify task.ino)).count hash := by
    rw [isTally, mem_tally, List.count_pos_iff]
  refine .released decrements _ _ current (by simp [Op.toRelease, current]) (isAmount ▸ counted.counted hash) ?_ ?_
  · intro spared
    apply counted.kept
    rw [isAmount, listed]
    rcases spared with zero | more
    · exact Or.inl (by omega)
    · exact Or.inr more
  · intro positive enough
    exact counted.gone hash (listed.mpr positive) (isAmount ▸ enough)

theorem Replacing.hashMove (replacing : Replacing before state) (member : .write task ∈ state.ops)
    (move : WriteMove task state.store phase store) (hash : TiFsHash) :
    HashMove before hash task state.store phase store := by
  by_cases isDone : phase = .done
  · rcases move.done_cases isDone with ⟨decrements, current, counted⟩ | ⟨current, same⟩
    · rw [isDone]
      exact replacing.released member current counted hash
    · rw [isDone, same]
      exact .silent _ _ rfl rfl (by rw [current]; rfl) rfl (by simp [current]) (by simp [current])
  · have notEnded := mt move.done isDone
    cases move.blockMove with
    | incremented prev after current counted =>
        exact .counted _ _ current (counted.counted hash) (counted.frame (.hashedBlock hash) (by simp))
          (mem_uploads_of_incremented counted (replacing.filled task member) hash)
    | uploaded blocks after current uploaded =>
        refine .uploaded blocks _ current ?_ ?_ (uploaded.kept hash)
        · exact counter_congr (fun other => uploaded.frame (.countedNamedUsages other) (by simp)) hash
        · intro listed
          obtain ⟨block, isBlock, rfl⟩ := List.mem_map.mp listed
          rw [uploaded.stored block isBlock]
          rfl
    | replaced decrements after current placed lengths =>
        refine .silent _ _ ?_ (placed.frame (.hashedBlock hash) (by simp)) (by rw [current]; rfl) rfl
          (by simp [current]) (by simp [current])
        exact counter_congr (fun other => placed.frame (.countedNamedUsages other) (by simp)) hash
    | decremented decrements after current counted => exact absurd rfl isDone
    | quiet phase after frame earlier later owed =>
        have notIncrement : ∀ {phase : WritePhase}, phase.isReplaced → phase ≠ .increment := by
          rintro phase replaced rfl
          cases replaced
        refine .silent _ _ ?_ (frame (.hashedBlock hash) (by simp)) (uploads_of_replaced earlier)
          (uploads_of_replaced later) ⟨notIncrement earlier, notIncrement later⟩
          ⟨fun done => absurd done isDone, fun done => absurd done notEnded⟩
        exact counter_congr (fun other => frame (.countedNamedUsages other) (by simp)) hash

end Ops

section Block

variable {cfg : TiFsConfig} {ino : StorageIno} {involved : Set Bytes} {file : FileMap} {before : Store}
  {state after : BlockSystem cfg} {hash : TiFsHash}

inductive BlockChange (before : Store) (hash : TiFsHash) (state after : BlockSystem cfg) : Prop
  | counted (amount : Nat) (raised : counter after.store hash = counter state.store hash + amount)
      (toCount : after.toCount hash + amount = state.toCount hash)
      (toRelease : after.toRelease before hash = state.toRelease before hash)
      (same : blockData after.store hash = blockData state.store hash)
      (uploads : after.Uploads hash ↔ state.Uploads hash ∨ 0 < amount ∧ counter state.store hash = 0)
  | released (amount : Nat) (lowered : counter after.store hash = counter state.store hash - amount)
      (toCount : after.toCount hash = state.toCount hash)
      (toRelease : after.toRelease before hash + amount = state.toRelease before hash)
      (kept : amount = 0 ∨ amount < counter state.store hash →
        blockData after.store hash = blockData state.store hash)
      (gone : 0 < amount → counter state.store hash ≤ amount → blockData after.store hash = none)
      (uploads : after.Uploads hash ↔ state.Uploads hash)
  | stored (uploading : state.Uploads hash) (same : counter after.store hash = counter state.store hash)
      (toCount : after.toCount hash = state.toCount hash)
      (toRelease : after.toRelease before hash = state.toRelease before hash)
      (isStored : (blockData after.store hash).isSome)
  | silent (same : counter after.store hash = counter state.store hash)
      (toCount : after.toCount hash = state.toCount hash)
      (toRelease : after.toRelease before hash = state.toRelease before hash)
      (kept : blockData after.store hash = blockData state.store hash)
      (uploads : after.Uploads hash ↔ state.Uploads hash)

theorem uploads_set_iff {i : Nat} {old : Op cfg} (present : state.ops[i]? = some old)
    (notOld : hash ∉ old.uploads.map Prod.fst) (new : Op cfg) (store : Store) :
    BlockSystem.Uploads ⟨store, state.ops.set i new⟩ hash ↔
      state.Uploads hash ∨ hash ∈ new.uploads.map Prod.fst := by
  constructor
  · rintro ⟨op, member, uploads⟩
    rcases List.mem_or_eq_of_mem_set member with earlier | rfl
    · exact Or.inl ⟨op, earlier, uploads⟩
    · exact Or.inr uploads
  · rintro (⟨op, member, uploads⟩ | uploads)
    · rcases eq_or_mem_set present member new with rfl | still
      · exact absurd uploads notOld
      · exact ⟨op, still, uploads⟩
    · exact ⟨new, List.mem_set (List.getElem?_eq_some_iff.mp present).1 _, uploads⟩

theorem Replacing.blockChange (replacing : Replacing before state) {i : Nat} {task : WriteTask cfg}
    {phase : WritePhase} {store : Store} (present : state.ops[i]? = some (.write task))
    (move : WriteMove task state.store phase store) (hash : TiFsHash) :
    BlockChange before hash state ⟨store, state.ops.set i (.write { task with phase := phase })⟩ := by
  have member := List.mem_of_getElem? present
  have counts := sum_map_set (Op.toCount hash) present (.write { task with phase := phase })
  have releases := sum_map_set (Op.toRelease before hash) present (.write { task with phase := phase })
  have uploads : hash ∉ (Op.write task).uploads.map Prod.fst → _ :=
    fun notOld => uploads_set_iff present notOld (.write { task with phase := phase }) store
  cases replacing.hashMove member move hash with
  | counted blocks after current raised same isUploaded =>
      simp only [Op.toCount, Op.toRelease, current, if_true, reduceCtorEq, if_false] at counts releases
      refine .counted (amount task.plan.increments hash) raised ?_ ?_ same ?_
      · simpa [BlockSystem.toCount] using counts
      · simpa [BlockSystem.toRelease] using releases
      · rw [uploads (by simp [Op.uploads, current, WritePhase.uploads])]
        exact or_congr_right isUploaded
  | uploaded blocks after current same stored kept =>
      simp only [Op.toCount, Op.toRelease, current, reduceCtorEq, if_false] at counts releases
      by_cases listed : hash ∈ blocks.map Prod.fst
      · refine .stored ⟨_, member, ?_⟩ same ?_ ?_ (stored listed)
        · rw [Op.uploads, current]
          exact listed
        · simpa [BlockSystem.toCount] using counts
        · simpa [BlockSystem.toRelease] using releases
      · refine .silent same ?_ ?_ (kept listed) ?_
        · simpa [BlockSystem.toCount] using counts
        · simpa [BlockSystem.toRelease] using releases
        · rw [uploads (by rw [Op.uploads, current]; exact listed)]
          simp [Op.uploads, WritePhase.uploads]
  | released decrements amount after current isAmount lowered kept gone =>
      rw [isAmount] at releases
      simp only [Op.toCount, Op.toRelease, current, if_true, reduceCtorEq, if_false, Nat.add_zero] at counts releases
      refine .released amount lowered ?_ releases kept gone ?_
      · simpa [BlockSystem.toCount] using counts
      · rw [uploads (by simp [Op.uploads, current, WritePhase.uploads])]
        simp [Op.uploads, WritePhase.uploads]
  | silent phase after same kept earlier later begun ends =>
      simp only [Op.toCount, begun.1, begun.2, if_false, Nat.add_zero] at counts
      simp only [Op.toRelease, ends, Nat.add_right_cancel_iff] at releases
      refine .silent same counts releases kept ?_
      rw [uploads (by rw [Op.uploads, earlier]; exact List.not_mem_nil)]
      simp [Op.uploads, later]

structure Towards (ino : StorageIno) (involved : Set Bytes) (file : FileMap) (before : Store)
    (holds : BlockSystem cfg → Prop) (state : BlockSystem cfg) : Prop where
  refines : TasksRefine ino involved file state
  replacing : Replacing before state
  holds : holds state

variable {holds : BlockSystem cfg → Prop}

theorem Towards.advance (towards : Towards ino involved file before holds state)
    (changes : ∀ state after, (∀ hash, BlockChange before hash state after) → holds state → holds after)
    {k : Nat} {ambient : Ambient} (taken : state.Step (.advance k ambient) after) :
    Towards ino involved file before holds after := by
  have refines := towards.refines.advance taken
  obtain ⟨task, phase, store, present, move, rfl⟩ := towards.refines.move_of_step taken
  exact ⟨refines, towards.replacing.advance present move,
    changes _ _ (fun hash => towards.replacing.blockChange present move hash) towards.holds⟩

theorem Towards.run (towards : Towards ino involved file before holds state)
    (changes : ∀ state after, (∀ hash, BlockChange before hash state after) → holds state → holds after)
    (run : Run BlockSystem.Step TasksOnly state after) : Towards ino involved file before holds after := by
  refine Run.invariant (Towards ino involved file before holds) ?_ towards run
  intro between event next still taken only
  cases event with
  | advance k ambient => exact still.advance changes taken
  | spawn work => exact only.elim
  | abandon k => exact only.elim

theorem settled_of_ended (refines : TasksRefine ino involved file state)
    (ended : ∀ op ∈ state.ops, op.outcome.isSome) (before : Store) (hash : TiFsHash) :
    state.toCount hash = 0 ∧ state.toRelease before hash = 0 ∧ ¬ state.Uploads hash := by
  have done : ∀ op ∈ state.ops, ∃ task, op = .write task ∧ task.phase = .done := by
    intro op member
    obtain ⟨task, rfl, _⟩ := refines.tasks op member
    exact ⟨task, rfl, (idle_of_ended (ended _ member)).1⟩
  refine ⟨List.sum_eq_zero ?_, List.sum_eq_zero ?_, ?_⟩
  · intro value listed
    obtain ⟨op, member, rfl⟩ := List.mem_map.mp listed
    obtain ⟨task, rfl, isDone⟩ := done op member
    simp [Op.toCount, isDone]
  · intro value listed
    obtain ⟨op, member, rfl⟩ := List.mem_map.mp listed
    obtain ⟨task, rfl, isDone⟩ := done op member
    simp [Op.toRelease, isDone]
  · rintro ⟨op, member, uploads⟩
    obtain ⟨task, rfl, isDone⟩ := done op member
    rw [Op.uploads, isDone] at uploads
    cases uploads

/-- The block of a hash is there, or will be, and is not counted down to nothing. -/
structure Retained (before : Store) (hash : TiFsHash) (state : BlockSystem cfg) : Prop where
  enough : state.toRelease before hash = 0 ∨
    state.toRelease before hash < counter state.store hash + state.toCount hash
  counted : 0 < counter state.store hash → (blockData state.store hash).isSome ∨ state.Uploads hash
  present : (blockData state.store hash).isSome ∨ 0 < state.toCount hash ∨ state.Uploads hash

theorem Retained.change (retained : Retained before hash state) (change : BlockChange before hash state after) :
    Retained before hash after := by
  obtain ⟨enough, counted, present⟩ := retained
  cases change with
  | counted amount raised toCount toRelease same uploads =>
      refine ⟨by omega, ?_, ?_⟩
      · intro positive
        rw [same, uploads]
        by_cases zero : counter state.store hash = 0
        · exact Or.inr (Or.inr ⟨by omega, zero⟩)
        · rcases counted (Nat.pos_of_ne_zero zero) with stored | uploading
          · exact Or.inl stored
          · exact Or.inr (Or.inl uploading)
      · rw [same, uploads]
        rcases present with stored | pending | uploading
        · exact Or.inl stored
        · by_cases zero : counter state.store hash = 0
          · by_cases some : 0 < amount
            · exact Or.inr (Or.inr (Or.inr ⟨some, zero⟩))
            · exact Or.inr (Or.inl (by omega))
          · rcases counted (Nat.pos_of_ne_zero zero) with stored | uploading
            · exact Or.inl stored
            · exact Or.inr (Or.inr (Or.inl uploading))
        · exact Or.inr (Or.inr (Or.inl uploading))
  | released amount lowered toCount toRelease kept gone uploads =>
      -- What is counted down to nothing is still to be counted up.
      by_cases spared : amount = 0 ∨ amount < counter state.store hash
      · refine ⟨by omega, ?_, ?_⟩
        · intro positive
          rw [kept spared, uploads]
          exact counted (by omega)
        · rw [kept spared, uploads, toCount]
          exact present
      · exact ⟨by omega, fun positive => by omega, Or.inr (Or.inl (by omega))⟩
  | stored uploading same toCount toRelease isStored =>
      exact ⟨by omega, fun _ => Or.inl isStored, Or.inl isStored⟩
  | silent same toCount toRelease kept uploads =>
      refine ⟨by omega, ?_, ?_⟩
      · rw [same, kept, uploads]
        exact counted
      · rw [kept, uploads, toCount]
        exact present

/-- A block that is counted is missing, and no task will store it. -/
structure Withheld (before : Store) (hash : TiFsHash) (state : BlockSystem cfg) : Prop where
  counted : 0 < counter state.store hash
  missing : blockData state.store hash = none
  quiet : ¬ state.Uploads hash
  kept : state.toRelease before hash = 0

theorem Withheld.change (withheld : Withheld before hash state) (change : BlockChange before hash state after) :
    Withheld before hash after := by
  obtain ⟨counted, missing, quiet, kept⟩ := withheld
  cases change with
  | counted amount raised toCount toRelease same uploads =>
      refine ⟨by omega, same.trans missing, ?_, by omega⟩
      rw [uploads]
      rintro (uploading | ⟨_, zero⟩)
      · exact quiet uploading
      · omega
  | released amount lowered toCount toRelease spared gone uploads =>
      exact ⟨by omega, (spared (Or.inl (by omega))).trans missing, by rwa [uploads], by omega⟩
  | stored uploading same toCount toRelease isStored => exact absurd uploading quiet
  | silent same toCount toRelease unchanged uploads =>
      exact ⟨by omega, unchanged.trans missing, by rwa [uploads], by omega⟩

/-- What is to be counted down uses up the counter, and the block goes with it. -/
structure Outnumbered (before : Store) (hash : TiFsHash) (state : BlockSystem cfg) : Prop where
  counted : state.toCount hash = 0
  quiet : ¬ state.Uploads hash
  few : counter state.store hash ≤ state.toRelease before hash
  gone : state.toRelease before hash = 0 → blockData state.store hash = none

theorem Outnumbered.change (outnumbered : Outnumbered before hash state)
    (change : BlockChange before hash state after) : Outnumbered before hash after := by
  obtain ⟨counted, quiet, few, gone⟩ := outnumbered
  cases change with
  | counted amount raised toCount toRelease same uploads =>
      refine ⟨by omega, ?_, by omega, fun none => same.trans (gone (by omega))⟩
      rw [uploads]
      rintro (uploading | ⟨some, _⟩)
      · exact quiet uploading
      · omega
  | released amount lowered toCount toRelease kept isGone uploads =>
      refine ⟨by omega, by rwa [uploads], by omega, ?_⟩
      intro none
      by_cases some : 0 < amount
      · exact isGone some (by omega)
      · exact (kept (Or.inl (by omega))).trans (gone (by omega))
  | stored uploading same toCount toRelease isStored => exact absurd uploading quiet
  | silent same toCount toRelease unchanged uploads =>
      exact ⟨by omega, by rwa [uploads], by omega, fun none => unchanged.trans (gone (by omega))⟩

structure CountingUp (before : Store) (hash : TiFsHash) (state : BlockSystem cfg) : Prop where
  replacing : Replacing before state
  unreplaced : ∀ task, .write task ∈ state.ops → task.phase.isReplaced = false
  releases : 0 < state.toRelease before hash
  few : counter state.store hash + state.toCount hash ≤ state.toRelease before hash

theorem CountingUp.advance (counting : CountingUp before hash state) {i : Nat} {task : WriteTask cfg}
    {phase : WritePhase} {store : Store} (present : state.ops[i]? = some (.write task))
    (notReady : task.phase ≠ .replace) (move : WriteMove task state.store phase store) :
    CountingUp before hash (⟨store, state.ops.set i (.write { task with phase := phase })⟩ : BlockSystem cfg) := by
  have unreplaced := counting.unreplaced task (List.mem_of_getElem? present)
  have next : phase.isReplaced = false ∧ phase ≠ .done ∧ task.phase ≠ .done := by
    cases move.blockMove with
    | incremented prev after current counted => exact ⟨rfl, by simp, by simp [current]⟩
    | uploaded blocks after current uploaded => exact ⟨rfl, by simp, by simp [current]⟩
    | replaced decrements after current placed lengths => exact absurd current notReady
    | decremented decrements after current counted => rw [current] at unreplaced; cases unreplaced
    | quiet phase after frame earlier later owed => rw [earlier] at unreplaced; cases unreplaced
  have releases : BlockSystem.toRelease ⟨store, state.ops.set i (.write { task with phase := phase })⟩ before hash =
      state.toRelease before hash := by
    refine congrArg List.sum (map_set_same present ?_)
    simp only [Op.toRelease, next.2, if_false]
  obtain ⟨replacing, others, some, few⟩ := counting
  refine ⟨replacing.advance present move, ?_, by omega, ?_⟩
  · intro other member
    rcases List.mem_or_eq_of_mem_set member with old | same
    · exact others other old
    · rw [Op.write.inj same]
      exact next.1
  · rw [releases]
    cases replacing.blockChange present move hash with
    | counted amount raised toCount toRelease same uploads => simp only at raised toCount ⊢; omega
    | released amount lowered toCount toRelease kept gone uploads => simp only at lowered toCount ⊢; omega
    | stored uploading same toCount toRelease isStored => simp only at same toCount ⊢; omega
    | silent same toCount toRelease kept uploads => simp only at same toCount ⊢; omega

/-- All tasks can count up first. Then what they count down takes the block away. -/
theorem CountingUp.exists_gone (counting : CountingUp before hash state)
    (refines : TasksRefine ino involved file state) :
    ∃ last, Run BlockSystem.Step TasksOnly state last ∧ (∀ op ∈ last.ops, op.outcome = some (.ok ())) ∧
      blockData last.store hash = none := by
  obtain ⟨middle, earlier, stillRefines, still, ready⟩ := refines.exists_run (fun phase => phase = .replace)
    (CountingUp before hash) counting
    (fun state task holds member _ isDone => by
      have unreplaced := holds.unreplaced task member
      rw [isDone] at unreplaced
      cases unreplaced)
    (fun _ _ _ _ _ _ holds present notReady move => holds.advance present notReady move)
  have outnumbered : Outnumbered before hash middle := by
    have few := still.few
    refine ⟨List.sum_eq_zero ?_, ?_, by omega, fun none => absurd still.releases (by omega)⟩
    · intro value listed
      obtain ⟨op, member, rfl⟩ := List.mem_map.mp listed
      obtain ⟨task, rfl, _⟩ := stillRefines.tasks op member
      simp [Op.toCount, ready task member]
    · rintro ⟨op, member, uploads⟩
      obtain ⟨task, rfl, _⟩ := stillRefines.tasks op member
      rw [Op.uploads, ready task member] at uploads
      cases uploads
  obtain ⟨last, later, done⟩ := stillRefines.finish
  have settled := (Towards.mk stillRefines still.replacing outnumbered).run
    (fun _ _ changes holds => holds.change (changes hash)) later
  refine ⟨last, Relation.ReflTransGen.trans earlier later, done, settled.holds.gone ?_⟩
  exact (settled_of_ended settled.refines (fun op member => by rw [done op member]; rfl) before hash).2.1

end Block

section Start

variable {cfg : TiFsConfig} {before : Store} {hash : TiFsHash} {ino : StorageIno} {plan : WritePlan cfg}

theorem addresses_writeTasks :
    (((writeTasks cfg ino plan).map Op.write).map Op.addresses).flatten = plan.addressesToModify ino := by
  unfold writeTasks
  split
  · simp [Op.addresses]
  · simp only [List.map_map, Function.comp_def, Op.addresses, WritePlan.addressesToModify, WritePlan.single,
      List.flatMap_cons, List.flatMap_nil, List.append_nil]
    rw [List.flatMap_def, List.attach_map_val
      (f := fun group : BlockGroup => group.ids.map fun id => ((⟨ino, id⟩ : BlockAddress), some group.hash))]

theorem sum_counts (select : BlockAddress × Option TiFsHash → Option TiFsHash)
    (lists : List (List (BlockAddress × Option TiFsHash))) :
    (lists.map fun addresses => (addresses.filterMap select).count hash).sum =
      (lists.flatten.filterMap select).count hash := by
  rw [List.filterMap_flatten, List.count_flatten, List.map_map]
  rfl

theorem toCount_writeTasks :
    BlockSystem.toCount ⟨before, (writeTasks cfg ino plan).map .write⟩ hash =
      mappedBy (plan.addressesToModify ino) hash := by
  have isStart := (tasksOf_writeTasks ino plan).start
  rw [← addresses_writeTasks, mappedBy, ← sum_counts, BlockSystem.toCount, List.map_map, List.map_map,
    List.map_map]
  congr 1
  refine List.map_congr_left fun task listed => ?_
  simp only [Function.comp_apply]
  rw [Op.toCount, if_pos (isStart task listed).2, ← WritePlan.mappedBy_addresses task.plan task.ino]
  rfl

theorem toRelease_writeTasks :
    BlockSystem.toRelease ⟨before, (writeTasks cfg ino plan).map .write⟩ before hash =
      (prevHashes before (plan.addressesToModify ino)).count hash := by
  have isStart := (tasksOf_writeTasks ino plan).start
  rw [← addresses_writeTasks, prevHashes, ← sum_counts, BlockSystem.toRelease, List.map_map, List.map_map,
    List.map_map]
  congr 1
  refine List.map_congr_left fun task listed => ?_
  simp only [Function.comp_apply]
  rw [Op.toRelease, if_neg (by simp [(isStart task listed).2])]
  rfl

theorem not_uploads_writeTasks :
    ¬ BlockSystem.Uploads ⟨before, (writeTasks cfg ino plan).map .write⟩ hash := by
  rintro ⟨op, member, uploads⟩
  obtain ⟨task, listed, rfl⟩ := List.mem_map.mp member
  rw [Op.uploads, ((tasksOf_writeTasks ino plan).start task listed).2] at uploads
  cases uploads

theorem unreplaced_writeTasks {task : WriteTask cfg}
    (member : .write task ∈ (writeTasks cfg ino plan).map Op.write) : task.phase.isReplaced = false := by
  obtain ⟨other, listed, same⟩ := List.mem_map.mp member
  rw [← Op.write.inj same, ((tasksOf_writeTasks ino plan).start other listed).2]
  rfl

theorem replacing_writeTasks (filled : plan.Filled) :
    Replacing before ⟨before, (writeTasks cfg ino plan).map .write⟩ where
  filled := by
    intro task member group listed
    obtain ⟨other, inTasks, same⟩ := List.mem_map.mp member
    obtain rfl := Op.write.inj same
    exact filled group ((tasksOf_writeTasks ino plan).only other inTasks group listed)
  apart := by
    rw [addresses_writeTasks]
    exact plan.addresses_nodup ino
  unreplaced := fun _ _ _ _ => rfl
  owed := by
    intro task member replaced
    rw [unreplaced_writeTasks member] at replaced
    cases replaced

end Start

end TiFs
