import TiFs.Orphans

/-! What the unlink of a file leaves in the store. The blocks of the file are cleared by
tasks that run beside each other, each in two transactions, and their counters go down by
what the file had mapped, whatever the order of the transactions is. -/

namespace TiFs

open KeyValue Tables

def mappingsOf (store : Store) (ino : StorageIno) (hash : TiFsHash) : Nat :=
  ((mappedTo store hash).filter fun addr => addr.ino = ino).card

/-- The tasks of `hb_clear_data_no_sync_no_size_update`. -/
def clearTasks (cfg : TiFsConfig) (ino : StorageIno) (blockCnt : Nat) : List (Op cfg) :=
  (List.range blockCnt).map fun index => (Work.clear ⟨ino, index⟩ false).start

def Op.isFinished {cfg : TiFsConfig} : Op cfg → Bool
  | .clear task => task.phase = .done
  | .ended _ => true
  | _ => false

def Op.failure {cfg : TiFsConfig} : Op cfg → Option FsError
  | .ended failure => failure
  | _ => none

/-- The transactions of a call that fail, with the errors that are left when the backoff is
used up. -/
structure UnlinkFaults where
  remove : Option FsError
  check : Option FsError
  readSize : Option FsError
  replace : BlockIndex → Option FsError
  decrement : BlockIndex → Option FsError
  deleteMeta : InoMetadata → Option FsError

namespace UnlinkFaults

def none : UnlinkFaults := ⟨.none, .none, .none, fun _ => .none, fun _ => .none, fun _ => .none⟩

def ofOp {cfg : TiFsConfig} (faults : UnlinkFaults) : Op cfg → Option FsError
  | .clear ⟨addr, _, .replace⟩ => faults.replace addr.index
  | .clear ⟨addr, _, .decrement (some _)⟩ => faults.decrement addr.index
  | _ => .none

end UnlinkFaults

def attempted {A : Type} (fault : Option FsError) (body : Mini A) (store : Store) : Except FsError (A × Store) :=
  match fault with
  | some issue => .error issue
  | none => atomically body store

def clearStep {cfg : TiFsConfig} (faults : UnlinkFaults) (state : BlockSystem cfg) (task : Nat × Ambient) :
    Option (BlockSystem cfg) :=
  match (state.ops[task.1]?).bind faults.ofOp with
  | some issue => some { state with ops := state.ops.set task.1 (.ended (some issue)) }
  | none => state.step (.advance task.1 task.2)

def ClearStep {cfg : TiFsConfig} (faults : UnlinkFaults) (before : BlockSystem cfg) (task : Nat × Ambient)
    (after : BlockSystem cfg) : Prop :=
  clearStep faults before task = some after

/-- The tasks take their transactions in any order, until all of them have returned. -/
structure ClearLoop {cfg : TiFsConfig} (faults : UnlinkFaults) (ino : StorageIno) (blockCnt : Nat) (store : Store)
    (last : BlockSystem cfg) : Prop where
  run : Run (ClearStep faults) (fun _ _ => True) (⟨store, clearTasks cfg ino blockCnt⟩ : BlockSystem cfg) last
  finished : ∀ op ∈ last.ops, op.isFinished = true

/-- The loop over the records of a deleted inode, which ends with the first deletion that
fails. -/
def deleteRecords (faults : UnlinkFaults) (ino : StorageIno) : List InoMetadata → Store → Except FsError Unit × Store
  | [], store => (.ok (), store)
  | kind :: rest, store =>
      match faults.deleteMeta kind with
      | some issue => (.error issue, store)
      | none => deleteRecords faults ino rest (applyAll store [Mutation.delete (.inodeX ino kind)])

def Detached (faults : UnlinkFaults) (parent : ParentStorageIno) (name : ByteString)
    (allowedTypes : List StorageDirItemKind) (store : Store) (unlinkedItem : StorageDirItem) (checked : Store) : Prop :=
  ∃ removed,
    attempted faults.remove (directoryRemoveChild parent name allowedTypes) store = .ok (unlinkedItem, removed) ∧
    attempted faults.check (inodeCheckForDeleteAndDeleteAtomicallyDescription unlinkedItem.ino) removed =
      .ok (.deletedInoDesc, checked)

/-- `directory_remove_child_generic`, with what it returns and leaves in the store. Of the
tasks that fail any one can be the first of the results. -/
inductive RemoveChildRun (cfg : TiFsConfig) (faults : UnlinkFaults) (parent : ParentStorageIno) (name : ByteString)
    (allowedTypes : List StorageDirItemKind) (store : Store) : Except FsError Unit → Store → Prop
  | notRemoved (issue : FsError)
      (failed : attempted faults.remove (directoryRemoveChild parent name allowedTypes) store = .error issue) :
      RemoveChildRun cfg faults parent name allowedTypes store (.error issue) store
  | notChecked (unlinkedItem : StorageDirItem) (removed : Store) (issue : FsError)
      (first : attempted faults.remove (directoryRemoveChild parent name allowedTypes) store =
        .ok (unlinkedItem, removed))
      (failed : attempted faults.check (inodeCheckForDeleteAndDeleteAtomicallyDescription unlinkedItem.ino) removed =
        .error issue) :
      RemoveChildRun cfg faults parent name allowedTypes store (.error issue) removed
  | stillUsed (unlinkedItem : StorageDirItem) (removed after : Store)
      (first : attempted faults.remove (directoryRemoveChild parent name allowedTypes) store =
        .ok (unlinkedItem, removed))
      (second : attempted faults.check (inodeCheckForDeleteAndDeleteAtomicallyDescription unlinkedItem.ino) removed =
        .ok (.stillUsed, after)) :
      RemoveChildRun cfg faults parent name allowedTypes store (.ok ()) after
  | noSize (unlinkedItem : StorageDirItem) (checked : Store) (issue : FsError)
      (detached : Detached faults parent name allowedTypes store unlinkedItem checked)
      (isFile : unlinkedItem.typ = .file)
      (failed : attempted faults.readSize (fetch (.inodeX unlinkedItem.ino .size)) checked = .error issue) :
      RemoveChildRun cfg faults parent name allowedTypes store (.error issue) checked
  | notCleared (unlinkedItem : StorageDirItem) (checked read : Store) (size : InoSize) (last : BlockSystem cfg)
      (issue : FsError) (detached : Detached faults parent name allowedTypes store unlinkedItem checked)
      (isFile : unlinkedItem.typ = .file)
      (sized : attempted faults.readSize (fetch (.inodeX unlinkedItem.ino .size)) checked = .ok (size, read))
      (loop : ClearLoop faults unlinkedItem.ino (divCeil size.size cfg.blockSize) checked last)
      (failed : issue ∈ last.ops.filterMap Op.failure) :
      RemoveChildRun cfg faults parent name allowedTypes store (.error issue) last.store
  | cleared (unlinkedItem : StorageDirItem) (checked read : Store) (size : InoSize) (last : BlockSystem cfg)
      (detached : Detached faults parent name allowedTypes store unlinkedItem checked)
      (isFile : unlinkedItem.typ = .file)
      (sized : attempted faults.readSize (fetch (.inodeX unlinkedItem.ino .size)) checked = .ok (size, read))
      (loop : ClearLoop faults unlinkedItem.ino (divCeil size.size cfg.blockSize) checked last)
      (noFailure : last.ops.filterMap Op.failure = []) :
      RemoveChildRun cfg faults parent name allowedTypes store
        (deleteRecords faults unlinkedItem.ino InoMetadata.iter last.store).1
        (deleteRecords faults unlinkedItem.ino InoMetadata.iter last.store).2
  | noData (unlinkedItem : StorageDirItem) (checked : Store)
      (detached : Detached faults parent name allowedTypes store unlinkedItem checked)
      (notFile : unlinkedItem.typ ≠ .file) :
      RemoveChildRun cfg faults parent name allowedTypes store
        (deleteRecords faults unlinkedItem.ino InoMetadata.iter checked).1
        (deleteRecords faults unlinkedItem.ino InoMetadata.iter checked).2

def RemoveChildFile (cfg : TiFsConfig) (faults : UnlinkFaults) (parent : ParentStorageIno) (name : ByteString)
    (store : Store) (result : Except FsError Unit) (after : Store) : Prop :=
  RemoveChildRun cfg faults parent name [.file, .symlink] store result after

section Decrement

variable {cfg : TiFsConfig} {store : Store} {hash : TiFsHash}

structure CountedDown (hash : TiFsHash) (store after : Store) : Prop where
  counted : counter after hash + 1 = counter store hash
  deleted : counter after hash = 0 →
    after.lookup (.countedNamedUsages hash) = none ∧ blockData after hash = none
  kept : counter after hash ≠ 0 → blockData after hash = blockData store hash
  frame : ∀ key : Key, key ≠ .countedNamedUsages hash → key ≠ .hashedBlock hash →
    after.lookup key = store.lookup key

theorem decrementOne_ran : atomically (hbDecrementBlocksReferenceCountAndDeleteIfZeroReached cfg (collect [(hash, 1)]))
    store = .ok ((), applyAll store (decrementWrites (prevCounterValues cfg store [hash]) hash 1)) := by
  change Except.ok ((), applyAll store (decrementWrites (prevCounterValues cfg store [hash]) hash 1 ++ [])) = _
  rw [List.append_nil]

theorem lookup_decrementWrites (prev : RefCounts) {key : Key} (notCounter : key ≠ .countedNamedUsages hash)
    (notBlock : key ≠ .hashedBlock hash) :
    (applyAll store (decrementWrites prev hash 1)).lookup key = store.lookup key := by
  apply lookup_applyAll_of_notMem
  simp only [decrementWrites]
  generalize (prev.lookup hash).getD 0 - (if (prev.lookup hash).getD 0 < 1 then (prev.lookup hash).getD 0 else 1) = left
  split
  · simp [notCounter, notBlock]
  · simp [notCounter]

theorem decrementOne_run (length : hash.length = cfg.hashLen) (positive : 0 < counter store hash) :
    ∃ after, atomically (hbDecrementBlocksReferenceCountAndDeleteIfZeroReached cfg (collect [(hash, 1)])) store =
      .ok ((), after) ∧ CountedDown hash store after := by
  have isPrev : ((prevCounterValues cfg store [hash]).lookup hash).getD 0 = counter store hash := by
    apply lookup_prevCounterValues
    · intro other listed
      rw [List.mem_singleton.mp listed]
      exact length
    · exact List.mem_singleton_self hash
  have isDec : (if counter store hash < 1 then counter store hash else 1) = 1 := if_neg (Nat.not_lt_of_le positive)
  refine ⟨_, decrementOne_ran, ?_⟩
  have frame : ∀ key : Key, key ≠ .countedNamedUsages hash → key ≠ .hashedBlock hash →
      (applyAll store (decrementWrites (prevCounterValues cfg store [hash]) hash 1)).lookup key = store.lookup key :=
    fun key notCounter notBlock => lookup_decrementWrites _ notCounter notBlock
  unfold decrementWrites at frame ⊢
  simp only [isPrev, isDec] at frame ⊢
  by_cases last : counter store hash - 1 = 0
  · rw [if_pos last] at frame ⊢
    have gone : (applyAll store [Mutation.delete (.countedNamedUsages hash), Mutation.delete (.hashedBlock hash)]).lookup
        (.countedNamedUsages hash) = none := by simp
    have isZero : counter (applyAll store [Mutation.delete (.countedNamedUsages hash),
        Mutation.delete (.hashedBlock hash)]) hash = 0 := by
      rw [counter, gone]
      rfl
    refine ⟨?_, fun _ => ⟨gone, by simp [blockData]⟩, fun left => absurd isZero left, frame⟩
    rw [isZero]
    omega
  · rw [if_neg last] at frame ⊢
    have isLess : counter (applyAll store [Mutation.put (.countedNamedUsages hash) (counter store hash - 1)]) hash =
        counter store hash - 1 := by
      rw [counter, applyAll_cons, applyAll_nil, lookup_put_self]
      rfl
    refine ⟨?_, fun isZero => absurd (isLess.symm.trans isZero) last, fun _ => ?_, frame⟩
    · rw [isLess]
      omega
    · exact lookup_put_of_ne store _ _ _ (by simp)

end Decrement

def ClearPhase.At (origin store : Store) (addr : BlockAddress) : ClearPhase → Prop
  | .replace => mapping store addr = mapping origin addr
  | .sizeUpdate _ => False
  | .decrement prevHash => prevHash = mapping origin addr ∧ mapping store addr = none
  | .done => mapping store addr = none

def SharedKept (origin store : Store) (ino : StorageIno) (hash : TiFsHash) : Prop :=
  (store.lookup (.countedNamedUsages hash) = origin.lookup (.countedNamedUsages hash) ∧
    blockData store hash = blockData origin hash) ∨
  ((∃ index, mapping origin ⟨ino, index⟩ = some hash) ∧
    (counter store hash = 0 → store.lookup (.countedNamedUsages hash) = none ∧ blockData store hash = none) ∧
    (counter store hash ≠ 0 → blockData store hash = blockData origin hash))

structure Clearing {cfg : TiFsConfig} (origin : Store) (ino : StorageIno) (blockCnt : Nat)
    (state : BlockSystem cfg) : Prop where
  count : state.ops.length = blockCnt
  tasks : ∀ (index : Nat) (op : Op cfg), state.ops[index]? = some op →
    ∃ phase, op = .clear ⟨⟨ino, index⟩, false, phase⟩ ∧ phase.At origin state.store ⟨ino, index⟩
  others : ∀ addr : BlockAddress, (addr.ino = ino → blockCnt ≤ addr.index) →
    mapping state.store addr = mapping origin addr
  frame : ∀ key : Key, key.isShared = false → (∀ addr, key ≠ .blockHash addr) →
    state.store.lookup key = origin.lookup key
  covered : state.Covered
  balanced : state.Exact
  shared : ∀ hash, SharedKept origin state.store ino hash

def ClearPhase.left : ClearPhase → Nat
  | .replace => 3
  | .sizeUpdate _ => 2
  | .decrement _ => 1
  | .done => 0

def Op.clearLeft {cfg : TiFsConfig} : Op cfg → Nat
  | .clear task => task.phase.left
  | _ => 0

def Op.isClear {cfg : TiFsConfig} : Op cfg → Bool
  | .clear _ => true
  | .ended _ => true
  | _ => false

section Progress

variable {cfg : TiFsConfig} {faults : UnlinkFaults} {ino : StorageIno} {blockCnt : Nat} {origin : Store}
  {state : BlockSystem cfg}

theorem ClearTask.left_of_step {task next : ClearTask} {ambient : Ambient} {store after : Store}
    (ran : task.step cfg ambient store = .ok (next, after)) :
    task.phase = .done ∨ next.phase.left < task.phase.left := by
  unfold ClearTask.step at ran
  split at ran
  · next current =>
      obtain ⟨⟨prevHash, between⟩, _, rest⟩ := except_bind_eq_ok ran
      rw [current]
      simp only at rest
      split at rest
      · obtain ⟨rfl, _⟩ := Prod.mk.inj (Except.ok.inj rest)
        exact Or.inr (Nat.lt_succ_self 2)
      · obtain ⟨rfl, _⟩ := Prod.mk.inj (Except.ok.inj rest)
        exact Or.inr (show 1 < 3 by decide)
  · next prevHash current =>
      obtain ⟨⟨_, between⟩, _, rest⟩ := except_bind_eq_ok ran
      obtain ⟨rfl, _⟩ := Prod.mk.inj (Except.ok.inj rest)
      rw [current]
      exact Or.inr (Nat.lt_succ_self 1)
  · next current =>
      obtain ⟨rfl, _⟩ := Prod.mk.inj (Except.ok.inj ran)
      rw [current]
      exact Or.inr Nat.zero_lt_one
  · next prevHash current =>
      obtain ⟨⟨_, between⟩, _, rest⟩ := except_bind_eq_ok ran
      obtain ⟨rfl, _⟩ := Prod.mk.inj (Except.ok.inj rest)
      rw [current]
      exact Or.inr Nat.zero_lt_one
  · next current => exact Or.inl current

theorem clearStep_closer (clears : ∀ op ∈ state.ops, op.isClear = true) {index : Nat} {op : Op cfg}
    (present : state.ops[index]? = some op) (unfinished : op.isFinished = false) (ambient : Ambient) :
    ∃ store next, clearStep faults state (index, ambient) = some ⟨store, state.ops.set index next⟩ ∧
      next.isClear = true ∧ next.clearLeft < op.clearLeft := by
  have isClear := clears op (List.mem_of_getElem? present)
  cases op with
  | clear task =>
      have notDone : task.phase ≠ .done := by simpa [Op.isFinished] using unfinished
      have waits : 0 < (Op.clear task : Op cfg).clearLeft := by
        cases phase : task.phase with
        | done => exact absurd phase notDone
        | _ => simp [Op.clearLeft, ClearPhase.left, phase]
      unfold clearStep
      simp only [present, Option.bind_some]
      cases faults.ofOp (.clear task) with
      | some issue => exact ⟨state.store, .ended (some issue), rfl, rfl, waits⟩
      | none =>
          simp only [BlockSystem.step, present, Op.step]
          cases ran : task.step cfg ambient state.store with
          | error issue => exact ⟨state.store, .ended (some issue), rfl, rfl, waits⟩
          | ok result =>
              refine ⟨result.2, .clear result.1, rfl, rfl, ?_⟩
              exact (ClearTask.left_of_step ran).resolve_left notDone
  | ended failure => cases unfinished
  | write task => cases isClear
  | clone task => cases isClear

theorem clears_run (run : Run (ClearStep faults) (fun _ _ => True)
    (⟨origin, clearTasks cfg ino blockCnt⟩ : BlockSystem cfg) state) : ∀ op ∈ state.ops, op.isClear = true := by
  refine Run.invariant (fun state : BlockSystem cfg => ∀ op ∈ state.ops, op.isClear = true) ?_ ?_ run
  · intro before task after clears taken _ op member
    unfold ClearStep clearStep at taken
    split at taken
    · obtain rfl := Option.some.inj taken
      rcases List.mem_or_eq_of_mem_set member with old | rfl
      · exact clears op old
      · rfl
    · have effect := BlockSystem.effect_of_step taken
      cases effect with
      | moved index ambient moving next store present ran =>
          rcases List.mem_or_eq_of_mem_set member with old | rfl
          · exact clears op old
          · have isClear := clears moving (List.mem_of_getElem? present)
            cases moving with
            | clear clearing =>
                obtain ⟨_, _, isNext⟩ := except_map_eq_ok ran
                rw [← (Prod.mk.inj isNext).1]
                rfl
            | ended failure =>
                rw [← (Prod.mk.inj (Except.ok.inj ran)).1]
                rfl
            | write writing => cases isClear
            | clone cloning => cases isClear
      | failed index ambient moving issue present ran =>
          rcases List.mem_or_eq_of_mem_set member with old | rfl
          · exact clears op old
          · rfl
  · intro op member
    obtain ⟨index, _, rfl⟩ := List.mem_map.mp member
    rfl

/-- The tasks return, whatever transactions they have taken before. -/
theorem clearLoop_reached (run : Run (ClearStep faults) (fun _ _ => True)
    (⟨origin, clearTasks cfg ino blockCnt⟩ : BlockSystem cfg) state) :
    ∃ last : BlockSystem cfg, ClearLoop faults ino blockCnt origin last := by
  induction isLeft : (state.ops.map Op.clearLeft).sum using Nat.strong_induction_on generalizing state with
  | _ left ih =>
      by_cases finished : ∀ op ∈ state.ops, op.isFinished = true
      · exact ⟨state, run, finished⟩
      · push Not at finished
        obtain ⟨op, member, unfinished⟩ := finished
        obtain ⟨index, present⟩ := List.mem_iff_getElem?.mp member
        obtain ⟨store, next, taken, _, closer⟩ : ∃ store next, clearStep faults state (index, ⟨0, 0⟩) =
            some ⟨store, state.ops.set index next⟩ ∧ next.isClear = true ∧ next.clearLeft < op.clearLeft :=
          clearStep_closer (clears_run run) present (by simpa using unfinished) ⟨0, 0⟩
        have changed := sum_map_set Op.clearLeft present next
        have fewerLeft : ((state.ops.set index next).map Op.clearLeft).sum < left := by omega
        exact ih _ fewerLeft (run.snoc (index, ⟨0, 0⟩) taken trivial) rfl

end Progress

section Loop

variable {cfg : TiFsConfig} {origin : Store} {ino : StorageIno} {blockCnt : Nat} {state : BlockSystem cfg}

theorem Clearing.set (clearing : Clearing origin ino blockCnt state) {index : Nat} {ambient : Ambient}
    {phase later : ClearPhase} {after : Store}
    (present : state.ops[index]? = some (.clear ⟨⟨ino, index⟩, false, phase⟩))
    (ran : (Op.clear ⟨⟨ino, index⟩, false, phase⟩ : Op cfg).step ambient state.store =
      .ok (.clear ⟨⟨ino, index⟩, false, later⟩, after))
    (atLater : later.At origin after ⟨ino, index⟩)
    (mappings : ∀ addr, addr ≠ ⟨ino, index⟩ → mapping after addr = mapping state.store addr)
    (frame : ∀ key : Key, key.isShared = false → (∀ addr, key ≠ .blockHash addr) →
      after.lookup key = state.store.lookup key)
    (shared : ∀ hash, SharedKept origin after ino hash) :
    Clearing origin ino blockCnt
      (⟨after, state.ops.set index (.clear ⟨⟨ino, index⟩, false, later⟩)⟩ : BlockSystem cfg) := by
  have taken : state.Step (.advance index ambient)
      ⟨after, state.ops.set index (.clear ⟨⟨ino, index⟩, false, later⟩)⟩ := by
    simp only [BlockSystem.Step, BlockSystem.step, present, ran]
  have lossless : state.Lossless (.advance index ambient) := by
    intro op isOp
    rw [present] at isOp
    obtain rfl := Option.some.inj isOp
    exact ⟨id, _, ran⟩
  have bound : index < blockCnt := clearing.count ▸ (List.getElem?_eq_some_iff.mp present).1
  constructor
  · rw [List.length_set]
    exact clearing.count
  · intro other op isOp
    rcases getElem?_set_cases isOp with ⟨rfl, rfl⟩ | ⟨different, isOld⟩
    · exact ⟨later, rfl, atLater⟩
    · obtain ⟨otherPhase, rfl, was⟩ := clearing.tasks other op isOld
      refine ⟨otherPhase, rfl, ?_⟩
      have same : mapping after ⟨ino, other⟩ = mapping state.store ⟨ino, other⟩ :=
        mappings _ fun equal => different (BlockAddress.mk.inj equal).2.symm
      cases otherPhase with
      | replace => exact same.trans was
      | sizeUpdate prevHash => exact was
      | decrement prevHash => exact ⟨was.1, same.trans was.2⟩
      | done => exact same.trans was
  · intro addr outside
    rw [mappings addr, clearing.others addr outside]
    rintro rfl
    exact absurd (outside rfl) (Nat.not_le_of_lt bound)
  · intro key own noMapping
    rw [frame key own noMapping, clearing.frame key own noMapping]
  · exact BlockSystem.covered_step clearing.covered taken
  · exact BlockSystem.exact_step clearing.covered clearing.balanced taken lossless
  · exact shared

theorem SharedKept.of_same {store after : Store} {hash : TiFsHash} (kept : SharedKept origin store ino hash)
    (counters : after.lookup (.countedNamedUsages hash) = store.lookup (.countedNamedUsages hash))
    (blocks : blockData after hash = blockData store hash) : SharedKept origin after ino hash := by
  have sameCounter : counter after hash = counter store hash := by rw [counter, counter, counters]
  unfold SharedKept at kept ⊢
  rw [sameCounter, counters, blocks]
  exact kept

theorem Clearing.owed_pos (clearing : Clearing origin ino blockCnt state) {index : Nat} {hash : TiFsHash}
    (present : state.ops[index]? = some (.clear ⟨⟨ino, index⟩, false, .decrement (some hash)⟩)) :
    0 < counter state.store hash := by
  have owed := clearing.covered.owedDecrements_le (List.mem_of_getElem? present) hash
  have one : (Op.clear ⟨⟨ino, index⟩, false, .decrement (some hash)⟩ : Op cfg).owedDecrements hash = 1 :=
    if_pos rfl
  omega

/-- Every task can take its next transaction. -/
theorem Clearing.advance (clearing : Clearing origin ino blockCnt state)
    (lengths : ∀ addr hash, mapping origin addr = some hash → hash.length = cfg.hashLen) (ambient : Ambient)
    {index : Nat} {op : Op cfg} (present : state.ops[index]? = some op) :
    ∃ next after, op.step ambient state.store = .ok (next, after) ∧
      Clearing origin ino blockCnt (⟨after, state.ops.set index next⟩ : BlockSystem cfg) := by
  obtain ⟨phase, rfl, atPhase⟩ := clearing.tasks index op present
  cases phase with
  | replace =>
      have accepted : ∀ hash ∈ prevHashes state.store [((⟨ino, index⟩ : BlockAddress), none)],
          hash.length = cfg.hashLen := by
        intro hash listed
        obtain ⟨address, isAddress, found⟩ := List.mem_filterMap.mp listed
        rw [List.mem_singleton.mp isAddress] at found
        exact lengths ⟨ino, index⟩ hash (atPhase.symm.trans found)
      have placed := replaced_applyAll state.store [((⟨ino, index⟩ : BlockAddress), none)] (List.nodup_singleton _)
      have ran : (Op.clear ⟨⟨ino, index⟩, false, .replace⟩ : Op cfg).step ambient state.store =
          .ok (.clear ⟨⟨ino, index⟩, false, .decrement (mapping origin ⟨ino, index⟩)⟩,
            applyAll state.store ([((⟨ino, index⟩ : BlockAddress), none)].map addressWrite)) := by
        rw [← show mapping state.store ⟨ino, index⟩ = mapping origin ⟨ino, index⟩ from atPhase, ← head_tally_prev]
        simp only [Op.step, ClearTask.step, replace_run, if_pos accepted]
        rfl
      refine ⟨_, _, ran, ?_⟩
      refine clearing.set present ran ⟨rfl, placed.placed _ (List.mem_singleton_self _)⟩ ?_ ?_ ?_
      · intro addr different
        apply placed.kept
        simpa using different
      · exact fun key _ noMapping => placed.frame key noMapping
      · intro hash
        exact (clearing.shared hash).of_same (placed.frame _ (by simp)) (placed.frame _ (by simp))
  | sizeUpdate prevHash => exact absurd atPhase id
  | decrement prevHash =>
      obtain ⟨isPrev, cleared⟩ := atPhase
      cases prevHash with
      | none =>
          have ran : (Op.clear ⟨⟨ino, index⟩, false, .decrement none⟩ : Op cfg).step ambient state.store =
              .ok (.clear ⟨⟨ino, index⟩, false, .done⟩, state.store) := rfl
          refine ⟨_, _, ran, ?_⟩
          exact clearing.set present ran cleared (fun _ _ => rfl) (fun _ _ _ => rfl) clearing.shared
      | some hash =>
          have positive := clearing.owed_pos present
          obtain ⟨after, counted, down⟩ := decrementOne_run (lengths _ hash isPrev.symm) positive
          have ran : (Op.clear ⟨⟨ino, index⟩, false, .decrement (some hash)⟩ : Op cfg).step ambient state.store =
              .ok (.clear ⟨⟨ino, index⟩, false, .done⟩, after) := by
            simp only [Op.step, ClearTask.step, counted]
            rfl
          have sameMapping : ∀ addr, mapping after addr = mapping state.store addr :=
            fun addr => down.frame _ (by simp) (by simp)
          refine ⟨_, _, ran, ?_⟩
          refine clearing.set present ran ((sameMapping _).trans cleared) (fun addr _ => sameMapping addr) ?_ ?_
          · exact fun key own _ => down.frame key (Key.ne_counter own hash) (Key.ne_hashedBlock own hash)
          · intro other
            by_cases same : other = hash
            · subst same
              refine Or.inr ⟨⟨index, isPrev.symm⟩, down.deleted, ?_⟩
              intro left
              rw [down.kept left]
              rcases clearing.shared other with untouched | touched
              · exact untouched.2
              · exact touched.2.2 (Nat.pos_iff_ne_zero.mp positive)
            · exact (clearing.shared other).of_same (down.frame _ (by simpa using same) (by simp))
                (down.frame _ (by simp) (by simpa using same))
  | done =>
      have ran : (Op.clear ⟨⟨ino, index⟩, false, .done⟩ : Op cfg).step ambient state.store =
          .ok (.clear ⟨⟨ino, index⟩, false, .done⟩, state.store) := rfl
      refine ⟨_, _, ran, ?_⟩
      exact clearing.set present ran atPhase (fun _ _ => rfl) (fun _ _ _ => rfl) clearing.shared

/-- A block of the file is mapped to no hash, every counter has lost what the file had, and
a block has gone with its counter. -/
structure Freed (origin : Store) (ino : StorageIno) (after : Store) : Prop where
  mappings : ∀ index, mapping after ⟨ino, index⟩ = none
  others : ∀ addr : BlockAddress, addr.ino ≠ ino → mapping after addr = mapping origin addr
  counters : ∀ hash, counter after hash + mappingsOf origin ino hash = counter origin hash
  deleted : ∀ hash, mappingsOf origin ino hash ≠ 0 → counter after hash = 0 →
    after.lookup (.countedNamedUsages hash) = none ∧ blockData after hash = none
  spared : ∀ hash, mappingsOf origin ino hash = 0 →
    after.lookup (.countedNamedUsages hash) = origin.lookup (.countedNamedUsages hash)
  blocks : ∀ hash, mappingsOf origin ino hash = 0 ∨ counter after hash ≠ 0 →
    blockData after hash = blockData origin hash

theorem mappingsOf_eq_zero_iff {hash : TiFsHash} :
    mappingsOf origin ino hash = 0 ↔ ∀ index, mapping origin ⟨ino, index⟩ ≠ some hash := by
  rw [mappingsOf, Finset.card_eq_zero, Finset.filter_eq_empty_iff]
  constructor
  · intro none index found
    exact none ((mem_mappedTo origin hash ⟨ino, index⟩).mpr found) rfl
  · intro none addr member isIno
    obtain ⟨addrIno, index⟩ := addr
    obtain rfl : addrIno = ino := isIno
    exact none index ((mem_mappedTo origin hash _).mp member)

theorem mapped_split {after : Store} (gone : ∀ index, mapping after ⟨ino, index⟩ = none)
    (others : ∀ addr : BlockAddress, addr.ino ≠ ino → mapping after addr = mapping origin addr) (hash : TiFsHash) :
    mapped after hash + mappingsOf origin ino hash = mapped origin hash := by
  have rest : mappedTo after hash = (mappedTo origin hash).filter fun addr => ¬ addr.ino = ino := by
    ext addr
    rw [Finset.mem_filter, mem_mappedTo, mem_mappedTo]
    by_cases isIno : addr.ino = ino
    · obtain ⟨addrIno, index⟩ := addr
      obtain rfl : addrIno = ino := isIno
      simp [gone index]
    · simp [others addr isIno, isIno]
  rw [mapped, mapped, rest, mappingsOf, Nat.add_comm]
  exact Finset.card_filter_add_card_filter_not _

theorem Clearing.freed (clearing : Clearing origin ino blockCnt state)
    (exact : ∀ hash, counter origin hash = mapped origin hash)
    (below : ∀ index, mapping origin ⟨ino, index⟩ ≠ none → index < blockCnt)
    (finished : ∀ op ∈ state.ops, op.isFinished = true) : Freed origin ino state.store := by
  have done : ∀ (index : Nat) (op : Op cfg), state.ops[index]? = some op →
      op = .clear ⟨⟨ino, index⟩, false, .done⟩ ∧ mapping state.store ⟨ino, index⟩ = none := by
    intro index op present
    obtain ⟨phase, rfl, atPhase⟩ := clearing.tasks index op present
    have isDone : phase = .done := by simpa [Op.isFinished] using finished _ (List.mem_of_getElem? present)
    rw [isDone] at atPhase ⊢
    exact ⟨rfl, atPhase⟩
  have gone : ∀ index, mapping state.store ⟨ino, index⟩ = none := by
    intro index
    by_cases within : index < blockCnt
    · rw [← clearing.count] at within
      exact (done index _ (List.getElem?_eq_getElem within)).2
    · rw [clearing.others _ fun _ => Nat.le_of_not_lt within]
      by_contra present
      exact within (below index present)
  have others : ∀ addr : BlockAddress, addr.ino ≠ ino → mapping state.store addr = mapping origin addr :=
    fun addr different => clearing.others addr fun same => absurd same different
  have paid : ∀ hash, (state.ops.map fun op => op.owed hash).sum = 0 := by
    intro hash
    apply List.sum_eq_zero
    intro amount listed
    obtain ⟨op, member, rfl⟩ := List.mem_map.mp listed
    obtain ⟨index, present⟩ := List.mem_iff_getElem?.mp member
    rw [(done index op present).1]
    rfl
  have counters : ∀ hash, counter state.store hash + mappingsOf origin ino hash = counter origin hash := by
    intro hash
    have balanced := clearing.balanced hash
    rw [paid hash, Nat.add_zero] at balanced
    rw [← balanced, exact hash]
    exact mapped_split gone others hash
  have same : ∀ hash, mappingsOf origin ino hash = 0 →
      state.store.lookup (.countedNamedUsages hash) = origin.lookup (.countedNamedUsages hash) ∧
        blockData state.store hash = blockData origin hash := by
    intro hash none
    rcases clearing.shared hash with untouched | ⟨⟨index, found⟩, _⟩
    · exact untouched
    · exact absurd found (mappingsOf_eq_zero_iff.mp none index)
  refine ⟨gone, others, counters, ?_, fun hash none => (same hash none).1, ?_⟩
  · intro hash some isZero
    rcases clearing.shared hash with untouched | touched
    · have unchanged : counter state.store hash = counter origin hash := by rw [counter, counter, untouched.1]
      have less := counters hash
      omega
    · exact touched.2.1 isZero
  · intro hash kept
    rcases kept with none | left
    · exact (same hash none).2
    · rcases clearing.shared hash with untouched | touched
      · exact untouched.2
      · exact touched.2.2 left

end Loop

/-- What holds of a store between two calls: entries and parent links mirror each other,
counters are exact, a mapped block is below the size of its file, and an entry for a file
is one for an inode with a size. -/
structure WellKept (cfg : TiFsConfig) (store : Store) : Prop where
  mirrored : Mirror store
  counted : ∀ hash, counter store hash = mapped store hash
  below : ∀ addr size, mapping store addr ≠ none → inoSize store addr.ino = some size →
    addr.index * cfg.blockSize < size.size
  hashes : ∀ addr hash, mapping store addr = some hash → hash.length = cfg.hashLen
  files : ∀ parent name item, dirEntry store parent name = some item →
    if item.typ = .file then inoSize store item.ino ≠ none
    else ∀ index, mapping store ⟨item.ino, index⟩ = none

def LinkRemoved (store : Store) (parent : ParentStorageIno) (name : ByteString) (ino : StorageIno)
    (after : Store) : Prop :=
  ∀ key, after.lookup key =
    if key = .directoryChild parent name ∨ key = .parentLink ino parent name then none else store.lookup key

section Unlink

variable {cfg : TiFsConfig} {store : Store} {parent : ParentStorageIno} {name : ByteString} {item : StorageDirItem}

theorem linkRemoved_removedLinks (store : Store) (parent : ParentStorageIno) (name : ByteString) (ino : StorageIno) :
    LinkRemoved store parent name ino (applyAll store (removedLinks parent name ino)) := by
  have distinct : ((removedLinks parent name ino).map Mutation.key).Nodup := by
    simp [removedLinks]
  intro key
  by_cases listed : key = .directoryChild parent name ∨ key = .parentLink ino parent name
  · rw [if_pos listed]
    rcases listed with rfl | rfl
    · exact lookup_applyAll_delete distinct (by simp [removedLinks])
    · exact lookup_applyAll_delete distinct (by simp [removedLinks])
  · rw [if_neg listed]
    apply lookup_applyAll_of_notMem
    simpa [removedLinks, or_comm] using listed

def LastLink (store : Store) (ino : StorageIno) (parent : ParentStorageIno) (name : ByteString) : Prop :=
  ∀ above entry, hasParentLink store ino above entry → (above, entry) = (parent, name)

theorem lastLink_iff_unlinked {ino : StorageIno} : LastLink store ino parent name ↔
    ∀ above entry, ¬ hasParentLink (applyAll store (removedLinks parent name ino)) ino above entry := by
  constructor
  · intro last above entry linked
    obtain ⟨different, was⟩ := (hasParentLink_removedLinks _ _ _ _ _ _ _).mp linked
    exact different ⟨rfl, last above entry was⟩
  · intro unlinked above entry was
    by_contra different
    apply unlinked above entry
    exact (hasParentLink_removedLinks _ _ _ _ _ _ _).mpr ⟨fun same => different same.2, was⟩

def descriptionDeleted (store : Store) (parent : ParentStorageIno) (name : ByteString) (ino : StorageIno) : Store :=
  applyAll (applyAll store (removedLinks parent name ino)) [Mutation.delete (.inodeX ino .description)]

theorem lookup_descriptionDeleted {ino : StorageIno} {key : Key} (noEntry : key ≠ .directoryChild parent name)
    (noLink : key ≠ .parentLink ino parent name) (noDescription : key ≠ .inodeX ino .description) :
    (descriptionDeleted store parent name ino).lookup key = store.lookup key := by
  rw [descriptionDeleted, applyAll_cons, applyAll_nil, lookup_delete_of_ne _ _ _ noDescription,
    linkRemoved_removedLinks store parent name ino key, if_neg (by simp [noEntry, noLink])]

theorem removed_iff {fault : Option FsError} {removed : Store} :
    attempted fault (directoryRemoveChild parent name [.file, .symlink]) store = .ok (item, removed) ↔
      fault = none ∧ dirEntry store parent name = some item ∧ item.typ ∈ [StorageDirItemKind.file, .symlink] ∧
        removed = applyAll store (removedLinks parent name item.ino) := by
  constructor
  · intro ran
    cases fault with
    | some issue => cases ran
    | none =>
        have committed : atomically (directoryRemoveChild parent name [.file, .symlink]) store = .ok (item, removed) := ran
        unfold atomically at committed
        split at committed
        · next result txn ended =>
            obtain ⟨rfl, rfl⟩ := Prod.mk.inj (Except.ok.inj committed)
            obtain ⟨found, allowed, rfl⟩ := removeChild_ok ended
            exact ⟨rfl, found, allowed, rfl⟩
        · cases committed
  · rintro ⟨rfl, found, allowed, rfl⟩
    exact atomically_eq_ok (removeChild_removed found allowed)

/-- The description goes exactly if the inode has no other parent link. -/
theorem check_run (store : Store) (parent : ParentStorageIno) (name : ByteString) (ino : StorageIno) :
    (LastLink store ino parent name → atomically (inodeCheckForDeleteAndDeleteAtomicallyDescription ino)
      (applyAll store (removedLinks parent name ino)) = .ok (.deletedInoDesc, descriptionDeleted store parent name ino)) ∧
    (¬ LastLink store ino parent name → atomically (inodeCheckForDeleteAndDeleteAtomicallyDescription ino)
      (applyAll store (removedLinks parent name ino)) =
        .ok (.stillUsed, applyAll store (removedLinks parent name ino))) := by
  constructor
  · intro last
    exact atomically_eq_ok (checkForDelete_deleted (lastLink_iff_unlinked.mp last))
  · intro linked
    rw [lastLink_iff_unlinked] at linked
    push Not at linked
    exact atomically_eq_ok (checkForDelete_used linked)

theorem detached_iff {faults : UnlinkFaults} {checked : Store} :
    Detached faults parent name [.file, .symlink] store item checked ↔
      faults.remove = none ∧ faults.check = none ∧ dirEntry store parent name = some item ∧
        item.typ ∈ [StorageDirItemKind.file, .symlink] ∧ LastLink store item.ino parent name ∧
        checked = descriptionDeleted store parent name item.ino := by
  obtain ⟨unused, used⟩ := check_run store parent name item.ino
  constructor
  · rintro ⟨removed, first, second⟩
    obtain ⟨noRemove, found, allowed, rfl⟩ := removed_iff.mp first
    cases noCheck : faults.check with
    | some issue =>
        rw [noCheck] at second
        cases second
    | none =>
        rw [noCheck] at second
        by_cases last : LastLink store item.ino parent name
        · obtain ⟨_, rfl⟩ := Prod.mk.inj (Except.ok.inj ((unused last).symm.trans second))
          exact ⟨noRemove, rfl, found, allowed, last, rfl⟩
        · cases (Prod.mk.inj (Except.ok.inj ((used last).symm.trans second))).1
  · rintro ⟨noRemove, noCheck, found, allowed, last, rfl⟩
    refine ⟨_, removed_iff.mpr ⟨noRemove, found, allowed, rfl⟩, ?_⟩
    rw [noCheck]
    exact unused last

def Key.isData : Key → Bool
  | .hashedBlock _ => true
  | .countedNamedUsages _ => true
  | .blockHash _ => true
  | _ => false

theorem Freed.congr {origin other between after : Store} {ino : StorageIno} (freed : Freed origin ino between)
    (before : ∀ key : Key, key.isData = true → other.lookup key = origin.lookup key)
    (later : ∀ key : Key, key.isData = true → after.lookup key = between.lookup key) : Freed other ino after := by
  have mappings : ∀ addr, mapping other addr = mapping origin addr := fun addr => before _ rfl
  have sameMappings : ∀ hash, mappingsOf other ino hash = mappingsOf origin ino hash := by
    intro hash
    have same : mappedTo other hash = mappedTo origin hash := by
      ext addr
      rw [mem_mappedTo, mem_mappedTo, mappings]
    rw [mappingsOf, mappingsOf, same]
  have counters : ∀ hash, counter other hash = counter origin hash := fun hash => by
    rw [counter, counter, before _ rfl]
  have laterCounters : ∀ hash, counter after hash = counter between hash := fun hash => by
    rw [counter, counter, later _ rfl]
  have laterBlocks : ∀ hash, blockData after hash = blockData between hash := fun hash => later _ rfl
  constructor
  · exact fun index => (later _ rfl).trans (freed.mappings index)
  · exact fun addr different => (later _ rfl).trans ((freed.others addr different).trans (mappings addr).symm)
  · intro hash
    rw [laterCounters, sameMappings, counters]
    exact freed.counters hash
  · intro hash some isZero
    rw [sameMappings] at some
    rw [laterCounters] at isZero
    rw [later _ rfl, laterBlocks]
    exact freed.deleted hash some isZero
  · intro hash none
    rw [sameMappings] at none
    rw [later _ rfl, before _ rfl]
    exact freed.spared hash none
  · intro hash kept
    rw [sameMappings, laterCounters] at kept
    exact (laterBlocks hash).trans ((freed.blocks hash kept).trans (before (.hashedBlock hash) rfl).symm)

/-- A file whose last entry is removed has its size until its blocks are cleared, and
anything else has no blocks. -/
theorem WellKept.cases (kept : WellKept cfg store) (found : dirEntry store parent name = some item) :
    (item.typ = .file ∧ ∃ size, inoSize (descriptionDeleted store parent name item.ino) item.ino = some size) ∨
    (item.typ ≠ .file ∧ ∀ index, mapping (descriptionDeleted store parent name item.ino) ⟨item.ino, index⟩ = none) := by
  have isFile := kept.files parent name item found
  split at isFile
  · next file =>
      rw [inoSize, lookup_descriptionDeleted (by simp) (by simp) (by simp)]
      exact Or.inl ⟨file, Option.ne_none_iff_exists'.mp isFile⟩
  · next other =>
      refine Or.inr ⟨other, ?_⟩
      intro index
      rw [mapping, lookup_descriptionDeleted (by simp) (by simp) (by simp)]
      exact isFile index

theorem sizeRead_iff {fault : Option FsError} {ino : StorageIno} {between read : Store} {size : InoSize} :
    attempted fault (fetch (.inodeX ino .size)) between = .ok (size, read) ↔
      fault = none ∧ inoSize between ino = some size ∧ read = between := by
  constructor
  · intro ran
    cases fault with
    | some issue => cases ran
    | none =>
        have succeeded : atomically (fetch (.inodeX ino .size)) between = .ok (size, read) := ran
        cases stored : inoSize between ino with
        | none =>
            have missing : (Txn.mk between []).view.lookup (.inodeX ino .size) = none := stored
            rw [atomically, fetch_of_none missing] at succeeded
            cases succeeded
        | some other =>
            have present : (Txn.mk between []).view.lookup (.inodeX ino .size) = some other := stored
            rw [atomically, fetch_of_some present] at succeeded
            obtain ⟨rfl, rfl⟩ := Prod.mk.inj (Except.ok.inj succeeded)
            exact ⟨rfl, rfl, rfl⟩
  · rintro ⟨rfl, stored, rfl⟩
    exact atomically_eq_ok (fetch_of_some stored)

end Unlink

def fileRecords : List Write :=
  [.put (.inodeX 10 .description) ⟨10, .file, 0⟩, .put (.inodeX 10 .size) ⟨2, 1, 0⟩,
   .put (.blockHash ⟨10, 0⟩) (padHash 3 [7, 7]), .put (.hashedBlock (padHash 3 [7, 7])) [7, 7],
   .put (.countedNamedUsages (padHash 3 [7, 7])) 1]

def linkedFile : Store :=
  applyAll (applyAll ∅ (addedLinks rootInode [97] ⟨10, .file⟩)) fileRecords

end TiFs
