import TiFs.FileHash
import TiFs.ReadBack

/-! The size record of a file that is written and allocated, one operation after the
other. A write takes the size from the ends of the blocks that it changes; that this is
the end of its range needs that no block reaches beyond the size. -/

namespace TiFs

open KeyValue Tables

/-- The number of blocks in the size record fits to the size. -/
def SizeCounted (cfg : TiFsConfig) (ino : StorageIno) (store : Store) : Prop :=
  ∃ size, inoSize store ino = some size ∧ size.blocks = divCeil size.size cfg.blockSize

theorem InoSize.setSize_blocks (current : InoSize) {size blockSize : Nat} (now : SystemTime)
    (different : current.size ≠ size) : (current.setSize size blockSize now).blocks = divCeil size blockSize := by
  rw [InoSize.setSize, if_pos different]

section Task

variable {cfg : TiFsConfig} {task : WriteTask cfg} {store after : Store} {phase : WritePhase}

theorem WriteMove.size_kept (move : WriteMove task store phase after)
    (notUpdate : ∀ decrements, task.phase ≠ .sizeUpdate decrements) :
    inoSize after task.ino = inoSize store task.ino := by
  cases move with
  | incremented prev after current counted => exact counted.frame _ (by simp)
  | uploaded blocks after current uploaded => exact uploaded.frame _ (by simp)
  | replaced decrements after current placed lengths => exact placed.frame _ (by simp)
  | fullHashCleared decrements current => exact lookup_delete_of_ne store _ (.inodeX task.ino .size) (by simp)
  | iterationChanged decrements uuid current => exact lookup_put_of_ne store _ (.inodeX task.ino .size) _ (by simp)
  | sizeTooSmall decrements size current stored small => rfl
  | sizeEnough decrements size current stored enough => rfl
  | sizeUpdated decrements size grown current stored small isMax => exact absurd current (notUpdate decrements)
  | sizeKept decrements size current stored enough => rfl
  | decremented decrements after current counted => exact counted.frame _ (by simp) (by simp)
  | finished current => rfl

theorem sizeUpdateB_run (cfg : TiFsConfig) (now : SystemTime) {ino : StorageIno} (target : Nat) {size : InoSize}
    (stored : inoSize store ino = some size) :
    atomically (hbReplaceBlockHashForAddressOnlySizeUpdateB cfg now ino target) store =
      .ok ((), if target > size.size then
        applyAll store [Mutation.put (.inodeX ino .size) (size.setSize target cfg.blockSize now)] else store) := by
  have view : (Txn.mk store []).view.lookup (.inodeX ino .size) = some size := stored
  rw [atomically, hbReplaceBlockHashForAddressOnlySizeUpdateB, bind_ok (fetch_of_some view)]
  by_cases small : target > size.size
  · rw [if_pos small, if_pos small]
    rfl
  · rw [if_neg small, if_neg small]
    rfl

theorem WriteTask.sizeCounted (sound : task.Sound) {ambient : Ambient} {next : WriteTask cfg}
    (ran : task.step ambient store = .ok (next, after)) (counted : SizeCounted cfg task.ino store) :
    SizeCounted cfg task.ino after := by
  obtain ⟨size, stored, isCount⟩ := counted
  by_cases update : ∃ decrements, task.phase = .sizeUpdate decrements
  · obtain ⟨decrements, current⟩ := update
    simp only [WriteTask.step, current, sizeUpdateB_run cfg ambient.now task.plan.maxFileSize stored] at ran
    obtain ⟨_, rfl⟩ := Prod.mk.inj (Except.ok.inj ran)
    by_cases small : task.plan.maxFileSize > size.size
    · rw [if_pos small]
      refine ⟨_, lookup_put_self store _ _, ?_⟩
      rw [InoSize.setSize_size, InoSize.setSize_blocks _ _ (Nat.ne_of_lt small)]
    · rw [if_neg small]
      exact ⟨size, stored, isCount⟩
  · push Not at update
    obtain ⟨phase, _, move⟩ := WriteTask.move_of_step sound ran
    exact ⟨size, (move.size_kept update).trans stored, isCount⟩

end Task

section Calls

variable {cfg : TiFsConfig} {ino : StorageIno} {involved : Set Bytes} {target : FileMap} {first last : WriteSystem cfg}

theorem proceed_store {state after : WriteSystem cfg} {i : Nat} {call : WriteCall}
    (proceeded : state.proceed i call = some after) : after.blocks.store = state.blocks.store := by
  unfold WriteSystem.proceed at proceeded
  split at proceeded
  · obtain rfl := Option.some.inj proceeded
    rfl
  · split at proceeded
    · obtain rfl := Option.some.inj proceeded
      rfl
    · obtain rfl := Option.some.inj proceeded
      rfl
  · split at proceeded
    · obtain rfl := Option.some.inj proceeded
      rfl
    · obtain rfl := Option.some.inj proceeded
      rfl
  · split at proceeded
    · obtain rfl := Option.some.inj proceeded
      rfl
    · cases proceeded
  · cases proceeded

theorem BlocksRefine.sizeCounted {file : FileMap} {before after : BlockSystem cfg} {k : Nat} {ambient : Ambient}
    (refines : BlocksRefine ino involved file before) (taken : before.Step (.advance k ambient) after)
    (counted : SizeCounted cfg ino before.store) : SizeCounted cfg ino after.store := by
  cases BlockSystem.effect_of_step taken with
  | failed k ambient op issue present ran => exact counted
  | moved k ambient op next store present ran =>
      have member := List.mem_of_getElem? present
      obtain ⟨task, rfl, rfl, _⟩ := refines.tasks op member
      obtain ⟨result, stepped, isNext⟩ := except_map_eq_ok ran
      obtain ⟨_, rfl⟩ := Prod.mk.inj isNext
      exact WriteTask.sizeCounted (refines.covered.sound _ member) stepped counted

theorem StartOrder.sizeCounted (injective : Set.InjOn cfg.calculateHash involved)
    (order : StartOrder ino involved target first) (run : Run WriteSystem.Step NoStart first last)
    (counted : SizeCounted cfg ino first.blocks.store) : SizeCounted cfg ino last.blocks.store := by
  induction run with
  | refl => exact counted
  | tail earlier step ih =>
      obtain ⟨event, taken, noStart⟩ := step
      obtain ⟨file, refines, _⟩ := order.run injective earlier
      cases event with
      | start client other jobs => cases noStart
      | evict client hash =>
          obtain rfl := Option.some.inj taken
          exact ih
      | proceed i =>
          obtain ⟨call, _, proceeded⟩ := Option.bind_eq_some_iff.mp taken
          rw [proceed_store proceeded]
          exact ih
      | transact k ambient =>
          obtain ⟨blocks, stepped, rfl⟩ := Option.map_eq_some_iff.mp taken
          exact refines.blocks.sizeCounted stepped ih

/-- One call alone leaves a size record that fits. -/
theorem writeAlone_sizeCounted (client : Nat) (injective : Set.InjOn cfg.calculateHash involved)
    {state after : IdleState} (inOrder : state.InOrder cfg ino) (present : state.blocks ⊆ involved)
    {jobs : List WriteTaskData} (nonempty : ∀ job ∈ jobs, 0 < job.data.length)
    (new : ∀ part ∈ writeParts cfg.blockSize jobs, (state.file ino).patched part ∈ involved)
    (counted : SizeCounted cfg ino state.store) (ran : WriteAlone cfg client ino jobs state after) :
    SizeCounted cfg ino after.store := by
  obtain ⟨last, run, _, rfl⟩ := ran
  have allowed : CallsAllowed cfg ino involved (storedFile state.store ino) [(client, jobs)] :=
    ⟨fun call member => by rw [List.mem_singleton.mp member]; exact nonempty,
      List.pairwise_singleton _ _, fun call member => by rw [List.mem_singleton.mp member]; exact new⟩
  have order := startOrder_begin inOrder.consistent inOrder.sound present allowed
  exact order.sizeCounted injective run counted

end Calls

inductive FileOp where
  | write (client start : Nat) (data : Bytes)
  | allocate (now : SystemTime) (offset length : Int)

namespace FileOp

def stop : FileOp → Nat
  | .write _ start data => start + data.length
  | .allocate _ offset length => (offset + length).toNat

def Valid : FileOp → Prop
  | .write _ _ data => data ≠ []
  | .allocate _ offset length => 0 ≤ offset ∧ 0 ≤ length ∧ offset + length < 2 ^ 63

/-- The operation alone, from its start until it has returned without an error. -/
inductive Alone (cfg : TiFsConfig) (ino : StorageIno) : FileOp → IdleState → IdleState → Prop
  | wrote (client start : Nat) (data : Bytes) (before after : IdleState)
      (ran : WriteAlone cfg client ino [⟨data, start⟩] before after) : Alone cfg ino (.write client start data) before after
  | allocated (now : SystemTime) (offset length : Int) (before : IdleState) (store : Store)
      (ran : atomically (inodeAllocateSize cfg now ino offset length) before.store = .ok ((), store)) :
      Alone cfg ino (.allocate now offset length) before ⟨store, before.caches⟩

def apply (blockSize : Nat) : FileOp → FileMap → FileMap
  | .write _ start data, file => file.writeBatch blockSize [⟨data, start⟩]
  | .allocate _ offset length, file => { file with size := max file.size (offset + length).toNat }

def blocks (blockSize : Nat) : FileOp → FileMap → Set Bytes
  | .write _ start data, file => {block | ∃ part ∈ writeParts blockSize [⟨data, start⟩], block = file.patched part}
  | .allocate _ _ _, _ => ∅

end FileOp

def madeBlocks (blockSize : Nat) : List FileOp → FileMap → Set Bytes
  | [], _ => ∅
  | op :: rest, file => op.blocks blockSize file ∪ madeBlocks blockSize rest (op.apply blockSize file)

inductive OpsInTurn (cfg : TiFsConfig) (ino : StorageIno) : IdleState → List (FileOp × IdleState) → Prop
  | nil (state : IdleState) : OpsInTurn cfg ino state []
  | cons {op : FileOp} {before after : IdleState} {rest : List (FileOp × IdleState)}
      (head : op.Alone cfg ino before after) (tail : OpsInTurn cfg ino after rest) :
      OpsInTurn cfg ino before ((op, after) :: rest)

/-- A file that has just been made. -/
structure NewFile (cfg : TiFsConfig) (ino : StorageIno) (state : IdleState) : Prop where
  inOrder : state.InOrder cfg ino
  unmapped : ∀ index, mapping state.store ⟨ino, index⟩ = none
  sized : ∃ now, inoSize state.store ino = some (InoSize.new now)

def SizeStep (cfg : TiFsConfig) (ino : StorageIno) (op : FileOp) (before after : IdleState) : Prop :=
  ∃ old size, inoSize before.store ino = some old ∧ inoSize after.store ino = some size ∧
    size.size = max old.size op.stop ∧ size.blocks = divCeil size.size cfg.blockSize ∧
    ∀ index hash data, mapping after.store ⟨ino, index⟩ = some hash → blockData after.store hash = some data →
      index * cfg.blockSize + data.length ≤ size.size

def SizeLaw (cfg : TiFsConfig) (ino : StorageIno) : IdleState → List (FileOp × IdleState) → Prop
  | _, [] => True
  | before, (op, after) :: rest => SizeStep cfg ino op before after ∧ SizeLaw cfg ino after rest

section Law

variable {cfg : TiFsConfig} {ino : StorageIno} {involved : Set Bytes} {state : IdleState}

theorem allocate_run (cfg : TiFsConfig) (now : SystemTime) {offset length : Int} (positive : 0 ≤ offset + length)
    (small : offset + length < 2 ^ 63) {store : Store} {size : InoSize} (stored : inoSize store ino = some size) :
    atomically (inodeAllocateSize cfg now ino offset length) store =
      .ok ((), if (offset + length).toNat ≤ size.size then store
        else applyAll store [Mutation.put (.inodeX ino .size)
          { size.setSize (offset + length).toNat cfg.blockSize now with lastChange := now }]) := by
  have target : (offset + length) % 2 ^ 64 = offset + length := Int.emod_eq_of_lt positive (by omega)
  have view : (Txn.mk store []).view.lookup (.inodeX ino .size) = some size := stored
  rw [atomically, inodeAllocateSize, bind_ok (fetch_of_some view)]
  simp only [target]
  by_cases enough : (offset + length).toNat ≤ size.size
  · rw [if_pos enough, if_pos enough]
    rfl
  · rw [if_neg enough, if_neg enough]
    rfl

theorem IdleState.InOrder.grown (inOrder : state.InOrder cfg ino) {larger : InoSize}
    (above : (state.file ino).size ≤ larger.size) :
    (⟨applyAll state.store [Mutation.put (.inodeX ino .size) larger], state.caches⟩ : IdleState).InOrder cfg ino ∧
      (⟨applyAll state.store [Mutation.put (.inodeX ino .size) larger], state.caches⟩ : IdleState).blocks =
        state.blocks ∧
      (⟨applyAll state.store [Mutation.put (.inodeX ino .size) larger], state.caches⟩ : IdleState).file ino =
        ⟨(state.file ino).content, larger.size⟩ := by
  have frame : ∀ key, key ≠ .inodeX ino .size →
      (applyAll state.store [Mutation.put (.inodeX ino .size) larger]).lookup key = state.store.lookup key :=
    fun key different => lookup_put_of_ne state.store _ _ _ different
  have blocks : ∀ hash, blockData (applyAll state.store [Mutation.put (.inodeX ino .size) larger]) hash =
      blockData state.store hash := fun hash => frame _ (by simp)
  have mappings : ∀ addr, mapping (applyAll state.store [Mutation.put (.inodeX ino .size) larger]) addr =
      mapping state.store addr := fun addr => frame _ (by simp)
  have counters : ∀ hash, counter (applyAll state.store [Mutation.put (.inodeX ino .size) larger]) hash =
      counter state.store hash := fun hash => by rw [counter, counter, frame _ (by simp)]
  have sized : inoSize (applyAll state.store [Mutation.put (.inodeX ino .size) larger]) ino = some larger :=
    lookup_put_self state.store _ _
  have isFile : storedFile (applyAll state.store [Mutation.put (.inodeX ino .size) larger]) ino =
      ⟨(state.file ino).content, larger.size⟩ := by
    apply FileMap.ext
    · funext index
      simp only [storedFile, mappings, IdleState.file]
      exact congrArg _ (funext blocks)
    · simp only [storedFile, sized]
      rfl
  refine ⟨⟨⟨?_, ?_, ?_, ?_, ?_⟩, inOrder.sound⟩, ?_, isFile⟩
  · intro hash
    rw [mapped_congr mappings hash, counters]
    exact inOrder.consistent.covered hash
  · intro hash counted
    rw [counters] at counted
    rw [blocks]
    exact inOrder.consistent.counted hash counted
  · intro hash data found
    rw [blocks] at found
    exact inOrder.consistent.addressed hash data found
  · rw [sized]
    rfl
  · rw [isFile]
    intro index data found
    obtain ⟨short, below⟩ := inOrder.consistent.bounded index data found
    exact ⟨short, below.trans above⟩
  · simp only [IdleState.blocks, presentBlocks, blocks]

theorem IdleState.InOrder.record (inOrder : state.InOrder cfg ino) :
    ∃ size, inoSize state.store ino = some size ∧ size.size = (state.file ino).size := by
  obtain ⟨size, stored⟩ := Option.isSome_iff_exists.mp inOrder.consistent.sized
  exact ⟨size, stored, by simp [IdleState.file, storedFile, stored]⟩

structure OpEffect (cfg : TiFsConfig) (ino : StorageIno) (involved : Set Bytes) (op : FileOp)
    (before after : IdleState) : Prop where
  inOrder : after.InOrder cfg ino
  counted : SizeCounted cfg ino after.store
  present : after.blocks ⊆ involved
  file : after.file ino = op.apply cfg.blockSize (before.file ino)

theorem write_effect (client start : Nat) {data : Bytes} (nonempty : data ≠ [])
    (injective : Set.InjOn cfg.calculateHash involved) (inOrder : state.InOrder cfg ino)
    (counted : SizeCounted cfg ino state.store) (present : state.blocks ⊆ involved)
    (new : (FileOp.write client start data).blocks cfg.blockSize (state.file ino) ⊆ involved) :
    (∃ after, (FileOp.write client start data).Alone cfg ino state after) ∧
      ∀ after, (FileOp.write client start data).Alone cfg ino state after →
        OpEffect cfg ino involved (.write client start data) state after := by
  have jobs : ∀ job ∈ [WriteTaskData.mk data start], 0 < job.data.length := by
    simpa using List.length_pos_iff.mpr nonempty
  have parts : ∀ part ∈ writeParts cfg.blockSize [⟨data, start⟩], (state.file ino).patched part ∈ involved :=
    fun part listed => new ⟨part, listed, rfl⟩
  obtain ⟨⟨reached, run⟩, spec⟩ := writeAlone_spec client injective inOrder present jobs parts
  refine ⟨⟨reached, .wrote client start data state reached run⟩, ?_⟩
  intro after alone
  cases alone with
  | wrote client start data before after ran =>
      obtain ⟨afterInOrder, within, isFile⟩ := spec after ran
      exact ⟨afterInOrder, writeAlone_sizeCounted client injective inOrder present jobs parts counted ran, within, isFile⟩

theorem allocate_effect (now : SystemTime) {offset length : Int} (positive : 0 ≤ offset + length)
    (small : offset + length < 2 ^ 63) (inOrder : state.InOrder cfg ino)
    (counted : SizeCounted cfg ino state.store) (present : state.blocks ⊆ involved) :
    (∃ after, (FileOp.allocate now offset length).Alone cfg ino state after) ∧
      ∀ after, (FileOp.allocate now offset length).Alone cfg ino state after →
        OpEffect cfg ino involved (.allocate now offset length) state after := by
  obtain ⟨size, stored, isSize⟩ := inOrder.record
  have allocated := allocate_run cfg now positive small stored
  refine ⟨⟨_, .allocated now offset length state _ allocated⟩, ?_⟩
  intro after alone
  cases alone with
  | allocated now offset length before store ran =>
      rw [allocated] at ran
      obtain ⟨_, rfl⟩ := Prod.mk.inj (Except.ok.inj ran)
      by_cases enough : (offset + length).toNat ≤ size.size
      · rw [if_pos enough]
        refine ⟨inOrder, counted, present, ?_⟩
        apply FileMap.ext
        · rfl
        · exact (max_eq_left (isSize ▸ enough)).symm
      · rw [if_neg enough]
        have larger : size.size < (offset + length).toNat := Nat.lt_of_not_le enough
        have isTarget : (size.setSize (offset + length).toNat cfg.blockSize now).size = (offset + length).toNat :=
          InoSize.setSize_size _ _ _ _
        obtain ⟨grown, sameBlocks, isFile⟩ := @IdleState.InOrder.grown cfg ino state inOrder
          { size.setSize (offset + length).toNat cfg.blockSize now with lastChange := now }
          (by rw [← isSize]; exact isTarget.symm ▸ Nat.le_of_lt larger)
        refine ⟨grown, ?_, sameBlocks ▸ present, ?_⟩
        · refine ⟨_, lookup_put_self state.store _ _, ?_⟩
          simp only [isTarget]
          exact InoSize.setSize_blocks size now (Nat.ne_of_lt larger)
        · rw [isFile]
          apply FileMap.ext
          · rfl
          · simp only [isTarget, FileOp.apply]
            exact (max_eq_right (isSize ▸ Nat.le_of_lt larger)).symm

theorem FileOp.effect {op : FileOp} (valid : op.Valid) (injective : Set.InjOn cfg.calculateHash involved)
    (inOrder : state.InOrder cfg ino) (counted : SizeCounted cfg ino state.store) (present : state.blocks ⊆ involved)
    (new : op.blocks cfg.blockSize (state.file ino) ⊆ involved) :
    (∃ after, op.Alone cfg ino state after) ∧
      ∀ after, op.Alone cfg ino state after → OpEffect cfg ino involved op state after := by
  cases op with
  | write client start data => exact write_effect client start valid injective inOrder counted present new
  | allocate now offset length =>
      obtain ⟨offsetPositive, lengthPositive, small⟩ := valid
      exact allocate_effect now (Int.add_nonneg offsetPositive lengthPositive) small inOrder counted present

theorem FileOp.size_apply {op : FileOp} (valid : op.Valid) (file : FileMap) :
    (op.apply cfg.blockSize file).size = max file.size op.stop := by
  cases op with
  | write client start data => exact size_write cfg.blockSize_pos (List.length_pos_iff.mpr valid)
  | allocate now offset length => rfl

theorem OpEffect.sizeStep {op : FileOp} {before after : IdleState} (effect : OpEffect cfg ino involved op before after)
    (valid : op.Valid) (inOrder : before.InOrder cfg ino) : SizeStep cfg ino op before after := by
  obtain ⟨old, wasStored, wasSize⟩ := inOrder.record
  obtain ⟨size, stored, isCount⟩ := effect.counted
  obtain ⟨other, sameStored, isSize⟩ := effect.inOrder.record
  obtain rfl := Option.some.inj (stored.symm.trans sameStored)
  refine ⟨old, size, wasStored, stored, ?_, isCount, ?_⟩
  · rw [isSize, effect.file, FileOp.size_apply valid, wasSize]
  · intro index hash data isMapped isStored
    have isContent : (after.file ino).content index = some data := by
      simp only [IdleState.file, storedFile, isMapped, Option.bind_some, isStored]
    rw [isSize]
    exact (effect.inOrder.consistent.bounded index data isContent).2

theorem sizeLaw_spec (ops : List FileOp) (injective : Set.InjOn cfg.calculateHash involved)
    (inOrder : state.InOrder cfg ino) (counted : SizeCounted cfg ino state.store) (present : state.blocks ⊆ involved)
    (valid : ∀ op ∈ ops, op.Valid) (new : madeBlocks cfg.blockSize ops (state.file ino) ⊆ involved) :
    (∃ trace, trace.map Prod.fst = ops ∧ OpsInTurn cfg ino state trace) ∧
      ∀ trace, trace.map Prod.fst = ops → OpsInTurn cfg ino state trace → SizeLaw cfg ino state trace := by
  induction ops generalizing state with
  | nil =>
      refine ⟨⟨[], rfl, .nil state⟩, ?_⟩
      intro trace isEmpty _
      rw [List.map_eq_nil_iff.mp isEmpty]
      trivial
  | cons op rest ih =>
      have opValid := valid op List.mem_cons_self
      obtain ⟨⟨next, alone⟩, spec⟩ := FileOp.effect opValid injective inOrder counted present
        (Set.subset_union_left.trans new)
      -- what the later operations need is there after the first one, whatever its run was
      have later : ∀ after, OpEffect cfg ino involved op state after →
          (∃ trace, trace.map Prod.fst = rest ∧ OpsInTurn cfg ino after trace) ∧
            ∀ trace, trace.map Prod.fst = rest → OpsInTurn cfg ino after trace → SizeLaw cfg ino after trace := by
        intro after effect
        apply ih effect.inOrder effect.counted effect.present
        · exact fun other listed => valid other (List.mem_cons_of_mem op listed)
        · rw [effect.file]
          exact Set.subset_union_right.trans new
      constructor
      · obtain ⟨trace, isRest, run⟩ := (later next (spec next alone)).1
        exact ⟨(op, next) :: trace, by rw [List.map_cons, isRest], .cons alone run⟩
      · intro trace isOps run
        cases run with
        | nil => cases isOps
        | cons head tail =>
            obtain ⟨rfl, isRest⟩ := List.cons.inj isOps
            have effect := spec _ head
            exact ⟨effect.sizeStep opValid inOrder, (later _ effect).2 _ isRest tail⟩

end Law

/-- Operations on a new file come to their ends one after the other. Each of them makes
the size the larger one of the size before and the end of its range, the number of blocks
is that of the size, and no block reaches beyond the size. -/
theorem file_size_law (cfg : TiFsConfig) (ino : StorageIno) (first : IdleState) (isNew : NewFile cfg ino first)
    (ops : List FileOp) (valid : ∀ op ∈ ops, op.Valid)
    (injective : Set.InjOn cfg.calculateHash (first.blocks ∪ madeBlocks cfg.blockSize ops FileMap.empty)) :
    (∃ trace, trace.map Prod.fst = ops ∧ OpsInTurn cfg ino first trace) ∧
      ∀ trace, trace.map Prod.fst = ops → OpsInTurn cfg ino first trace → SizeLaw cfg ino first trace := by
  obtain ⟨now, stored⟩ := isNew.sized
  have isEmpty : first.file ino = FileMap.empty := by
    apply FileMap.ext
    · funext index
      simp only [IdleState.file, storedFile, isNew.unmapped]
      rfl
    · simp only [IdleState.file, storedFile, stored]
      rfl
  have counted : SizeCounted cfg ino first.store := by
    refine ⟨_, stored, ?_⟩
    have positive := cfg.blockSize_pos
    exact (Nat.div_eq_of_lt (by simp only [InoSize.new]; omega)).symm
  apply sizeLaw_spec ops injective isNew.inOrder counted Set.subset_union_left valid
  rw [isEmpty]
  exact Set.subset_union_right

theorem madeBlocks_short {blockSize : Nat} (positive : 0 < blockSize) {ops : List FileOp} (valid : ∀ op ∈ ops, op.Valid)
    {file : FileMap} (wellFormed : file.WellFormed blockSize) :
    madeBlocks blockSize ops file ⊆ {block | block.length ≤ blockSize} := by
  induction ops generalizing file with
  | nil => exact Set.empty_subset _
  | cons op rest ih =>
      have opValid := valid op List.mem_cons_self
      have later := fun other listed => valid other (List.mem_cons_of_mem op listed)
      cases op with
      | write client start data =>
          have jobs : ∀ job ∈ [WriteTaskData.mk data start], 0 < job.data.length := by
            simpa using List.length_pos_iff.mpr opValid
          apply Set.union_subset
          · rintro block ⟨part, listed, rfl⟩
            obtain ⟨job, _, found⟩ := (mem_writeParts positive jobs).mp listed
            exact (patched_bound wellFormed (partAt_bound found).2).1
          · exact ih later (wellFormed_writeBatch positive jobs wellFormed)
      | allocate now offset length =>
          apply Set.union_subset
          · exact Set.empty_subset _
          · apply ih later
            intro index data found
            obtain ⟨short, below⟩ := wellFormed index data found
            exact ⟨short, below.trans (le_max_left _ _)⟩

/-- Three bytes behind a gap, then room for six. -/
theorem file_size_law_six_bytes : ∃ trace,
    trace.map Prod.fst = [.write 0 1 [7, 8, 9], .allocate 5 2 4] ∧
      OpsInTurn (paddingConfig 2 Nat.two_pos) 10 (newState 10) trace ∧
      SizeLaw (paddingConfig 2 Nat.two_pos) 10 (newState 10) trace := by
  have valid : ∀ op ∈ [FileOp.write 0 1 [7, 8, 9], .allocate 5 2 4], op.Valid := by
    simp [FileOp.Valid]
  have isNew : NewFile (paddingConfig 2 Nat.two_pos) 10 (newState 10) :=
    ⟨newState_inOrder _ 10, fun _ => rfl, 0, newFile_size 10⟩
  have empty : FileMap.empty.WellFormed 2 := fun index data found => by cases found
  obtain ⟨⟨trace, isOps, run⟩, law⟩ := file_size_law (paddingConfig 2 Nat.two_pos) 10 (newState 10) isNew _ valid
    ((padding_injOn Nat.two_pos).mono
      (Set.union_subset (newState_blocks_short 2 10) (madeBlocks_short Nat.two_pos valid empty)))
  exact ⟨trace, isOps, run, law trace isOps run⟩

end TiFs
