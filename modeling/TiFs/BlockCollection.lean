import TiFs.BlockEffects

/-! Which blocks stay in the store. A block is deleted with the transaction that counts its last
use down, so no block is left behind without a counter, whatever fails, and once all
operations are done the stored blocks are those that are mapped. -/

namespace TiFs

open KeyValue Tables

section Transactions

variable {cfg : TiFsConfig} {store after : Store} {hash : TiFsHash}

structure Collects (store after : Store) (hash : TiFsHash) : Prop where
  old : (blockData after hash).isSome → (blockData store hash).isSome
  counted : (blockData after hash).isSome → 0 < counter store hash → 0 < counter after hash

theorem collects_of_le (blocks : blockData after hash = blockData store hash)
    (counters : counter store hash ≤ counter after hash) : Collects store after hash where
  old := by
    rw [blocks]
    exact id
  counted := fun _ positive => positive.trans_le counters

theorem decrement_collects {decrements : RefCounts}
    (lengths : ∀ hash ∈ decrements, hash.length = cfg.hashLen)
    (ran : atomically (hbDecrementBlocksReferenceCountAndDeleteIfZeroReached cfg decrements) store =
      .ok ((), after)) (hash : TiFsHash) : Collects store after hash := by
  obtain ⟨between, first, lowered⟩ := decrement_spec cfg store decrements lengths
  obtain rfl : between = after := (Prod.mk.inj (Except.ok.inj (first.symm.trans ran))).2
  constructor
  · intro stored
    obtain ⟨data, found⟩ := Option.isSome_iff_exists.mp stored
    exact Option.isSome_of_eq_some (lowered.old hash data found)
  · intro stored positive
    rw [lowered.counted hash]
    by_cases listed : hash ∈ decrements
    · have more : (decrements.lookup hash).getD 0 < counter store hash := by
        by_contra enough
        rw [lowered.gone hash listed (Nat.le_of_not_lt enough)] at stored
        cases stored
      omega
    · rw [AList.lookup_eq_none.mpr listed]
      exact positive

theorem blockData_of_frame {same : Key → Prop}
    (frame : ∀ key, same key → after.lookup key = store.lookup key)
    (outside : same (.hashedBlock hash)) : blockData after hash = blockData store hash :=
  frame (.hashedBlock hash) outside

theorem counter_of_frame {same : Key → Prop}
    (frame : ∀ key, same key → after.lookup key = store.lookup key)
    (outside : same (.countedNamedUsages hash)) : counter after hash = counter store hash := by
  rw [counter, counter, frame (.countedNamedUsages hash) outside]

theorem collects_of_record (store : Store) (ino : StorageIno) (kind : InoMetadata) (value : Option kind.Value)
    (hash : TiFsHash) : Collects store (applyAll store [⟨.inodeX ino kind, value⟩]) hash := by
  have frame := Op.lookup_record store ino kind value
  exact collects_of_le (blockData_of_frame frame nofun) (counter_of_frame frame nofun).ge

theorem WriteTask.collects {task next : WriteTask cfg} {ambient : Ambient} (sound : task.Sound)
    (ran : task.step ambient store = .ok (next, after))
    (notUploaded : hash ∉ task.phase.uploads.map Prod.fst) :
    Collects store after hash := by
  obtain ⟨phase, rfl, move⟩ := task.move_of_step sound ran
  cases move with
  | incremented prev after current counted =>
      refine collects_of_le (blockData_of_frame counted.frame nofun) ?_
      rw [counted.counted hash]
      exact Nat.le_add_right _ _
  | uploaded blocks after current stored =>
      rw [current] at notUploaded
      exact collects_of_le (stored.kept hash notUploaded) (counter_of_frame stored.frame nofun).ge
  | replaced decrements after current placed lengths =>
      exact collects_of_le (blockData_of_frame placed.frame nofun) (counter_of_frame placed.frame nofun).ge
  | decremented decrements after current counted =>
      have lengths := sound.lengths
      rw [WriteTask.step, current] at ran
      obtain ⟨⟨_, between⟩, first, rest⟩ := except_bind_eq_ok ran
      obtain ⟨_, rfl⟩ := Prod.mk.inj (Except.ok.inj rest)
      rw [current] at lengths
      exact decrement_collects lengths first hash
  | fullHashCleared decrements current => exact collects_of_record store task.ino .fullHash none hash
  | iterationChanged decrements uuid current =>
      exact collects_of_record store task.ino .changeIterationId (some uuid) hash
  | sizeUpdated decrements size grown current stored small isMax =>
      exact collects_of_record store task.ino .size (some grown) hash
  | sizeTooSmall decrements size current stored small => exact collects_of_le rfl le_rfl
  | sizeEnough decrements size current stored enough => exact collects_of_le rfl le_rfl
  | sizeKept decrements size current stored enough => exact collects_of_le rfl le_rfl
  | finished current => exact collects_of_le rfl le_rfl

theorem ClearTask.collects {task next : ClearTask} {ambient : Ambient}
    (sound : ∀ hash, task.prevHash = some hash → hash.length = cfg.hashLen)
    (ran : task.step cfg ambient store = .ok (next, after)) (hash : TiFsHash) : Collects store after hash := by
  cases task.move_of_step sound ran with
  | replaced decrements after later current placed hashLength isLater =>
      exact collects_of_le (blockData_of_frame placed.frame nofun) (counter_of_frame placed.frame nofun).ge
  | sizeKept prevHash current => exact collects_of_le rfl le_rfl
  | sizeUpdated prevHash size current => exact collects_of_record store task.addr.ino .size (some size) hash
  | unmapped current => exact collects_of_le rfl le_rfl
  | decremented prevHash after current counted =>
      have lengths : ∀ other ∈ collect [(prevHash, 1)], other.length = cfg.hashLen := by
        intro other member
        rcases (AList.mem_insert _).mp member with rfl | absent
        · exact sound other (by simp only [ClearTask.prevHash, current])
        · exact absurd absent (AList.notMem_empty other)
      rw [ClearTask.step, current] at ran
      obtain ⟨⟨_, between⟩, first, rest⟩ := except_bind_eq_ok ran
      obtain ⟨_, rfl⟩ := Prod.mk.inj (Except.ok.inj rest)
      exact decrement_collects lengths first hash
  | finished current => exact collects_of_le rfl le_rfl

theorem CloneTask.collects {task next : CloneTask cfg} (ran : task.step store = .ok (next, after))
    (hash : TiFsHash) : Collects store after hash := by
  cases task.move_of_step ran with
  | incremented prev after current counted =>
      refine collects_of_le (blockData_of_frame counted.frame nofun) ?_
      rw [counted.counted hash]
      exact Nat.le_add_right _ _
  | placed decrements after current replaced =>
      exact collects_of_le (blockData_of_frame replaced.frame nofun) (counter_of_frame replaced.frame nofun).ge
  | finished current => exact collects_of_le rfl le_rfl

theorem Op.collects {op next : Op cfg} {ambient : Ambient} (sound : op.Sound)
    (ran : op.step ambient store = .ok (next, after)) (notUploaded : hash ∉ op.uploads.map Prod.fst) :
    Collects store after hash := by
  cases op with
  | write task =>
      obtain ⟨result, moved, isNext⟩ := except_map_eq_ok ran
      obtain ⟨rfl, rfl⟩ := Prod.mk.inj isNext
      exact task.collects sound moved notUploaded
  | clear task =>
      obtain ⟨result, moved, isNext⟩ := except_map_eq_ok ran
      obtain ⟨rfl, rfl⟩ := Prod.mk.inj isNext
      exact task.collects sound moved hash
  | clone task =>
      obtain ⟨result, moved, isNext⟩ := except_map_eq_ok ran
      obtain ⟨rfl, rfl⟩ := Prod.mk.inj isNext
      exact task.collects moved hash
  | ended failure =>
      obtain ⟨rfl, rfl⟩ := Prod.mk.inj (Except.ok.inj ran)
      exact collects_of_le rfl le_rfl

end Transactions

def Op.Filled {cfg : TiFsConfig} : Op cfg → Prop
  | .write task => task.plan.Filled
  | _ => True

theorem WriteTask.owed_of_upload {cfg : TiFsConfig} {task : WriteTask cfg} (sound : task.Sound)
    (filled : task.plan.Filled) {hash : TiFsHash} (listed : hash ∈ task.phase.uploads.map Prod.fst) :
    0 < task.owedIncrements hash := by
  cases current : task.phase with
  | upload blocks =>
      obtain ⟨prev, rfl⟩ := sound.uploads blocks current
      rw [current, WritePhase.uploads, blocksToUpload_fst] at listed
      obtain ⟨group, member, rfl⟩ := List.mem_map.mp listed
      have inPlan : group ∈ task.plan.groups := List.mem_of_mem_filter member
      have isAmount : amount task.plan.increments group.hash = group.ids.length :=
        amount_of_mem task.plan.increments_nodup (List.mem_map.mpr ⟨group, inPlan, rfl⟩)
      rw [WriteTask.owedIncrements, current]
      exact isAmount ▸ List.length_pos_of_ne_nil (filled group inPlan)
  | _ =>
      rw [current] at listed
      cases listed

namespace BlockSystem

variable {cfg : TiFsConfig}

/-- The writes are planned by `hb_write_data`: no block is counted that is not mapped. -/
def Planned (_ : BlockSystem cfg) : BlockEvent cfg → Prop
  | .spawn (.write _ plan) => plan.Filled
  | _ => True

structure Collected (state : BlockSystem cfg) : Prop where
  covered : state.Covered
  filled : ∀ op ∈ state.ops, op.Filled
  counted : ∀ hash, (blockData state.store hash).isSome → 0 < counter state.store hash

theorem filled_step {before after : BlockSystem cfg} {event : BlockEvent cfg}
    (filled : ∀ op ∈ before.ops, op.Filled) (sound : ∀ op ∈ before.ops, op.Sound)
    (taken : before.Step event after) (planned : before.Planned event) : ∀ op ∈ after.ops, op.Filled := by
  cases effect_of_step taken with
  | spawned work =>
      intro op member
      rcases List.mem_append.mp member with old | new
      · exact filled op old
      · rw [List.mem_singleton.mp new]
        cases work with
        | write ino plan => exact planned
        | clear addr doSizeUpdate => trivial
        | clone dst hashes lengths => trivial
  | moved i ambient op next store present ran =>
      intro other isOther
      rcases List.mem_or_eq_of_mem_set isOther with old | rfl
      · exact filled other old
      · have member := List.mem_of_getElem? present
        cases op with
        | write task =>
            obtain ⟨phase, rfl, _⟩ := Op.move_of_step (sound _ member) ran
            exact filled (.write task) member
        | clear task =>
            obtain ⟨result, _, isNext⟩ := except_map_eq_ok ran
            rw [← (Prod.mk.inj isNext).1]
            trivial
        | clone task =>
            obtain ⟨result, _, isNext⟩ := except_map_eq_ok ran
            rw [← (Prod.mk.inj isNext).1]
            trivial
        | ended failure =>
            rw [← (Prod.mk.inj (Except.ok.inj ran)).1]
            trivial
  | failed i ambient op issue present ran =>
      intro other isOther
      rcases List.mem_or_eq_of_mem_set isOther with old | rfl
      · exact filled other old
      · trivial
  | abandoned i op present =>
      intro other isOther
      rcases List.mem_or_eq_of_mem_set isOther with old | rfl
      · exact filled other old
      · trivial

theorem counter_pos_of_uploaded {op next : Op cfg} {ambient : Ambient} {store after : Store}
    (sound : op.Sound) (filled : op.Filled) (ran : op.step ambient store = .ok (next, after)) {hash : TiFsHash}
    (listed : hash ∈ op.uploads.map Prod.fst) : 0 < next.owedIncrements hash := by
  cases op with
  | write task =>
      have owed := task.owed_of_upload sound filled listed
      obtain ⟨phase, rfl, move⟩ := Op.move_of_step sound ran
      have isUpload : ∃ blocks, task.phase = .upload blocks := by
        cases current : task.phase with
        | upload blocks => exact ⟨blocks, rfl⟩
        | _ =>
            rw [Op.uploads, current] at listed
            cases listed
      obtain ⟨blocks, isUpload⟩ := isUpload
      cases move.blockMove with
      | uploaded other after current stored =>
          rw [WriteTask.owedIncrements, isUpload] at owed
          exact owed
      | incremented prev after current counted =>
          rw [isUpload] at current
          cases current
      | replaced decrements after current placed lengths =>
          rw [isUpload] at current
          cases current
      | decremented decrements after current counted =>
          rw [isUpload] at current
          cases current
      | quiet phase after frame before later same =>
          rw [isUpload] at before
          cases before
  | clear task => cases listed
  | clone task => cases listed
  | ended failure => cases listed

theorem collected_step {before after : BlockSystem cfg} {event : BlockEvent cfg}
    (collected : before.Collected) (taken : before.Step event after) (planned : before.Planned event) :
    after.Collected := by
  have covered := covered_step collected.covered taken
  refine ⟨covered, filled_step collected.filled collected.covered.sound taken planned, ?_⟩
  cases effect_of_step taken with
  | spawned work => exact collected.counted
  | moved i ambient op next store present ran =>
      have member := List.mem_of_getElem? present
      intro hash stored
      by_cases uploaded : hash ∈ op.uploads.map Prod.fst
      · have owed := counter_pos_of_uploaded (collected.covered.sound op member) (collected.filled op member)
          ran uploaded
        have inside : i < before.ops.length := (List.getElem?_eq_some_iff.mp present).1
        exact covered.counter_pos (List.mem_set inside next) owed
      · have collects := Op.collects (collected.covered.sound op member) ran uploaded
        exact collects.counted stored (collected.counted hash (collects.old stored))
  | failed i ambient op issue present ran => exact collected.counted
  | abandoned i op present => exact collected.counted

/-- The store counts its blocks: a counter is the number of the mappings, and what has a block
is counted. -/
structure Tidy (store : Store) : Prop where
  exact : ∀ hash, counter store hash = mapped store hash
  counted : ∀ hash, (blockData store hash).isSome → 0 < counter store hash

theorem collected_start {store : Store} (tidy : Tidy store) :
    Collected (⟨store, []⟩ : BlockSystem cfg) where
  covered := ⟨fun _ member => absurd member List.not_mem_nil, fun hash => (tidy.exact hash).ge⟩
  filled := fun _ member => absurd member List.not_mem_nil
  counted := tidy.counted

/-- No block is left behind: whatever writes, clears and clones do beside each other, and wherever
they fail or are given up, a block is in the store only as long as its counter is above zero. -/
theorem stored_blocks_counted (store : Store) (tidy : Tidy store) {state : BlockSystem cfg}
    (run : Run Step Planned (⟨store, []⟩ : BlockSystem cfg) state) {hash : TiFsHash}
    (stored : (blockData state.store hash).isSome) : 0 < counter state.store hash := by
  have preserved : ∀ (before : BlockSystem cfg) event after, before.Collected → before.Step event after →
      before.Planned event → after.Collected := by
    intro before event after collected taken planned
    exact collected_step collected taken planned
  exact (Run.invariant Collected preserved (collected_start tidy) run).counted hash stored

instance (state : BlockSystem cfg) (event : BlockEvent cfg) : Decidable (state.Planned event) :=
  match event with
  | .spawn (.write _ plan) => inferInstanceAs (Decidable (∀ group ∈ plan.groups, group.ids ≠ []))
  | .spawn (.clear _ _) => isTrue trivial
  | .spawn (.clone _ _ _) => isTrue trivial
  | .advance _ _ => isTrue trivial
  | .abandon _ => isTrue trivial

theorem tidy_of_unmapped {store : Store} (counters : ∀ hash, counter store hash = 0)
    (mappings : ∀ addr, mapping store addr = none) (blocks : ∀ hash, blockData store hash = none) :
    Tidy store where
  exact := by
    intro hash
    have unmapped : mapped store hash = mapped ∅ hash := mapped_congr mappings hash
    rw [counters, unmapped]
    rfl
  counted := by
    intro hash stored
    rw [blocks hash] at stored
    cases stored

/-- A write given up between its upload and its mappings leaves a block that is counted. -/
theorem stored_blocks_counted_abandoned :
    ∃ state : BlockSystem (paddingConfig 2 (by decide)),
      Run Step Planned ⟨∅, []⟩ state ∧ (blockData state.store (padHash 3 [7, 7])).isSome ∧
      mapped state.store (padHash 3 [7, 7]) = 0 ∧ 0 < counter state.store (padHash 3 [7, 7]) := by
  obtain ⟨state, run, checked⟩ := exists_run Planned
    (⟨∅, []⟩ : BlockSystem (paddingConfig 2 (by decide)))
    [.spawn (.write 10 twoBlocksPlan), .advance 0 ⟨0, 0⟩, .advance 0 ⟨0, 0⟩, .abandon 0]
    (fun state => (blockData state.store (padHash 3 [7, 7])).isSome ∧
      mapped state.store (padHash 3 [7, 7]) = 0) (by decide +kernel)
  have tidy : Tidy ∅ := tidy_of_unmapped (fun _ => rfl) (fun _ => rfl) (fun _ => rfl)
  obtain ⟨stored, unmapped⟩ := of_decide_eq_true checked
  exact ⟨state, run, stored, unmapped, stored_blocks_counted ∅ tidy run stored⟩

/-- A counted block is there, or a write is about to upload it. -/
def Backed (state : BlockSystem cfg) : Prop :=
  ∀ hash, 0 < counter state.store hash → (blockData state.store hash).isSome ∨
    ∃ op ∈ state.ops, hash ∈ op.uploads.map Prod.fst

def Op.isClone : Op cfg → Bool
  | .clone _ => true
  | _ => false

/-- Writes and clears, none of which fails or is given up. -/
def Complete (state : BlockSystem cfg) (event : BlockEvent cfg) : Prop :=
  state.Planned event ∧ state.Lossless event ∧
    ∀ dst hashes lengths, event ≠ .spawn (.clone dst hashes lengths)

/-- A counter that was zero is raised by a write that goes on to upload the block. -/
theorem uploads_of_counted {op next : Op cfg} {ambient : Ambient} {store after : Store} (sound : op.Sound)
    (noClone : Op.isClone op = false) (ran : op.step ambient store = .ok (next, after)) {hash : TiFsHash}
    (uncounted : counter store hash = 0) (counted : 0 < counter after hash) :
    hash ∈ next.uploads.map Prod.fst := by
  have unchanged : counter after hash ≤ counter store hash → hash ∈ next.uploads.map Prod.fst := by
    intro atMost
    omega
  cases op with
  | write task =>
      obtain ⟨phase, rfl, move⟩ := Op.move_of_step sound ran
      cases move.blockMove with
      | incremented prev after current raised =>
          have isSum := raised.counted hash
          have listed : 0 < amount task.plan.increments hash := by omega
          obtain ⟨group, member, rfl⟩ := task.plan.mem_of_amount_pos listed
          apply mem_blocksToUpload task.plan member
          rw [raised.previous group.hash, uncounted]
          rw [task.plan.increments_hashes]
          exact List.mem_map_of_mem member
      | uploaded blocks after current stored => exact unchanged (counter_of_frame stored.frame nofun).le
      | replaced decrements after current placed lengths =>
          exact unchanged (counter_of_frame placed.frame nofun).le
      | decremented decrements after current lowered =>
          apply unchanged
          rw [lowered.counted hash]
          exact Nat.sub_le _ _
      | quiet phase after frame before later same => exact unchanged (counter_of_frame frame nofun).le
  | clear task =>
      obtain ⟨⟨later, between⟩, moved, isNext⟩ := except_map_eq_ok ran
      obtain ⟨rfl, rfl⟩ := Prod.mk.inj isNext
      cases task.move_of_step sound moved with
      | replaced decrements after later current placed hashLength isLater =>
          exact unchanged (counter_of_frame placed.frame nofun).le
      | sizeKept prevHash current => exact unchanged le_rfl
      | sizeUpdated prevHash size current =>
          exact unchanged (counter_of_frame (Op.lookup_record store _ .size (some size)) nofun).le
      | unmapped current => exact unchanged le_rfl
      | decremented prevHash after current lowered =>
          apply unchanged
          rw [lowered.counted hash]
          exact Nat.sub_le _ _
      | finished current => exact unchanged le_rfl
  | clone task => cases noClone
  | ended failure =>
      obtain ⟨rfl, rfl⟩ := Prod.mk.inj (Except.ok.inj ran)
      exact unchanged le_rfl

theorem isClone_of_step {op next : Op cfg} {ambient : Ambient} {store after : Store}
    (ran : op.step ambient store = .ok (next, after)) : Op.isClone next = Op.isClone op := by
  cases op with
  | write task =>
      obtain ⟨result, _, isNext⟩ := except_map_eq_ok ran
      rw [← (Prod.mk.inj isNext).1]
      rfl
  | clear task =>
      obtain ⟨result, _, isNext⟩ := except_map_eq_ok ran
      rw [← (Prod.mk.inj isNext).1]
      rfl
  | clone task =>
      obtain ⟨result, _, isNext⟩ := except_map_eq_ok ran
      rw [← (Prod.mk.inj isNext).1]
      rfl
  | ended failure => rw [← (Prod.mk.inj (Except.ok.inj ran)).1]

theorem backed_moved {before : BlockSystem cfg} (backed : before.Backed)
    (sound : ∀ op ∈ before.ops, op.Sound)
    {i : Nat} {op next : Op cfg} (present : before.ops[i]? = some op) (noClone : Op.isClone op = false)
    {ambient : Ambient} {store : Store} (ran : op.step ambient before.store = .ok (next, store)) :
    Backed (⟨store, before.ops.set i next⟩ : BlockSystem cfg) := by
  intro hash positive
  have member := List.mem_of_getElem? present
  have inside : i < before.ops.length := (List.getElem?_eq_some_iff.mp present).1
  have effect := (Op.effect_of_step (sound op member) ran).1
  have stays : hash ∉ op.uploads.map Prod.fst → (blockData before.store hash).isSome →
      (blockData store hash).isSome := by
    intro notUploaded stored
    by_cases spared : op.Spares before.store hash
    · rw [effect.kept hash notUploaded spared]
      exact stored
    · have zero := effect.zero hash spared
      simp only at positive
      omega
  by_cases uploaded : hash ∈ op.uploads.map Prod.fst
  · obtain ⟨block, isUpload, rfl⟩ := List.mem_map.mp uploaded
    exact Or.inl (Option.isSome_of_eq_some (effect.uploaded block isUpload))
  · by_cases counted : 0 < counter before.store hash
    · rcases backed hash counted with stored | ⟨other, isOther, pending⟩
      · exact Or.inl (stays uploaded stored)
      · have different : other ≠ op := by
          rintro rfl
          exact uploaded pending
        exact Or.inr ⟨other, (eq_or_mem_set present isOther next).resolve_left different, pending⟩
    · exact Or.inr ⟨next, List.mem_set inside next,
        uploads_of_counted (sound op member) noClone ran (Nat.eq_zero_of_not_pos counted) positive⟩

structure Settled (state : BlockSystem cfg) : Prop where
  collected : state.Collected
  exact : state.Exact
  backed : state.Backed
  noClone : ∀ op ∈ state.ops, Op.isClone op = false

theorem settled_step {before after : BlockSystem cfg} {event : BlockEvent cfg} (settled : before.Settled)
    (taken : before.Step event after) (complete : before.Complete event) : after.Settled := by
  obtain ⟨planned, lossless, noClone⟩ := complete
  have collected := collected_step settled.collected taken planned
  have exact := exact_step settled.collected.covered settled.exact taken lossless
  cases effect_of_step taken with
  | spawned work =>
      refine ⟨collected, exact, ?_, ?_⟩
      · intro hash positive
        refine (settled.backed hash positive).imp_right ?_
        intro pending
        obtain ⟨op, member, listed⟩ := pending
        exact ⟨op, List.mem_append_left _ member, listed⟩
      · intro op member
        rcases List.mem_append.mp member with old | new
        · exact settled.noClone op old
        · rw [List.mem_singleton.mp new]
          cases work with
          | write ino plan => rfl
          | clear addr doSizeUpdate => rfl
          | clone dst hashes lengths => exact absurd rfl (noClone dst hashes lengths)
  | moved i ambient op next store present ran =>
      have isFree := settled.noClone op (List.mem_of_getElem? present)
      have backed := backed_moved settled.backed settled.collected.covered.sound present isFree ran
      refine ⟨collected, exact, backed, ?_⟩
      intro other isOther
      rcases List.mem_or_eq_of_mem_set isOther with old | rfl
      · exact settled.noClone other old
      · rw [isClone_of_step ran]
        exact isFree
  | failed i ambient op issue present ran =>
      obtain ⟨_, result, succeeded⟩ := lossless op present
      rw [ran] at succeeded
      cases succeeded
  | abandoned i op present => exact absurd lossless id

def Op.isDone : Op cfg → Bool
  | .write task => decide (task.phase = .done)
  | .clear task => decide (task.phase = .done)
  | .clone task => decide (task.phase = .done)
  | .ended _ => true

theorem owed_of_isDone {op : Op cfg} (isDone : Op.isDone op = true) (hash : TiFsHash) :
    op.owed hash = 0 ∧ hash ∉ op.uploads.map Prod.fst := by
  cases op with
  | write task =>
      obtain ⟨ino, plan, phase⟩ := task
      obtain rfl := of_decide_eq_true isDone
      exact ⟨rfl, List.not_mem_nil⟩
  | clear task =>
      obtain ⟨addr, doSizeUpdate, phase⟩ := task
      obtain rfl := of_decide_eq_true isDone
      exact ⟨rfl, List.not_mem_nil⟩
  | clone task =>
      obtain ⟨dst, hashes, phase, lengths⟩ := task
      obtain rfl := of_decide_eq_true isDone
      exact ⟨rfl, List.not_mem_nil⟩
  | ended failure => exact ⟨rfl, List.not_mem_nil⟩

/-- The blocks in use are stored and no others: once any number of writes and clears are done,
beside each other and without a failure, a counter is the number of mappings of its hash, and
a block is stored exactly if some address is mapped to it. -/
theorem stored_blocks_mapped (store : Store) (tidy : Tidy store)
    (backed : ∀ hash, 0 < counter store hash → (blockData store hash).isSome) {state : BlockSystem cfg}
    (run : Run Step Complete (⟨store, []⟩ : BlockSystem cfg) state)
    (done : ∀ op ∈ state.ops, Op.isDone op = true) (hash : TiFsHash) :
    counter state.store hash = mapped state.store hash ∧
      ((blockData state.store hash).isSome ↔ ∃ addr, mapping state.store addr = some hash) := by
  have preserved : ∀ (before : BlockSystem cfg) event after, before.Settled → before.Step event after →
      before.Complete event → after.Settled := by
    intro before event after settled taken complete
    exact settled_step settled taken complete
  have start : Settled (⟨store, []⟩ : BlockSystem cfg) := by
    have exact : Exact (⟨store, []⟩ : BlockSystem cfg) := fun hash => (tidy.exact hash).symm
    exact ⟨collected_start tidy, exact, fun hash positive => Or.inl (backed hash positive),
      fun _ member => absurd member List.not_mem_nil⟩
  have settled := Run.invariant Settled preserved start run
  have free : (state.ops.map fun op => op.owed hash).sum = 0 := by
    apply List.sum_eq_zero
    intro owed listed
    obtain ⟨op, member, rfl⟩ := List.mem_map.mp listed
    exact (owed_of_isDone (done op member) hash).1
  have exact := settled.exact hash
  rw [free, Nat.add_zero] at exact
  refine ⟨exact.symm, ?_⟩
  constructor
  · intro stored
    have positive := settled.collected.counted hash stored
    rw [← exact] at positive
    obtain ⟨addr, listed⟩ := Finset.card_pos.mp positive
    exact ⟨addr, (mem_mappedTo state.store hash addr).mp listed⟩
  · intro isMapped
    obtain ⟨addr, found⟩ := isMapped
    rcases settled.backed hash (exact ▸ mapped_pos_of_mapping found) with stored | ⟨op, member, pending⟩
    · exact stored
    · exact absurd pending (owed_of_isDone (done op member) hash).2

instance (store : Store) (op : Op cfg) : Decidable (op.Overwrites store) :=
  match op with
  | .write _ => isFalse id
  | .clear _ => isFalse id
  | .clone task => inferInstanceAs (Decidable (task.phase = .map ∧ prevHashes store task.addresses ≠ []))
  | .ended _ => isFalse id

instance (state : BlockSystem cfg) (event : BlockEvent cfg) : Decidable (state.Lossless event) :=
  match event with
  | .spawn _ => isTrue trivial
  | .advance i ambient =>
      decidable_of_iff (∀ op ∈ state.ops[i]?, ¬ op.Overwrites state.store ∧
          (op.step ambient state.store).isOk) <| by
        refine forall₂_congr fun op _ => and_congr_right fun _ => ?_
        cases op.step ambient state.store <;> simp [Except.isOk, Except.toBool]
  | .abandon _ => isFalse id

instance (state : BlockSystem cfg) (event : BlockEvent cfg) : Decidable (state.Complete event) :=
  match event with
  | .spawn (.clone dst hashes lengths) => isFalse fun complete => complete.2.2 dst hashes lengths rfl
  | .spawn (.write _ plan) => decidable_of_iff (∀ group ∈ plan.groups, group.ids ≠ [])
      ⟨fun filled => ⟨filled, trivial, nofun⟩, And.left⟩
  | .spawn (.clear _ _) => isTrue ⟨trivial, trivial, nofun⟩
  | .advance i ambient => decidable_of_iff (state.Lossless (.advance i ambient))
      ⟨fun lossless => ⟨trivial, lossless, nofun⟩, fun complete => complete.2.1⟩
  | .abandon _ => isFalse fun complete => complete.2.1

/-- A second write counts the block before the only address mapped to it is cleared: the clear
leaves the block, which the write then maps. -/
theorem stored_blocks_mapped_cleared :
    ∃ state : BlockSystem (paddingConfig 2 (by decide)),
      Run Step Complete ⟨newFile 10, []⟩ state ∧ mapping state.store ⟨10, 0⟩ = none ∧
      counter state.store (padHash 3 [7, 7]) = mapped state.store (padHash 3 [7, 7]) ∧
      (blockData state.store (padHash 3 [7, 7])).isSome := by
  obtain ⟨state, run, checked⟩ := exists_run Complete
    (⟨newFile 10, []⟩ : BlockSystem (paddingConfig 2 (by decide)))
    [.spawn (.write 10 (oneBlockPlan 0)), .advance 0 ⟨0, 0⟩, .advance 0 ⟨0, 0⟩, .advance 0 ⟨0, 0⟩,
      .advance 0 ⟨0, 0⟩, .advance 0 ⟨0, 0⟩, .advance 0 ⟨0, 0⟩, .advance 0 ⟨0, 0⟩, .advance 0 ⟨0, 0⟩,
      .spawn (.write 10 (oneBlockPlan 1)), .advance 1 ⟨0, 0⟩,
      .spawn (.clear ⟨10, 0⟩ false), .advance 2 ⟨0, 0⟩, .advance 2 ⟨0, 0⟩,
      .advance 1 ⟨0, 0⟩, .advance 1 ⟨0, 0⟩, .advance 1 ⟨0, 0⟩, .advance 1 ⟨0, 0⟩, .advance 1 ⟨0, 0⟩,
      .advance 1 ⟨0, 0⟩, .advance 1 ⟨0, 0⟩]
    (fun state => (∀ op ∈ state.ops, Op.isDone op = true) ∧ mapping state.store ⟨10, 0⟩ = none ∧
      mapping state.store ⟨10, 1⟩ = some (padHash 3 [7, 7])) (by decide +kernel)
  obtain ⟨done, cleared, found⟩ := of_decide_eq_true checked
  have tidy : Tidy (newFile 10) := tidy_of_unmapped (fun _ => rfl) (fun _ => rfl) (fun _ => rfl)
  have nothing : ∀ hash, 0 < counter (newFile 10) hash → (blockData (newFile 10) hash).isSome :=
    fun _ positive => absurd positive (lt_irrefl 0)
  have settled := stored_blocks_mapped (newFile 10) tidy nothing run done (padHash 3 [7, 7])
  exact ⟨state, run, cleared, settled.1, settled.2.mpr ⟨⟨10, 1⟩, found⟩⟩

end BlockSystem

end TiFs
