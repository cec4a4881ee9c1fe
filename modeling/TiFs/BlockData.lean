import TiFs.RefCounting

/-! Every mapped hash has its block data stored, as long as no write counts on a
block that another one has counted but not stored. -/

namespace TiFs

open KeyValue Tables

section Move

variable {cfg : TiFsConfig} {task : WriteTask cfg} {store after : Store} {phase : WritePhase}

/-- A block is deleted only together with its counter. -/
theorem BlockMove.data_kept (move : BlockMove task store phase after) {hash : TiFsHash}
    (stored : (blockData store hash).isSome) :
    (blockData after hash).isSome ∨ counter after hash = 0 := by
  cases move with
  | incremented prev after current counted =>
      left
      rw [blockData, counted.frame (.hashedBlock hash) (by simp)]
      exact stored
  | uploaded blocks after current uploaded =>
      left
      by_cases listed : hash ∈ blocks.map Prod.fst
      · obtain ⟨block, member, rfl⟩ := List.mem_map.mp listed
        rw [uploaded.stored block member]
        rfl
      · rw [uploaded.kept hash listed]
        exact stored
  | replaced decrements after current placed lengths =>
      left
      rw [blockData, placed.frame (.hashedBlock hash) (by simp)]
      exact stored
  | decremented decrements after current counted =>
      by_cases spared : hash ∉ decrements ∨ (decrements.lookup hash).getD 0 < counter store hash
      · left
        rw [counted.kept hash spared]
        exact stored
      · right
        push Not at spared
        have enough := spared.2
        rw [counted.counted hash]
        omega
  | quiet phase after frame before later owed =>
      left
      rw [blockData, frame (.hashedBlock hash) (by simp)]
      exact stored

theorem BlockMove.mapping_cases (move : BlockMove task store phase after) {addr : BlockAddress}
    {hash : TiFsHash} (found : mapping after addr = some hash) :
    mapping store addr = some hash ∨
      task.phase = .replace ∧ (addr, some hash) ∈ task.plan.addressesToModify task.ino := by
  cases move with
  | incremented prev after current counted =>
      left
      rw [mapping, counted.frame (.blockHash addr) (by simp)] at found
      exact found
  | uploaded blocks after current uploaded =>
      left
      rw [mapping, uploaded.frame (.blockHash addr) (by simp)] at found
      exact found
  | replaced decrements after current placed lengths =>
      by_cases listed : addr ∈ (task.plan.addressesToModify task.ino).map Prod.fst
      · right
        obtain ⟨address, member, rfl⟩ := List.mem_map.mp listed
        rw [placed.placed address member] at found
        rw [← found]
        exact ⟨current, member⟩
      · left
        rw [placed.kept addr listed] at found
        exact found
  | decremented decrements after current counted =>
      left
      rw [mapping, counted.frame (.blockHash addr) (by simp) (by simp)] at found
      exact found
  | quiet phase after frame before later owed =>
      left
      rw [mapping, frame (.blockHash addr) (by simp)] at found
      exact found

theorem WritePlan.amount_pos (plan : WritePlan cfg) {ino : StorageIno} {addr : BlockAddress}
    {hash : TiFsHash} (listed : (addr, some hash) ∈ plan.addressesToModify ino) :
    0 < amount plan.increments hash := by
  rw [← plan.mappedBy_addresses ino, mappedBy, List.count_pos_iff]
  exact List.mem_filterMap.mpr ⟨_, listed, rfl⟩

theorem WritePlan.mem_of_amount_pos (plan : WritePlan cfg) {hash : TiFsHash}
    (counted : 0 < amount plan.increments hash) : ∃ group ∈ plan.groups, group.hash = hash := by
  by_contra absent
  have zero : amount plan.increments hash = 0 := by
    apply amount_eq_zero
    rw [plan.increments_hashes]
    intro listed
    obtain ⟨group, member, same⟩ := List.mem_map.mp listed
    exact absent ⟨group, member, same⟩
  omega

end Move

/-- A write has stored, or is about to store, every block it will map. -/
def WriteTask.Provided {cfg : TiFsConfig} (task : WriteTask cfg) (store : Store) : Prop :=
  ∀ hash, 0 < task.owedIncrements hash → (blockData store hash).isSome ∨
    ∃ blocks, task.phase = .upload blocks ∧ hash ∈ blocks.map Prod.fst

def Op.Provided {cfg : TiFsConfig} (store : Store) : Op cfg → Prop
  | .write task => task.Provided store
  | .ended _ => True
  | _ => False

def Op.CountedStored {cfg : TiFsConfig} (store : Store) : Op cfg → Prop
  | .write task => task.phase = .increment → ∀ group ∈ task.plan.groups,
      0 < counter store group.hash → (blockData store group.hash).isSome
  | _ => True

instance {cfg : TiFsConfig} (store : Store) (op : Op cfg) : Decidable (op.CountedStored store) :=
  match op with
  | .write task => inferInstanceAs (Decidable (task.phase = .increment →
      ∀ group ∈ task.plan.groups, 0 < counter store group.hash → (blockData store group.hash).isSome))
  | .clear _ => isTrue trivial
  | .clone _ => isTrue trivial
  | .ended _ => isTrue trivial

namespace BlockSystem

variable {cfg : TiFsConfig}

structure MappedStored (state : BlockSystem cfg) : Prop where
  covered : state.Covered
  provided : ∀ op ∈ state.ops, op.Provided state.store
  stored : ∀ addr hash, mapping state.store addr = some hash → (blockData state.store hash).isSome

def WritesOnly (_ : BlockSystem cfg) : BlockEvent cfg → Prop
  | .spawn (.write _ _) => True
  | .spawn _ => False
  | _ => True

instance (state : BlockSystem cfg) (event : BlockEvent cfg) : Decidable (state.WritesOnly event) :=
  match event with
  | .spawn (.write _ _) => isTrue trivial
  | .spawn (.clear _ _) => isFalse id
  | .spawn (.clone _ _ _) => isFalse id
  | .advance _ _ => isTrue trivial
  | .abandon _ => isTrue trivial

/-- A write that finds a block counted also finds it stored. -/
def CountedStored (state : BlockSystem cfg) : BlockEvent cfg → Prop
  | .advance i _ => ∀ op ∈ state.ops[i]?, op.CountedStored state.store
  | _ => True

instance (state : BlockSystem cfg) (event : BlockEvent cfg) : Decidable (state.CountedStored event) :=
  match event with
  | .spawn _ => isTrue trivial
  | .advance i _ => inferInstanceAs (Decidable (∀ op ∈ state.ops[i]?, op.CountedStored state.store))
  | .abandon _ => isTrue trivial

end BlockSystem

theorem mem_blocksToUpload {cfg : TiFsConfig} (plan : WritePlan cfg) {prev : RefCounts}
    {group : BlockGroup} (member : group ∈ plan.groups)
    (new : (prev.lookup group.hash).getD 0 = 0) :
    group.hash ∈ (plan.blocksToUpload prev).map Prod.fst := by
  rw [blocksToUpload_fst]
  exact List.mem_map_of_mem (List.mem_filter.mpr ⟨member, by simpa using new⟩)

theorem BlockMove.provided {cfg : TiFsConfig} {task : WriteTask cfg} {store after : Store}
    {phase : WritePhase} (move : BlockMove task store phase after) (provided : task.Provided store)
    (counted : task.phase = .increment → ∀ group ∈ task.plan.groups,
      0 < counter store group.hash → (blockData store group.hash).isSome) :
    WriteTask.Provided { task with phase := phase } after := by
  intro hash owed
  cases move with
  | incremented prev after current raised =>
      obtain ⟨group, member, rfl⟩ := task.plan.mem_of_amount_pos owed
      by_cases new : counter store group.hash = 0
      · right
        refine ⟨_, rfl, mem_blocksToUpload task.plan member ?_⟩
        rw [raised.previous group.hash, new]
        rw [task.plan.increments_hashes]
        exact List.mem_map_of_mem member
      · left
        rw [blockData, raised.frame (.hashedBlock group.hash) (by simp)]
        exact counted current group member (Nat.pos_of_ne_zero new)
  | uploaded blocks after current uploaded =>
      left
      by_cases listed : hash ∈ blocks.map Prod.fst
      · obtain ⟨block, member, rfl⟩ := List.mem_map.mp listed
        rw [uploaded.stored block member]
        rfl
      · rw [uploaded.kept hash listed]
        have before : 0 < task.owedIncrements hash := by
          simpa [WriteTask.owedIncrements, current] using owed
        rcases provided hash before with stored | ⟨other, isUpload, pending⟩
        · exact stored
        · rw [current] at isUpload
          exact absurd (WritePhase.upload.inj isUpload ▸ pending) listed
  | replaced decrements after current placed lengths => exact absurd owed (Nat.lt_irrefl 0)
  | decremented decrements after current lowered => exact absurd owed (Nat.lt_irrefl 0)
  | quiet phase after frame before later same =>
      rw [WriteTask.owedIncrements_of_isReplaced later] at owed
      exact absurd owed (Nat.lt_irrefl 0)

namespace BlockSystem

variable {cfg : TiFsConfig}

theorem Covered.counter_pos {state : BlockSystem cfg} (covered : state.Covered) {op : Op cfg}
    (member : op ∈ state.ops) {hash : TiFsHash} (owed : 0 < op.owedIncrements hash) :
    0 < counter state.store hash := by
  have single : op.owed hash ≤ (state.ops.map fun op => op.owed hash).sum :=
    List.le_sum_of_mem (List.mem_map_of_mem member)
  have all := covered.counters hash
  have part : op.owedIncrements hash ≤ op.owed hash := Nat.le_add_right _ _
  omega

theorem Covered.counter_pos_of_mapping {state : BlockSystem cfg} (covered : state.Covered)
    {addr : BlockAddress} {hash : TiFsHash} (found : mapping state.store addr = some hash) :
    0 < counter state.store hash := by
  have some := mapped_pos_of_mapping found
  have all := covered.counters hash
  omega

theorem provided_of_kept {state : BlockSystem cfg} (covered : state.Covered) {before : Store}
    (kept : ∀ hash, (blockData before hash).isSome →
      (blockData state.store hash).isSome ∨ counter state.store hash = 0)
    {op : Op cfg} (member : op ∈ state.ops) (provided : op.Provided before) :
    op.Provided state.store := by
  cases op with
  | write task =>
      intro hash owed
      have counted := covered.counter_pos member owed
      rcases provided hash owed with stored | pending
      · rcases kept hash stored with still | zero
        · exact Or.inl still
        · omega
      · exact Or.inr pending
  | clear task => exact provided
  | clone task => exact provided
  | ended failure => trivial

theorem MappedStored.ended {state : BlockSystem cfg} (holds : state.MappedStored) {i : Nat}
    {op : Op cfg} (present : state.ops[i]? = some op) (failure : Option FsError) :
    MappedStored (⟨state.store, state.ops.set i (.ended failure)⟩ : BlockSystem cfg) := by
  refine ⟨holds.covered.ended present failure, ?_, holds.stored⟩
  intro other member
  rcases List.mem_or_eq_of_mem_set member with old | rfl
  · exact holds.provided other old
  · trivial

theorem mappedStored_step {before after : BlockSystem cfg} {event : BlockEvent cfg}
    (holds : before.MappedStored) (taken : before.Step event after)
    (writes : before.WritesOnly event) (counted : before.CountedStored event) :
    after.MappedStored := by
  have covered := covered_step holds.covered taken
  cases effect_of_step taken with
  | spawned work =>
      refine ⟨covered, ?_, holds.stored⟩
      intro op member
      rcases List.mem_append.mp member with old | new
      · exact holds.provided op old
      · rw [List.mem_singleton.mp new]
        cases work with
        | write ino plan => exact fun hash owed => absurd owed (Nat.lt_irrefl 0)
        | clear addr doSizeUpdate => exact absurd writes id
        | clone dst hashes lengths => exact absurd writes id
  | moved i ambient op next store present ran =>
      have member := List.mem_of_getElem? present
      have provided := holds.provided op member
      cases op with
      | write task =>
          obtain ⟨phase, rfl, move⟩ := Op.move_of_step (holds.covered.sound _ member) ran
          have kept : ∀ hash, (blockData before.store hash).isSome →
              (blockData store hash).isSome ∨ counter store hash = 0 :=
            fun hash stored => move.blockMove.data_kept stored
          refine ⟨covered, ?_, ?_⟩
          · intro other isOther
            rcases List.mem_or_eq_of_mem_set isOther with old | rfl
            · exact provided_of_kept covered kept isOther (holds.provided other old)
            · exact move.blockMove.provided provided (counted (.write task) present)
          · intro addr hash found
            have stored : (blockData before.store hash).isSome := by
              rcases move.blockMove.mapping_cases found with old | ⟨current, listed⟩
              · exact holds.stored addr hash old
              · have owed : 0 < task.owedIncrements hash := by
                  simpa [WriteTask.owedIncrements, current] using task.plan.amount_pos listed
                rcases provided hash owed with stored | ⟨blocks, isUpload, _⟩
                · exact stored
                · rw [current] at isUpload
                  cases isUpload
            have positive := covered.counter_pos_of_mapping found
            rcases kept hash stored with still | zero
            · exact still
            · simp only at positive
              omega
      | clear task => exact absurd provided id
      | clone task => exact absurd provided id
      | ended failure =>
          obtain ⟨rfl, rfl⟩ := Prod.mk.inj (Except.ok.inj ran)
          exact holds.ended present failure
  | failed i ambient op issue present ran => exact holds.ended present (some issue)
  | abandoned i op present => exact holds.ended present none

end BlockSystem

/-- From a store in which it holds and the counters cover the mappings on, every
mapped hash has its data stored, if writes that find a block counted find it
stored. -/
theorem mapped_blocks_stored (cfg : TiFsConfig) (store : Store)
    (covered : ∀ hash, mapped store hash ≤ counter store hash)
    (stored : ∀ addr hash, mapping store addr = some hash → (blockData store hash).isSome)
    (state : BlockSystem cfg)
    (run : Run BlockSystem.Step (fun before event => before.WritesOnly event ∧
      before.CountedStored event) (⟨store, []⟩ : BlockSystem cfg) state)
    (addr : BlockAddress) (hash : TiFsHash) (found : mapping state.store addr = some hash) :
    (blockData state.store hash).isSome := by
  have holds : state.MappedStored := by
    refine Run.invariant BlockSystem.MappedStored ?_ ?_ run
    · intro before event after holds taken allowed
      exact BlockSystem.mappedStored_step holds taken allowed.1 allowed.2
    · refine ⟨⟨fun op member => absurd member List.not_mem_nil, covered⟩, ?_, stored⟩
      exact fun op member => absurd member List.not_mem_nil
  exact holds.stored addr hash found

def oneBlockPlan (index : BlockIndex) : WritePlan (paddingConfig 2 Nat.two_pos) where
  groups := [⟨padHash 3 [7, 7], [7, 7], [index]⟩]
  hash_eq := fun _ member => by rw [List.mem_singleton.mp member]; rfl
  hashes_nodup := List.nodup_singleton _
  ids_nodup := List.nodup_singleton _

def newFile (ino : StorageIno) : Store :=
  applyAll ∅ [Mutation.put (.inodeX ino .size) (InoSize.new 0)]

theorem newFile_uncounted (ino : StorageIno) (hash : TiFsHash) :
    mapped (newFile ino) hash ≤ counter (newFile ino) hash := by
  have same : mapped (newFile ino) hash = mapped ∅ hash := mapped_congr (fun _ => rfl) hash
  rw [same]
  exact Nat.zero_le _

/-- Two writes of equal blocks, one between the transactions of the other: the second counts
the block when it is stored already, and maps it first. -/
theorem mapped_blocks_stored_interleaved :
    ∃ state : BlockSystem (paddingConfig 2 (by decide)),
      Run BlockSystem.Step (fun before event => before.WritesOnly event ∧
        before.CountedStored event) ⟨newFile 10, []⟩ state ∧
      mapping state.store ⟨10, 0⟩ = none ∧ mapping state.store ⟨10, 1⟩ = some (padHash 3 [7, 7]) ∧
      counter state.store (padHash 3 [7, 7]) = 2 ∧ (blockData state.store (padHash 3 [7, 7])).isSome := by
  obtain ⟨state, run, found⟩ := BlockSystem.exists_run
    (fun before event => before.WritesOnly event ∧ before.CountedStored event)
    (⟨newFile 10, []⟩ : BlockSystem (paddingConfig 2 (by decide)))
    [.spawn (.write 10 (oneBlockPlan 0)), .spawn (.write 10 (oneBlockPlan 1)),
      .advance 0 ⟨0, 0⟩, .advance 0 ⟨0, 0⟩, .advance 1 ⟨0, 0⟩, .advance 1 ⟨0, 0⟩, .advance 1 ⟨0, 0⟩]
    (fun state => mapping state.store ⟨10, 0⟩ = none ∧ mapping state.store ⟨10, 1⟩ = some (padHash 3 [7, 7]) ∧
      counter state.store (padHash 3 [7, 7]) = 2) (by decide +kernel)
  obtain ⟨unmapped, mapped, counted⟩ := of_decide_eq_true found
  exact ⟨state, run, unmapped, mapped, counted, mapped_blocks_stored _ (newFile 10) (newFile_uncounted 10)
    (fun _ _ missing => by cases missing) state run ⟨10, 1⟩ _ mapped⟩

/-- Two writes of equal blocks: the second finds the block counted and maps it
before the first has stored it. -/
theorem mapped_block_missing :
    ¬ ∀ (cfg : TiFsConfig) (store : Store),
      (∀ addr hash, mapping store addr = some hash → (blockData store hash).isSome) →
      ∀ state, Run BlockSystem.Step BlockSystem.WritesOnly (⟨store, []⟩ : BlockSystem cfg) state →
        ∀ addr hash, mapping state.store addr = some hash → (blockData state.store hash).isSome := by
  intro claim
  obtain ⟨state, run, found⟩ := BlockSystem.exists_run BlockSystem.WritesOnly
    (⟨newFile 10, []⟩ : BlockSystem (paddingConfig 2 (by decide)))
    [.spawn (.write 10 (oneBlockPlan 0)), .spawn (.write 10 (oneBlockPlan 1)),
      .advance 0 ⟨0, 0⟩, .advance 1 ⟨0, 0⟩, .advance 1 ⟨0, 0⟩, .advance 1 ⟨0, 0⟩]
    (fun state => mapping state.store ⟨10, 1⟩ = some (padHash 3 [7, 7]) ∧
      blockData state.store (padHash 3 [7, 7]) = none) (by decide +kernel)
  obtain ⟨mapped, missing⟩ := of_decide_eq_true found
  have stored := claim _ (newFile 10) (fun _ _ missing => by cases missing) state run ⟨10, 1⟩ _ mapped
  rw [missing] at stored
  cases stored

end TiFs
