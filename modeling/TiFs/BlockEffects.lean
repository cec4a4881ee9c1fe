import TiFs.BlockData
import TiFs.BlockRead

namespace TiFs

open KeyValue Tables

def Key.owner : Key → Option StorageIno
  | .inodeX ino _ => some ino
  | .directoryChild parent _ => some parent
  | .blockHash addr => some addr.ino
  | _ => none

def WritePhase.lowers : WritePhase → RefCounts
  | .decrement decrements => decrements
  | _ => ∅

def ClearPhase.lowers : ClearPhase → RefCounts
  | .decrement (some prevHash) => collect [(prevHash, 1)]
  | _ => ∅

namespace Op

variable {cfg : TiFsConfig}

def lowers : Op cfg → RefCounts
  | .write task => task.phase.lowers
  | .clear task => task.phase.lowers
  | _ => ∅

def Addresses (ino : StorageIno) : Op cfg → Prop
  | .write task => task.ino = ino ∧ task.phase ≠ .done
  | .clear task => task.addr.ino = ino ∧ task.phase ≠ .done
  | .clone task => task.dst = ino ∧ task.phase ≠ .done
  | .ended _ => False

/-- The next transaction leaves the counter of the hash above zero, if it lowers it. -/
def Spares (store : Store) (op : Op cfg) (hash : TiFsHash) : Prop :=
  hash ∉ op.lowers ∨ (op.lowers.lookup hash).getD 0 < counter store hash

instance (store : Store) (op : Op cfg) (hash : TiFsHash) : Decidable (op.Spares store hash) :=
  inferInstanceAs (Decidable (_ ∨ _))

structure Effect (op : Op cfg) (store after : Store) : Prop where
  uploaded : ∀ block ∈ op.uploads, blockData after block.1 = some block.2
  kept : ∀ hash, hash ∉ op.uploads.map Prod.fst → op.Spares store hash →
    blockData after hash = blockData store hash
  old : ∀ hash data, hash ∉ op.uploads.map Prod.fst → blockData after hash = some data →
    blockData store hash = some data
  zero : ∀ hash, ¬ op.Spares store hash → counter after hash = 0
  mappings : ∀ addr, ¬ op.Addresses addr.ino → mapping after addr = mapping store addr

theorem spares_of_empty {op : Op cfg} (none : op.lowers = ∅) (store : Store) (hash : TiFsHash) :
    op.Spares store hash := by
  left
  rw [none]
  exact AList.notMem_empty hash

theorem Effect.of_frame {op : Op cfg} {store after : Store} (noUpload : op.uploads = [])
    (none : op.lowers = ∅) (blocks : ∀ hash, blockData after hash = blockData store hash)
    (mappings : ∀ addr, ¬ op.Addresses addr.ino → mapping after addr = mapping store addr) :
    op.Effect store after where
  uploaded := by
    rw [noUpload]
    exact fun block member => absurd member List.not_mem_nil
  kept := fun hash _ _ => blocks hash
  old := fun hash data _ found => (blocks hash).symm.trans found
  zero := fun hash notSpared => absurd (spares_of_empty none store hash) notSpared
  mappings := mappings

theorem Effect.of_decremented {op : Op cfg} {store after : Store} (noUpload : op.uploads = [])
    (counted : Decremented op.lowers store after) : op.Effect store after where
  uploaded := by
    rw [noUpload]
    exact fun block member => absurd member List.not_mem_nil
  kept := fun hash _ spared => counted.kept hash spared
  old := fun hash data _ found => counted.old hash data found
  zero := by
    intro hash notSpared
    have enough : counter store hash ≤ (op.lowers.lookup hash).getD 0 := by
      by_contra more
      exact notSpared (Or.inr (by omega))
    rw [counted.counted hash]
    omega
  mappings := by
    intro addr _
    rw [mapping, counted.frame (.blockHash addr) (by simp) (by simp)]
    rfl

theorem mapping_of_replaced {addresses : List (BlockAddress × Option TiFsHash)} {store after : Store}
    {decrements : RefCounts} (placed : Replaced addresses store after decrements) (ino : StorageIno)
    (within : ∀ address ∈ addresses, address.1.ino = ino) {addr : BlockAddress} (outside : ino ≠ addr.ino) :
    mapping after addr = mapping store addr := by
  apply placed.kept
  intro listed
  obtain ⟨address, member, isAddr⟩ := List.mem_map.mp listed
  exact outside (isAddr ▸ (within address member).symm)

theorem blockData_of_replaced {addresses : List (BlockAddress × Option TiFsHash)} {store after : Store}
    {decrements : RefCounts} (placed : Replaced addresses store after decrements) (hash : TiFsHash) :
    blockData after hash = blockData store hash := by
  rw [blockData, placed.frame (.hashedBlock hash) (by simp)]
  rfl

theorem Effect.of_record {op : Op cfg} {store after : Store} (noUpload : op.uploads = [])
    (none : op.lowers = ∅) {ino : StorageIno}
    (frame : ∀ key : Key, (∀ kind, key ≠ .inodeX ino kind) → after.lookup key = store.lookup key) :
    op.Effect store after := by
  apply Effect.of_frame noUpload none
  · intro hash
    rw [blockData, frame (.hashedBlock hash) (by simp)]
    rfl
  · intro addr _
    rw [mapping, frame (.blockHash addr) (by simp)]
    rfl

theorem lookup_record (store : Store) (ino : StorageIno) (kind : InoMetadata) (value : Option kind.Value)
    (key : Key) (different : ∀ kind, key ≠ .inodeX ino kind) :
    (applyAll store [⟨.inodeX ino kind, value⟩]).lookup key = store.lookup key :=
  lookup_apply_of_ne store _ _ (different kind)

theorem effect_of_phase {task : WriteTask cfg} {store after : Store} (noUpload : task.phase.uploads = [])
    (none : task.phase.lowers = ∅)
    (frame : ∀ key : Key, (∀ kind, key ≠ .inodeX task.ino kind) → after.lookup key = store.lookup key) :
    (Op.write task).Effect store after := by
  have isNone : (Op.write task).lowers = ∅ := none
  exact Effect.of_record noUpload isNone frame

theorem effect_of_write {task : WriteTask cfg} {store after : Store} {phase : WritePhase}
    (move : WriteMove task store phase after) : (Op.write task).Effect store after := by
  cases move with
  | incremented prev after current counted =>
      apply Effect.of_frame
      · rw [uploads, current]; rfl
      · rw [lowers, current]; rfl
      · intro hash
        rw [blockData, counted.frame (.hashedBlock hash) (by simp)]
        rfl
      · intro addr _
        rw [mapping, counted.frame (.blockHash addr) (by simp)]
        rfl
  | uploaded blocks after current uploaded =>
      have isUpload : (Op.write task).uploads = blocks := by rw [uploads, current]; rfl
      have none : (Op.write task).lowers = ∅ := by rw [lowers, current]; rfl
      rw [← isUpload] at uploaded
      exact {
        uploaded := uploaded.stored
        kept := fun hash notListed _ => uploaded.kept hash notListed
        old := fun hash data notListed found => (uploaded.kept hash notListed).symm.trans found
        zero := fun hash notSpared => absurd (spares_of_empty none store hash) notSpared
        mappings := by
          intro addr _
          rw [mapping, uploaded.frame (.blockHash addr) (by simp)]
          rfl }
  | replaced decrements after current placed lengths =>
      apply Effect.of_frame
      · rw [uploads, current]; rfl
      · rw [lowers, current]; rfl
      · exact blockData_of_replaced placed
      · intro addr notAddressed
        apply mapping_of_replaced placed task.ino
        · intro address member
          obtain ⟨group, _, inGroup⟩ := List.mem_flatMap.mp member
          obtain ⟨id, _, rfl⟩ := List.mem_map.mp inGroup
          rfl
        · intro same
          exact notAddressed ⟨same, by rw [current]; simp⟩
  | decremented decrements after current counted =>
      have isLower : (Op.write task).lowers = decrements := by rw [lowers, current]; rfl
      apply Effect.of_decremented
      · rw [uploads, current]; rfl
      · rw [isLower]
        exact counted
  | fullHashCleared decrements current =>
      exact effect_of_phase (by rw [current]; rfl) (by rw [current]; rfl) (lookup_record store task.ino .fullHash none)
  | iterationChanged decrements uuid current =>
      exact effect_of_phase (by rw [current]; rfl) (by rw [current]; rfl)
        (lookup_record store task.ino .changeIterationId (some uuid))
  | sizeUpdated decrements size grown current stored small isMax =>
      exact effect_of_phase (by rw [current]; rfl) (by rw [current]; rfl) (lookup_record store task.ino .size (some grown))
  | sizeTooSmall decrements size current stored small =>
      exact effect_of_phase (by rw [current]; rfl) (by rw [current]; rfl) fun _ _ => rfl
  | sizeEnough decrements size current stored enough =>
      exact effect_of_phase (by rw [current]; rfl) (by rw [current]; rfl) fun _ _ => rfl
  | sizeKept decrements size current stored enough =>
      exact effect_of_phase (by rw [current]; rfl) (by rw [current]; rfl) fun _ _ => rfl
  | finished current =>
      exact effect_of_phase (by rw [current]; rfl) (by rw [current]; rfl) fun _ _ => rfl

theorem effect_of_clear {task next : ClearTask} {store after : Store}
    (move : ClearMove cfg task store next after) : (Op.clear task : Op cfg).Effect store after := by
  cases move with
  | replaced decrements after later current placed hashLength isLater =>
      apply Effect.of_frame rfl (by rw [lowers, current]; rfl)
      · exact blockData_of_replaced placed
      · intro addr notAddressed
        apply mapping_of_replaced placed task.addr.ino
        · intro address member
          rw [List.mem_singleton.mp member]
        · intro same
          exact notAddressed ⟨same, by rw [current]; simp⟩
  | sizeKept prevHash current =>
      exact Effect.of_frame rfl (by rw [lowers, current]; rfl) (fun _ => rfl) fun _ _ => rfl
  | sizeUpdated prevHash size current =>
      exact Effect.of_record rfl (by rw [lowers, current]; rfl)
        (lookup_record store task.addr.ino .size (some size))
  | unmapped current =>
      exact Effect.of_frame rfl (by rw [lowers, current]; rfl) (fun _ => rfl) fun _ _ => rfl
  | decremented prevHash after current counted =>
      have isLower : (Op.clear task : Op cfg).lowers = collect [(prevHash, 1)] := by
        rw [lowers, current]; rfl
      apply Effect.of_decremented rfl
      rw [isLower]
      exact counted
  | finished current =>
      exact Effect.of_frame rfl (by rw [lowers, current]; rfl) (fun _ => rfl) fun _ _ => rfl

theorem effect_of_clone {task next : CloneTask cfg} {store after : Store}
    (ran : task.step store = .ok (next, after)) : (Op.clone task).Effect store after := by
  cases CloneTask.move_of_step ran with
  | incremented prev after current counted =>
      apply Effect.of_frame rfl rfl
      · intro hash
        rw [blockData, counted.frame (.hashedBlock hash) (by simp)]
        rfl
      · intro addr _
        rw [mapping, counted.frame (.blockHash addr) (by simp)]
        rfl
  | placed decrements after current replaced =>
      apply Effect.of_frame rfl rfl
      · exact blockData_of_replaced replaced
      · intro addr notAddressed
        apply mapping_of_replaced replaced task.dst
        · intro address member
          obtain ⟨entry, _, rfl⟩ := List.mem_map.mp member
          rfl
        · intro same
          exact notAddressed ⟨same, by rw [current]; simp⟩
  | finished current => exact Effect.of_frame rfl rfl (fun _ => rfl) fun _ _ => rfl

theorem clear_addresses {task next : ClearTask} {store after : Store}
    (move : ClearMove cfg task store next after) :
    next.addr = task.addr ∧ (task.phase = .done → next.phase = .done) := by
  cases move with
  | replaced decrements after later current placed hashLength isLater =>
      exact ⟨rfl, fun isDone => by rw [isDone] at current; cases current⟩
  | sizeKept prevHash current => exact ⟨rfl, fun isDone => by rw [isDone] at current; cases current⟩
  | sizeUpdated prevHash size current => exact ⟨rfl, fun isDone => by rw [isDone] at current; cases current⟩
  | unmapped current => exact ⟨rfl, fun _ => rfl⟩
  | decremented prevHash after current counted => exact ⟨rfl, fun _ => rfl⟩
  | finished current => exact ⟨rfl, id⟩

theorem clone_addresses {task next : CloneTask cfg} {store after : Store}
    (ran : task.step store = .ok (next, after)) :
    next.dst = task.dst ∧ (task.phase = .done → next.phase = .done) := by
  cases CloneTask.move_of_step ran with
  | incremented prev after current counted => exact ⟨rfl, fun isDone => by rw [isDone] at current; cases current⟩
  | placed decrements after current replaced => exact ⟨rfl, fun _ => rfl⟩
  | finished current => exact ⟨rfl, id⟩

theorem write_addresses {task : WriteTask cfg} {store after : Store} {phase : WritePhase}
    (move : WriteMove task store phase after) (isDone : task.phase = .done) : phase = .done := by
  cases move with
  | finished current => rfl
  | decremented decrements after current counted => rfl
  | sizeTooSmall decrements size current => rw [isDone] at current; cases current
  | sizeEnough decrements size current => rw [isDone] at current; cases current
  | sizeUpdated decrements size grown current => rw [isDone] at current; cases current
  | sizeKept decrements size current => rw [isDone] at current; cases current
  | incremented prev after current => rw [isDone] at current; cases current
  | uploaded blocks after current => rw [isDone] at current; cases current
  | replaced decrements after current => rw [isDone] at current; cases current
  | fullHashCleared decrements current => rw [isDone] at current; cases current
  | iterationChanged decrements uuid current => rw [isDone] at current; cases current

theorem effect_of_step {op next : Op cfg} {ambient : Ambient} {store after : Store} (sound : op.Sound)
    (ran : op.step ambient store = .ok (next, after)) :
    op.Effect store after ∧ ∀ ino, next.Addresses ino → op.Addresses ino := by
  cases op with
  | write task =>
      obtain ⟨phase, rfl, move⟩ := Op.move_of_step sound ran
      refine ⟨effect_of_write move, ?_⟩
      intro ino addresses
      exact ⟨addresses.1, fun isDone => addresses.2 (write_addresses move isDone)⟩
  | clear task =>
      obtain ⟨result, moved, isNext⟩ := except_map_eq_ok ran
      obtain ⟨rfl, rfl⟩ := Prod.mk.inj isNext
      have move := ClearTask.move_of_step sound moved
      obtain ⟨same, stays⟩ := clear_addresses move
      refine ⟨effect_of_clear move, ?_⟩
      intro ino addresses
      exact ⟨same ▸ addresses.1, fun isDone => addresses.2 (stays isDone)⟩
  | clone task =>
      obtain ⟨result, moved, isNext⟩ := except_map_eq_ok ran
      obtain ⟨rfl, rfl⟩ := Prod.mk.inj isNext
      obtain ⟨same, stays⟩ := clone_addresses moved
      refine ⟨effect_of_clone moved, ?_⟩
      intro ino addresses
      exact ⟨same ▸ addresses.1, fun isDone => addresses.2 (stays isDone)⟩
  | ended failure =>
      obtain ⟨rfl, rfl⟩ := Prod.mk.inj (Except.ok.inj ran)
      exact ⟨Effect.of_frame rfl rfl (fun _ => rfl) fun _ _ => rfl, fun _ => id⟩

end Op

section Frame

variable {cfg : TiFsConfig} {store after : Store} {key : Key}

theorem WriteMove.frame {task : WriteTask cfg} {phase : WritePhase} (move : WriteMove task store phase after)
    (noCounter : ∀ hash, key ≠ .countedNamedUsages hash) (noBlock : ∀ hash, key ≠ .hashedBlock hash)
    (noMapping : ∀ addr, key ≠ .blockHash addr)
    (noRecord : task.phase ≠ .done → ∀ kind, key ≠ .inodeX task.ino kind) :
    after.lookup key = store.lookup key := by
  cases move with
  | incremented prev after current counted => exact counted.frame key noCounter
  | uploaded blocks after current stored => exact stored.frame key noBlock
  | replaced decrements after current placed lengths => exact placed.frame key noMapping
  | fullHashCleared decrements current =>
      exact lookup_delete_of_ne store _ key (noRecord (by rw [current]; simp) .fullHash)
  | iterationChanged decrements uuid current =>
      exact lookup_put_of_ne store _ key _ (noRecord (by rw [current]; simp) .changeIterationId)
  | sizeUpdated decrements size grown current stored small isMax =>
      exact lookup_put_of_ne store _ key _ (noRecord (by rw [current]; simp) .size)
  | decremented decrements after current counted => exact counted.frame key noCounter noBlock
  | sizeTooSmall decrements size current stored small => rfl
  | sizeEnough decrements size current stored enough => rfl
  | sizeKept decrements size current stored enough => rfl
  | finished current => rfl

theorem ClearMove.frame {task next : ClearTask} (move : ClearMove cfg task store next after)
    (noCounter : ∀ hash, key ≠ .countedNamedUsages hash) (noBlock : ∀ hash, key ≠ .hashedBlock hash)
    (noMapping : ∀ addr, key ≠ .blockHash addr)
    (noRecord : task.phase ≠ .done → ∀ kind, key ≠ .inodeX task.addr.ino kind) :
    after.lookup key = store.lookup key := by
  cases move with
  | replaced decrements after later current placed hashLength isLater => exact placed.frame key noMapping
  | sizeKept prevHash current => rfl
  | sizeUpdated prevHash size current =>
      exact lookup_put_of_ne store _ key _ (noRecord (by rw [current]; simp) .size)
  | unmapped current => rfl
  | decremented prevHash after current counted => exact counted.frame key noCounter noBlock
  | finished current => rfl

theorem CloneTask.frame {task next : CloneTask cfg} (ran : task.step store = .ok (next, after))
    (noCounter : ∀ hash, key ≠ .countedNamedUsages hash)
    (noMapping : ∀ addr, key ≠ .blockHash addr) : after.lookup key = store.lookup key := by
  cases CloneTask.move_of_step ran with
  | incremented prev after current counted => exact counted.frame key noCounter
  | placed decrements after current replaced => exact replaced.frame key noMapping
  | finished current => rfl

theorem Op.frame_of_step {op next : Op cfg} {ambient : Ambient} (sound : op.Sound)
    (ran : op.step ambient store = .ok (next, after))
    (noCounter : ∀ hash, key ≠ .countedNamedUsages hash) (noBlock : ∀ hash, key ≠ .hashedBlock hash)
    (notOwned : ∀ ino, op.Addresses ino → key.owner ≠ some ino) :
    after.lookup key = store.lookup key := by
  by_cases isMapping : ∃ addr, key = .blockHash addr
  · obtain ⟨addr, rfl⟩ := isMapping
    exact (Op.effect_of_step sound ran).1.mappings addr fun addresses => notOwned addr.ino addresses rfl
  · have noMapping : ∀ addr, key ≠ .blockHash addr := fun addr same => isMapping ⟨addr, same⟩
    cases op with
    | write task =>
        obtain ⟨phase, rfl, move⟩ := Op.move_of_step sound ran
        apply move.frame noCounter noBlock noMapping
        rintro notDone kind rfl
        exact notOwned task.ino ⟨rfl, notDone⟩ rfl
    | clear task =>
        obtain ⟨result, moved, isNext⟩ := except_map_eq_ok ran
        obtain ⟨rfl, rfl⟩ := Prod.mk.inj isNext
        apply (ClearTask.move_of_step sound moved).frame noCounter noBlock noMapping
        rintro notDone kind rfl
        exact notOwned task.addr.ino ⟨rfl, notDone⟩ rfl
    | clone task =>
        obtain ⟨result, moved, isNext⟩ := except_map_eq_ok ran
        obtain ⟨rfl, rfl⟩ := Prod.mk.inj isNext
        exact CloneTask.frame moved noCounter noMapping
    | ended failure =>
        obtain ⟨rfl, rfl⟩ := Prod.mk.inj (Except.ok.inj ran)
        rfl

end Frame

def ninesPlan : WritePlan (paddingConfig 2 Nat.two_pos) where
  groups := [⟨padHash 3 [9, 9], [9, 9], [0]⟩]
  hash_eq := by decide
  hashes_nodup := by decide
  ids_nodup := by decide

end TiFs
