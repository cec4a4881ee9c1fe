import Mathlib.Algebra.Order.BigOperators.Group.List
import Mathlib.Algebra.Order.Group.Nat
import Mathlib.Data.Finset.Union
import TiFs.BlockOps

/-! The reference counter of a hash covers the addresses mapped to it together
with everything the operations in flight still owe it. -/

namespace TiFs

open KeyValue Tables

def mappedTo (store : Store) (hash : TiFsHash) : Finset BlockAddress :=
  store.keys.biUnion fun
    | .blockHash addr => if mapping store addr = some hash then {addr} else ∅
    | _ => ∅

def mapped (store : Store) (hash : TiFsHash) : Nat := (mappedTo store hash).card

theorem mem_mappedTo (store : Store) (hash : TiFsHash) (addr : BlockAddress) :
    addr ∈ mappedTo store hash ↔ mapping store addr = some hash := by
  rw [mappedTo, Finset.mem_biUnion]
  constructor
  · rintro ⟨key, _, listed⟩
    cases key with
    | blockHash other =>
        by_cases same : mapping store other = some hash
        · simp only [same, if_true, Finset.mem_singleton] at listed
          rw [listed, same]
        · simp [same] at listed
    | _ => simp at listed
  · intro found
    refine ⟨.blockHash addr, ?_, by simp [found]⟩
    rw [Finmap.mem_keys, ← Finmap.lookup_isSome]
    exact Option.isSome_iff_exists.mpr ⟨hash, found⟩

theorem mapped_congr {store after : Store} (same : ∀ addr, mapping after addr = mapping store addr)
    (hash : TiFsHash) : mapped after hash = mapped store hash := by
  have equal : mappedTo after hash = mappedTo store hash := by
    ext addr
    rw [mem_mappedTo, mem_mappedTo, same]
  rw [mapped, mapped, equal]

theorem mapped_pos_of_mapping {store : Store} {addr : BlockAddress} {hash : TiFsHash}
    (found : mapping store addr = some hash) : 0 < mapped store hash :=
  Finset.card_pos.mpr ⟨addr, (mem_mappedTo store hash addr).mpr found⟩

def mappedBy (addresses : List (BlockAddress × Option TiFsHash)) (hash : TiFsHash) : Nat :=
  (addresses.filterMap Prod.snd).count hash

theorem length_filter_eq_card {addresses : List (BlockAddress × Option TiFsHash)}
    (distinct : (addresses.map Prod.fst).Nodup) (selected : BlockAddress × Option TiFsHash → Bool) :
    ((addresses.filter selected).map Prod.fst).toFinset.card = addresses.countP selected := by
  rw [List.toFinset_card_of_nodup (distinct.sublist ((List.filter_sublist).map Prod.fst)),
    List.length_map, List.countP_eq_length_filter]

/-- A batch takes its addresses from the hashes they were mapped to and gives
them to the new ones. -/
theorem mapped_replaced {addresses : List (BlockAddress × Option TiFsHash)} {store after : Store}
    {decrements : RefCounts} (distinct : (addresses.map Prod.fst).Nodup)
    (replaced : Replaced addresses store after decrements) (hash : TiFsHash) :
    mapped after hash + (prevHashes store addresses).count hash =
      mapped store hash + mappedBy addresses hash := by
  let touched := (addresses.map Prod.fst).toFinset
  let fresh := ((addresses.filter fun address => address.2 == some hash).map Prod.fst).toFinset
  let lost := ((addresses.filter fun address => mapping store address.1 == some hash).map Prod.fst).toFinset
  have freshCard : fresh.card = mappedBy addresses hash := by
    rw [mappedBy, List.count_filterMap]
    exact length_filter_eq_card distinct _
  have lostCard : lost.card = (prevHashes store addresses).count hash := by
    rw [prevHashes, List.count_filterMap]
    exact length_filter_eq_card distinct _
  have isLost : mappedTo store hash ∩ touched = lost := by
    ext addr
    simp only [touched, lost, Finset.mem_inter, mem_mappedTo, List.mem_toFinset, List.mem_map,
      List.mem_filter, beq_iff_eq]
    constructor
    · rintro ⟨found, address, member, rfl⟩
      exact ⟨address, ⟨member, found⟩, rfl⟩
    · rintro ⟨address, ⟨member, found⟩, rfl⟩
      exact ⟨found, address, member, rfl⟩
  have isAfter : mappedTo after hash = (mappedTo store hash \ touched) ∪ fresh := by
    ext addr
    simp only [touched, fresh, Finset.mem_union, Finset.mem_sdiff, mem_mappedTo, List.mem_toFinset]
    constructor
    · intro found
      by_cases listed : addr ∈ addresses.map Prod.fst
      · right
        obtain ⟨address, member, rfl⟩ := List.mem_map.mp listed
        rw [replaced.placed address member] at found
        exact List.mem_map.mpr ⟨address, List.mem_filter.mpr ⟨member, by simpa using found⟩, rfl⟩
      · left
        rw [replaced.kept addr listed] at found
        exact ⟨found, listed⟩
    · rintro (⟨found, absent⟩ | listed)
      · rw [replaced.kept addr absent]
        exact found
      · obtain ⟨address, member, rfl⟩ := List.mem_map.mp listed
        obtain ⟨present, isNew⟩ := List.mem_filter.mp member
        rw [replaced.placed address present]
        simpa using isNew
  have apart : Disjoint (mappedTo store hash \ touched) fresh := by
    rw [Finset.disjoint_left]
    intro addr old new
    have listed : addr ∈ touched := by
      obtain ⟨address, member, rfl⟩ := List.mem_map.mp (List.mem_toFinset.mp new)
      exact List.mem_toFinset.mpr (List.mem_map_of_mem (List.mem_of_mem_filter member))
    exact (Finset.mem_sdiff.mp old).2 listed
  have split := Finset.card_sdiff_add_card_inter (mappedTo store hash) touched
  rw [isLost] at split
  calc
    mapped after hash + (prevHashes store addresses).count hash
        = (mappedTo store hash \ touched).card + fresh.card + lost.card := by
          rw [mapped, isAfter, Finset.card_union_of_disjoint apart, lostCard]
    _ = mapped store hash + mappedBy addresses hash := by
          rw [← freshCard, mapped, ← split]
          omega

section Plan

variable {cfg : TiFsConfig} (plan : WritePlan cfg)

theorem WritePlan.mappedBy_addresses (ino : StorageIno) (hash : TiFsHash) :
    mappedBy (plan.addressesToModify ino) hash = amount plan.increments hash := by
  unfold mappedBy amount WritePlan.addressesToModify WritePlan.increments
  induction plan.groups with
  | nil => rfl
  | cons head tail ih =>
      rw [List.flatMap_cons, List.filterMap_append, List.count_append, ih]
      have mine : ((head.ids.map fun id => ((⟨ino, id⟩ : BlockAddress), some head.hash)).filterMap
          Prod.snd) = List.replicate head.ids.length head.hash := by
        rw [List.filterMap_map]
        simp
      rw [mine, List.count_replicate, List.map_cons]
      by_cases same : head.hash = hash
      · rw [List.filter_cons_of_pos (by simpa using same), List.map_cons, List.sum_cons,
          if_pos (by simpa using same)]
      · rw [List.filter_cons_of_neg (by simpa using same), if_neg (by simpa using same), Nat.zero_add]

end Plan

def WriteTask.owedIncrements {cfg : TiFsConfig} (task : WriteTask cfg) (hash : TiFsHash) : Nat :=
  match task.phase with
  | .upload _ => amount task.plan.increments hash
  | .replace => amount task.plan.increments hash
  | _ => 0

def WriteTask.owedDecrements {cfg : TiFsConfig} (task : WriteTask cfg) (hash : TiFsHash) : Nat :=
  (task.phase.decrements.lookup hash).getD 0

def ClearTask.prevHash (task : ClearTask) : Option TiFsHash :=
  match task.phase with
  | .sizeUpdate prevHash => prevHash
  | .decrement prevHash => prevHash
  | _ => none

def ClearTask.owedDecrements (task : ClearTask) (hash : TiFsHash) : Nat :=
  if task.prevHash = some hash then 1 else 0

def CloneTask.owedIncrements {cfg : TiFsConfig} (task : CloneTask cfg) (hash : TiFsHash) : Nat :=
  match task.phase with
  | .map => amount task.blockIncs hash
  | _ => 0

namespace Op

variable {cfg : TiFsConfig}

def owedIncrements : Op cfg → TiFsHash → Nat
  | .write task => task.owedIncrements
  | .clone task => task.owedIncrements
  | _ => fun _ => 0

def owedDecrements : Op cfg → TiFsHash → Nat
  | .write task => task.owedDecrements
  | .clear task => task.owedDecrements
  | _ => fun _ => 0

def owed (op : Op cfg) (hash : TiFsHash) : Nat := op.owedIncrements hash + op.owedDecrements hash

def Sound : Op cfg → Prop
  | .write task => task.Sound
  | .clear task => ∀ hash, task.prevHash = some hash → hash.length = cfg.hashLen
  | _ => True

/-- A clone is about to overwrite mappings without counting them down. -/
def Overwrites (store : Store) : Op cfg → Prop
  | .clone task => task.phase = .map ∧ prevHashes store task.addresses ≠ []
  | _ => False

end Op

/-- How the counter, the mappings and the debts of one operation move together. -/
def Balanced (store after : Store) (before next : TiFsHash → Nat) : Prop :=
  ∀ hash, counter store hash + mapped after hash + next hash =
    counter after hash + mapped store hash + before hash

theorem counter_congr {store after : Store}
    (frame : ∀ hash, after.lookup (.countedNamedUsages hash) = store.lookup (.countedNamedUsages hash))
    (hash : TiFsHash) : counter after hash = counter store hash := by
  rw [counter, counter, frame]

theorem balanced_of_frame {store after : Store} {owed : TiFsHash → Nat}
    (counters : ∀ hash, after.lookup (.countedNamedUsages hash) = store.lookup (.countedNamedUsages hash))
    (mappings : ∀ addr, mapping after addr = mapping store addr) :
    Balanced store after owed owed := by
  intro hash
  rw [counter_congr counters, mapped_congr mappings]

theorem balanced_inode (store : Store) (ino : StorageIno) (kind : InoMetadata)
    (value : Option kind.Value) (owed : TiFsHash → Nat) :
    Balanced store (applyAll store [⟨.inodeX ino kind, value⟩]) owed owed := by
  refine balanced_of_frame ?_ ?_
  · intro hash
    exact lookup_apply_of_ne store _ _ (by simp)
  · intro addr
    exact lookup_apply_of_ne store _ _ (by simp)

theorem balanced_incremented {blocks : List (TiFsHash × Nat)} {store after : Store}
    {prev : RefCounts} (counted : Incremented blocks store after prev) :
    Balanced store after (fun _ => 0) (amount blocks) := by
  intro hash
  have mappings : mapped after hash = mapped store hash :=
    mapped_congr (fun addr => counted.frame (.blockHash addr) (by simp)) hash
  simp only [counted.counted hash, mappings]
  omega

theorem balanced_replaced {addresses : List (BlockAddress × Option TiFsHash)} {store after : Store}
    {decrements : RefCounts} (distinct : (addresses.map Prod.fst).Nodup)
    (replaced : Replaced addresses store after decrements) :
    Balanced store after (mappedBy addresses) fun hash => (prevHashes store addresses).count hash := by
  intro hash
  have moved := mapped_replaced distinct replaced hash
  simp only [counter_congr fun hash => replaced.frame (.countedNamedUsages hash) (by simp)]
  omega

theorem balanced_decremented {decrements : RefCounts} {store after : Store}
    (counted : Decremented decrements store after)
    (covered : ∀ hash, (decrements.lookup hash).getD 0 ≤ counter store hash) :
    Balanced store after (fun hash => (decrements.lookup hash).getD 0) fun _ => 0 := by
  intro hash
  have mappings : mapped after hash = mapped store hash :=
    mapped_congr (fun addr => counted.frame (.blockHash addr) (by simp) (by simp)) hash
  have enough := covered hash
  simp only [counted.counted hash, mappings]
  omega

theorem WriteTask.owedIncrements_of_isReplaced {cfg : TiFsConfig} {task : WriteTask cfg}
    (replaced : task.phase.isReplaced) (hash : TiFsHash) : task.owedIncrements hash = 0 := by
  unfold WriteTask.owedIncrements
  split
  · next current =>
      rw [current] at replaced
      cases replaced
  · next current =>
      rw [current] at replaced
      cases replaced
  · rfl

theorem WriteMove.balanced {cfg : TiFsConfig} {task : WriteTask cfg} {store after : Store}
    {phase : WritePhase} (move : WriteMove task store phase after)
    (covered : ∀ hash, task.owedDecrements hash ≤ counter store hash) :
    Balanced store after (Op.write task).owed (Op.write { task with phase := phase }).owed := by
  cases move.blockMove with
  | incremented prev after current counted =>
      intro hash
      have moved := balanced_incremented counted hash
      simpa [Op.owed, Op.owedIncrements, Op.owedDecrements, WriteTask.owedIncrements,
        WriteTask.owedDecrements, WritePhase.decrements, current] using moved
  | uploaded blocks after current stored =>
      have same : (Op.write { task with phase := .replace }).owed = (Op.write task).owed := by
        funext hash
        simp only [Op.owed, Op.owedIncrements, Op.owedDecrements, WriteTask.owedIncrements,
          WriteTask.owedDecrements, WritePhase.decrements, current]
      rw [same]
      apply balanced_of_frame
      · exact fun hash => stored.frame (.countedNamedUsages hash) (by simp)
      · exact fun addr => stored.frame (.blockHash addr) (by simp)
  | replaced decrements after current placed lengths =>
      intro hash
      have moved := balanced_replaced (task.plan.addresses_nodup task.ino) placed hash
      rw [task.plan.mappedBy_addresses] at moved
      simpa [Op.owed, Op.owedIncrements, Op.owedDecrements, WriteTask.owedIncrements,
        WriteTask.owedDecrements, WritePhase.decrements, current, placed.tallied, lookup_tally]
        using moved
  | decremented decrements after current counted =>
      intro hash
      have enough : ∀ hash, (decrements.lookup hash).getD 0 ≤ counter store hash := by
        intro hash
        have debt := covered hash
        rwa [WriteTask.owedDecrements, current] at debt
      have moved := balanced_decremented counted enough hash
      simpa [Op.owed, Op.owedIncrements, Op.owedDecrements, WriteTask.owedIncrements,
        WriteTask.owedDecrements, WritePhase.decrements, current] using moved
  | quiet phase after frame before later owed =>
      have same : (Op.write { task with phase := phase }).owed = (Op.write task).owed := by
        funext hash
        simp only [Op.owed, Op.owedIncrements, Op.owedDecrements, WriteTask.owedDecrements, owed,
          WriteTask.owedIncrements_of_isReplaced before,
          WriteTask.owedIncrements_of_isReplaced
            (show ({ task with phase := phase } : WriteTask cfg).phase.isReplaced from later)]
      rw [same]
      apply balanced_of_frame
      · exact fun hash => frame (.countedNamedUsages hash) (by simp)
      · exact fun addr => frame (.blockHash addr) (by simp)

section Clear

variable {cfg : TiFsConfig} {ambient : Ambient} {task next : ClearTask} {store after : Store}

theorem head_tally_prev (store : Store) (addr : BlockAddress) :
    (tally (prevHashes store [(addr, none)])).keys.head? = mapping store addr := by
  cases found : mapping store addr with
  | none => simp [prevHashes, found, tally]
  | some hash =>
      have single : prevHashes store [(addr, none)] = [hash] := by simp [prevHashes, found]
      rw [single]
      rfl

theorem count_prev (store : Store) (addr : BlockAddress) (hash : TiFsHash) :
    (prevHashes store [(addr, none)]).count hash = if mapping store addr = some hash then 1 else 0 := by
  cases found : mapping store addr with
  | none => simp [prevHashes, found]
  | some other => simp [prevHashes, found, List.count_singleton]

theorem onlySizeUpdate_cases {now : SystemTime} {addr : BlockAddress} {actual : Nat}
    (ran : atomically (hbReplaceBlockHashForAddressOnlySizeUpdate cfg now addr actual) store =
      .ok ((), after)) :
    after = store ∨ ∃ size : InoSize, after = applyAll store [Mutation.put (.inodeX addr.ino .size) size] := by
  cases stored : inoSize (Txn.mk store []).view addr.ino with
  | none =>
      rw [atomically, hbReplaceBlockHashForAddressOnlySizeUpdate,
        bind_error (fetch_of_none stored)] at ran
      cases ran
  | some size =>
      rw [atomically, hbReplaceBlockHashForAddressOnlySizeUpdate,
        bind_ok (fetch_of_some stored)] at ran
      cases updated : InoSize.blockWriteSizeUpdate size addr cfg.blockSize actual now with
      | none =>
          simp only [updated] at ran
          obtain ⟨_, rfl⟩ := Prod.mk.inj (Except.ok.inj ran)
          exact Or.inl rfl
      | some changed =>
          simp only [updated] at ran
          obtain ⟨_, rfl⟩ := Prod.mk.inj (Except.ok.inj ran)
          exact Or.inr ⟨changed, rfl⟩

theorem ClearTask.owed_congr {before later : ClearTask} (same : later.prevHash = before.prevHash)
    (balanced : Balanced store after (fun _ => 0) fun _ => 0) :
    Balanced store after (Op.clear before : Op cfg).owed (Op.clear later : Op cfg).owed := by
  intro hash
  have kept := balanced hash
  simp only [Op.owed, Op.owedIncrements, Op.owedDecrements, ClearTask.owedDecrements, same]
  omega

inductive ClearMove (cfg : TiFsConfig) (task : ClearTask) (store : Store) : ClearTask → Store → Prop
  | replaced (decrements : RefCounts) (after : Store) (later : ClearPhase) (current : task.phase = .replace)
      (placed : Replaced [(task.addr, none)] store after decrements)
      (lengths : ∀ hash, mapping store task.addr = some hash → hash.length = cfg.hashLen)
      (isLater : later = .sizeUpdate (mapping store task.addr) ∨ later = .decrement (mapping store task.addr)) :
      ClearMove cfg task store { task with phase := later } after
  | sizeKept (prevHash : Option TiFsHash) (current : task.phase = .sizeUpdate prevHash) :
      ClearMove cfg task store { task with phase := .decrement prevHash } store
  | sizeUpdated (prevHash : Option TiFsHash) (size : InoSize) (current : task.phase = .sizeUpdate prevHash) :
      ClearMove cfg task store { task with phase := .decrement prevHash }
        (applyAll store [Mutation.put (.inodeX task.addr.ino .size) size])
  | unmapped (current : task.phase = .decrement none) :
      ClearMove cfg task store { task with phase := .done } store
  | decremented (prevHash : TiFsHash) (after : Store) (current : task.phase = .decrement (some prevHash))
      (counted : Decremented (collect [(prevHash, 1)]) store after) :
      ClearMove cfg task store { task with phase := .done } after
  | finished (current : task.phase = .done) : ClearMove cfg task store task store

theorem ClearTask.move_of_step (lengths : ∀ hash, task.prevHash = some hash → hash.length = cfg.hashLen)
    (ran : task.step cfg ambient store = .ok (next, after)) : ClearMove cfg task store next after := by
  unfold ClearTask.step at ran
  split at ran
  · next current =>
      obtain ⟨⟨decrements, between⟩, first, rest⟩ := except_bind_eq_ok ran
      rw [replace_run] at first
      split at first
      · next accepted =>
          obtain ⟨rfl, rfl⟩ := Prod.mk.inj (Except.ok.inj first)
          have placed := replaced_applyAll store [(task.addr, none)] (List.nodup_singleton _)
          have hashLength : ∀ hash, mapping store task.addr = some hash → hash.length = cfg.hashLen := by
            intro hash found
            exact accepted hash (by simp [prevHashes, found])
          simp only [head_tally_prev] at rest
          split at rest
          · obtain ⟨rfl, rfl⟩ := Prod.mk.inj (Except.ok.inj rest)
            exact .replaced _ _ _ current placed hashLength (Or.inl rfl)
          · obtain ⟨rfl, rfl⟩ := Prod.mk.inj (Except.ok.inj rest)
            exact .replaced _ _ _ current placed hashLength (Or.inr rfl)
      · cases first
  · next prevHash current =>
      obtain ⟨⟨_, between⟩, first, rest⟩ := except_bind_eq_ok ran
      obtain ⟨rfl, rfl⟩ := Prod.mk.inj (Except.ok.inj rest)
      rcases onlySizeUpdate_cases first with rfl | ⟨size, rfl⟩
      · exact .sizeKept prevHash current
      · exact .sizeUpdated prevHash size current
  · next current =>
      obtain ⟨rfl, rfl⟩ := Prod.mk.inj (Except.ok.inj ran)
      exact .unmapped current
  · next prevHash current =>
      have listed : ∀ hash ∈ collect [(prevHash, 1)], hash.length = cfg.hashLen := by
        intro hash member
        rcases (AList.mem_insert _).mp member with rfl | absent
        · exact lengths hash (by simp only [ClearTask.prevHash, current])
        · exact absurd absent (AList.notMem_empty hash)
      obtain ⟨between, first, counted⟩ := decrement_spec cfg store (collect [(prevHash, 1)]) listed
      rw [first] at ran
      obtain ⟨rfl, rfl⟩ := Prod.mk.inj (Except.ok.inj ran)
      exact .decremented prevHash between current counted
  · next current =>
      obtain ⟨rfl, rfl⟩ := Prod.mk.inj (Except.ok.inj ran)
      exact .finished current

theorem ClearMove.sound (lengths : ∀ hash, task.prevHash = some hash → hash.length = cfg.hashLen)
    (move : ClearMove cfg task store next after) :
    ∀ hash, next.prevHash = some hash → hash.length = cfg.hashLen := by
  cases move with
  | replaced decrements after later current placed hashLength isLater =>
      rcases isLater with rfl | rfl
      · exact hashLength
      · exact hashLength
  | sizeKept prevHash current =>
      intro hash found
      exact lengths hash (by simpa only [ClearTask.prevHash, current] using found)
  | sizeUpdated prevHash size current =>
      intro hash found
      exact lengths hash (by simpa only [ClearTask.prevHash, current] using found)
  | unmapped current => simp [ClearTask.prevHash]
  | decremented prevHash after current counted => simp [ClearTask.prevHash]
  | finished current => exact lengths

theorem ClearMove.balanced (covered : ∀ hash, task.owedDecrements hash ≤ counter store hash)
    (move : ClearMove cfg task store next after) :
    Balanced store after (Op.clear task : Op cfg).owed (Op.clear next : Op cfg).owed := by
  cases move with
  | replaced decrements after later current placed hashLength isLater =>
      intro hash
      have single : ([(task.addr, (none : Option TiFsHash))].map Prod.fst).Nodup := List.nodup_singleton _
      have moved := balanced_replaced single placed hash
      have free : task.prevHash = none := by simp only [ClearTask.prevHash, current]
      have isPrev : ({ task with phase := later } : ClearTask).prevHash = mapping store task.addr := by
        rcases isLater with rfl | rfl
        · rfl
        · rfl
      simp only [count_prev] at moved
      simpa [Op.owed, Op.owedIncrements, Op.owedDecrements, ClearTask.owedDecrements, isPrev,
        free, mappedBy] using moved
  | sizeKept prevHash current =>
      exact ClearTask.owed_congr (by simp only [ClearTask.prevHash, current]) fun _ => rfl
  | sizeUpdated prevHash size current =>
      exact ClearTask.owed_congr (by simp only [ClearTask.prevHash, current])
        (balanced_inode store task.addr.ino .size (some size) _)
  | unmapped current =>
      exact ClearTask.owed_congr (by simp [ClearTask.prevHash, current]) fun _ => rfl
  | decremented prevHash after current counted =>
      have isPrev : task.prevHash = some prevHash := by simp only [ClearTask.prevHash, current]
      have single : ∀ hash, ((collect [(prevHash, 1)]).lookup hash).getD 0 = task.owedDecrements hash := by
        intro hash
        rw [collect, lookup_extend, ClearTask.owedDecrements, isPrev]
        by_cases same : prevHash = hash
        · simp [same]
        · simp [same]
      intro hash
      have moved := balanced_decremented counted
        (fun hash => by rw [single hash]; exact covered hash) hash
      simp only [single] at moved
      simpa [Op.owed, Op.owedIncrements, Op.owedDecrements, ClearTask.owedDecrements,
        ClearTask.prevHash] using moved
  | finished current => exact fun _ => rfl

end Clear

section Clone

variable {cfg : TiFsConfig} {task next : CloneTask cfg} {store after : Store}

theorem CloneTask.blockIncs_fst (task : CloneTask cfg) :
    task.blockIncs.map Prod.fst = (tally (task.hashes.entries.map Sigma.snd)).keys := by
  simp only [CloneTask.blockIncs, List.map_map]
  rfl

theorem CloneTask.blockIncs_lengths (task : CloneTask cfg) :
    ∀ hash ∈ task.blockIncs.map Prod.fst, hash.length = cfg.hashLen := by
  intro hash listed
  rw [task.blockIncs_fst] at listed
  obtain ⟨entry, member, rfl⟩ := List.mem_map.mp ((mem_tally _ hash).mp listed)
  exact task.lengths entry member

theorem CloneTask.blockIncs_nodup (task : CloneTask cfg) : (task.blockIncs.map Prod.fst).Nodup := by
  rw [task.blockIncs_fst]
  exact AList.keys_nodup _

theorem CloneTask.amount_blockIncs (task : CloneTask cfg) (hash : TiFsHash) :
    amount task.blockIncs hash = mappedBy task.addresses hash := by
  have values : mappedBy task.addresses hash =
      ((tally (task.hashes.entries.map Sigma.snd)).lookup hash).getD 0 := by
    rw [lookup_tally, mappedBy, CloneTask.addresses, List.filterMap_map]
    congr 1
    exact congrFun List.filterMap_eq_map _
  rw [values]
  cases found : (tally (task.hashes.entries.map Sigma.snd)).lookup hash with
  | none =>
      refine amount_eq_zero ?_
      rw [task.blockIncs_fst]
      exact AList.lookup_eq_none.mp found
  | some count =>
      have member : (hash, count) ∈ task.blockIncs :=
        List.mem_map.mpr ⟨⟨hash, count⟩, AList.mem_lookup_iff.mp found, rfl⟩
      exact amount_of_mem task.blockIncs_nodup member

theorem CloneTask.addresses_nodup (task : CloneTask cfg) : (task.addresses.map Prod.fst).Nodup := by
  have keys : task.addresses.map Prod.fst = task.hashes.keys.map (BlockAddress.mk task.dst) := by
    simp only [CloneTask.addresses, AList.keys, List.keys, List.map_map]
    rfl
  rw [keys]
  exact task.hashes.keys_nodup.map fun _ _ same => (BlockAddress.mk.inj same).2

inductive CloneMove (task : CloneTask cfg) (store : Store) : CloneTask cfg → Store → Prop
  | incremented (prev : RefCounts) (after : Store) (current : task.phase = .increment)
      (counted : Incremented task.blockIncs store after prev) :
      CloneMove task store { task with phase := .map } after
  | placed (decrements : RefCounts) (after : Store) (current : task.phase = .map)
      (replaced : Replaced task.addresses store after decrements) :
      CloneMove task store { task with phase := .done } after
  | finished (current : task.phase = .done) : CloneMove task store task store

theorem CloneTask.exists_move (task : CloneTask cfg) (store : Store) :
    ∃ next after, task.step store = .ok (next, after) ∧ CloneMove task store next after := by
  cases current : task.phase with
  | increment =>
      obtain ⟨prev, after, ran, counted⟩ := increment_spec cfg store task.blockIncs
        task.blockIncs_lengths task.blockIncs_nodup
      refine ⟨_, after, ?_, .incremented prev after current counted⟩
      simp only [CloneTask.step, current, ran]
      rfl
  | map =>
      refine ⟨_, _, ?_, .placed _ _ current (replaced_applyAll store task.addresses task.addresses_nodup)⟩
      simp only [CloneTask.step, current]
      rfl
  | done =>
      refine ⟨task, store, ?_, .finished current⟩
      simp only [CloneTask.step, current]
      rfl

theorem CloneTask.move_of_step (ran : task.step store = .ok (next, after)) :
    CloneMove task store next after := by
  obtain ⟨other, later, ok, move⟩ := task.exists_move store
  rw [ok] at ran
  obtain ⟨rfl, rfl⟩ := Prod.mk.inj (Except.ok.inj ran)
  exact move

/-- Mappings that a clone overwrites leave their counters too high. -/
theorem CloneTask.balanced (ran : task.step store = .ok (next, after)) (hash : TiFsHash) :
    counter store hash + mapped after hash + (Op.clone next).owed hash ≤
        counter after hash + mapped store hash + (Op.clone task).owed hash ∧
      (¬ (Op.clone task).Overwrites store →
        counter store hash + mapped after hash + (Op.clone next).owed hash =
          counter after hash + mapped store hash + (Op.clone task).owed hash) := by
  cases CloneTask.move_of_step ran with
  | incremented prev after current counted =>
      have moved := balanced_incremented counted hash
      have equal : counter store hash + mapped after hash +
          (Op.clone { task with phase := .map }).owed hash =
          counter after hash + mapped store hash + (Op.clone task).owed hash := by
        simpa [Op.owed, Op.owedIncrements, Op.owedDecrements, CloneTask.owedIncrements,
          CloneTask.blockIncs, current] using moved
      exact ⟨equal.le, fun _ => equal⟩
  | placed decrements after current replaced =>
      have moved := balanced_replaced task.addresses_nodup replaced hash
      have before : (Op.clone task).owed hash = mappedBy task.addresses hash := by
        rw [← task.amount_blockIncs]
        simp [Op.owed, Op.owedIncrements, Op.owedDecrements, CloneTask.owedIncrements, current]
      have later : (Op.clone { task with phase := .done }).owed hash = 0 := by
        simp [Op.owed, Op.owedIncrements, Op.owedDecrements, CloneTask.owedIncrements]
      simp only at moved
      rw [before, later]
      refine ⟨by omega, ?_⟩
      intro gentle
      have unmapped : prevHashes store task.addresses = [] := by
        by_contra some
        exact gentle ⟨current, some⟩
      rw [unmapped, List.count_nil] at moved
      exact moved
  | finished current => exact ⟨le_rfl, fun _ => rfl⟩

end Clone

theorem Op.sound_of_step {cfg : TiFsConfig} {ambient : Ambient} {op next : Op cfg} {store after : Store}
    (sound : op.Sound) (ran : op.step ambient store = .ok (next, after)) : next.Sound := by
  cases op with
  | write task =>
      obtain ⟨phase, rfl, move⟩ := Op.move_of_step sound ran
      exact move.sound sound
  | clear task =>
      obtain ⟨result, moved, isNext⟩ := except_map_eq_ok ran
      obtain ⟨rfl, rfl⟩ := Prod.mk.inj isNext
      exact (ClearTask.move_of_step sound moved).sound sound
  | clone task =>
      obtain ⟨result, _, isNext⟩ := except_map_eq_ok ran
      obtain ⟨rfl, _⟩ := Prod.mk.inj isNext
      trivial
  | ended failure =>
      obtain ⟨rfl, _⟩ := Prod.mk.inj (Except.ok.inj ran)
      trivial

/-- One transaction of any operation. -/
theorem Op.balanced {cfg : TiFsConfig} {ambient : Ambient} {op next : Op cfg} {store after : Store}
    (sound : op.Sound) (covered : ∀ hash, op.owedDecrements hash ≤ counter store hash)
    (ran : op.step ambient store = .ok (next, after)) :
    ∀ hash,
      counter store hash + mapped after hash + next.owed hash ≤
          counter after hash + mapped store hash + op.owed hash ∧
        (¬ op.Overwrites store → counter store hash + mapped after hash + next.owed hash =
          counter after hash + mapped store hash + op.owed hash) := by
  cases op with
  | write task =>
      obtain ⟨phase, rfl, move⟩ := Op.move_of_step sound ran
      have balanced := move.balanced covered
      exact fun hash => ⟨(balanced hash).le, fun _ => balanced hash⟩
  | clear task =>
      obtain ⟨result, moved, isNext⟩ := except_map_eq_ok ran
      obtain ⟨rfl, rfl⟩ := Prod.mk.inj isNext
      have balanced := (ClearTask.move_of_step sound moved).balanced covered
      exact fun hash => ⟨(balanced hash).le, fun _ => balanced hash⟩
  | clone task =>
      obtain ⟨result, moved, isNext⟩ := except_map_eq_ok ran
      obtain ⟨rfl, rfl⟩ := Prod.mk.inj isNext
      exact fun hash => CloneTask.balanced moved hash
  | ended failure =>
      obtain ⟨rfl, rfl⟩ := Prod.mk.inj (Except.ok.inj ran)
      exact fun hash => ⟨le_rfl, fun _ => rfl⟩

namespace BlockSystem

variable {cfg : TiFsConfig}

def owedIncrements (state : BlockSystem cfg) (hash : TiFsHash) : Nat :=
  (state.ops.map fun op => op.owedIncrements hash).sum

def owedDecrements (state : BlockSystem cfg) (hash : TiFsHash) : Nat :=
  (state.ops.map fun op => op.owedDecrements hash).sum

theorem owed_eq_sum (state : BlockSystem cfg) (hash : TiFsHash) :
    state.owedIncrements hash + state.owedDecrements hash =
      (state.ops.map fun op => op.owed hash).sum := by
  rw [owedIncrements, owedDecrements, ← List.sum_map_add]
  rfl

/-- Nothing is given up: no operation is abandoned or fails, and a clone writes to
unmapped addresses. -/
def Lossless (state : BlockSystem cfg) : BlockEvent cfg → Prop
  | .spawn _ => True
  | .advance i ambient => ∀ op, state.ops[i]? = some op →
      ¬ op.Overwrites state.store ∧ ∃ result, op.step ambient state.store = .ok result
  | .abandon _ => False

structure Covered (state : BlockSystem cfg) : Prop where
  sound : ∀ op ∈ state.ops, op.Sound
  counters : ∀ hash, mapped state.store hash + (state.ops.map fun op => op.owed hash).sum ≤
    counter state.store hash

theorem Work.start_owed (work : Work cfg) (hash : TiFsHash) : work.start.owed hash = 0 := by
  cases work <;> rfl

theorem Work.start_sound (work : Work cfg) : work.start.Sound := by
  cases work with
  | write ino plan =>
      exact ⟨by simp, fun hash listed => absurd listed (AList.notMem_empty hash)⟩
  | clear addr doSizeUpdate => exact fun hash found => by cases found
  | clone dst hashes lengths => trivial

theorem Covered.owedDecrements_le {state : BlockSystem cfg} (covered : state.Covered) {op : Op cfg}
    (member : op ∈ state.ops) (hash : TiFsHash) :
    op.owedDecrements hash ≤ counter state.store hash := by
  have single : op.owed hash ≤ (state.ops.map fun op => op.owed hash).sum :=
    List.le_sum_of_mem (List.mem_map_of_mem member)
  have all := covered.counters hash
  have part : op.owedDecrements hash ≤ op.owed hash := Nat.le_add_left _ _
  omega

theorem Covered.ended {state : BlockSystem cfg} (covered : state.Covered) {i : Nat} {op : Op cfg}
    (present : state.ops[i]? = some op) (failure : Option FsError) :
    Covered (⟨state.store, state.ops.set i (.ended failure)⟩ : BlockSystem cfg) := by
  constructor
  · intro other member
    rcases List.mem_or_eq_of_mem_set member with old | rfl
    · exact covered.sound other old
    · trivial
  · intro hash
    have changed := sum_map_set (fun op : Op cfg => op.owed hash) present (.ended failure)
    have all := covered.counters hash
    have free : (Op.ended failure : Op cfg).owed hash = 0 := rfl
    simp only at changed ⊢
    omega

theorem sound_of_blockStep {before after : BlockSystem cfg} {event : BlockEvent cfg}
    (sound : ∀ op ∈ before.ops, op.Sound) (taken : before.Step event after) :
    ∀ op ∈ after.ops, op.Sound := by
  cases effect_of_step taken with
  | spawned work =>
      intro op member
      rcases List.mem_append.mp member with old | new
      · exact sound op old
      · rw [List.mem_singleton.mp new]
        exact Work.start_sound work
  | moved i ambient op next store present ran =>
      intro other isOther
      rcases List.mem_or_eq_of_mem_set isOther with old | rfl
      · exact sound other old
      · exact Op.sound_of_step (sound op (List.mem_of_getElem? present)) ran
  | failed i ambient op issue present ran =>
      intro other isOther
      rcases List.mem_or_eq_of_mem_set isOther with old | rfl
      · exact sound other old
      · trivial
  | abandoned i op present =>
      intro other isOther
      rcases List.mem_or_eq_of_mem_set isOther with old | rfl
      · exact sound other old
      · trivial

theorem covered_step {before after : BlockSystem cfg} {event : BlockEvent cfg}
    (covered : before.Covered) (taken : before.Step event after) : after.Covered := by
  refine ⟨sound_of_blockStep covered.sound taken, ?_⟩
  cases effect_of_step taken with
  | spawned work =>
      intro hash
      have all := covered.counters hash
      simpa [Work.start_owed] using all
  | moved i ambient op next store present ran =>
      have member := List.mem_of_getElem? present
      intro hash
      have moved := (Op.balanced (covered.sound op member) (covered.owedDecrements_le member) ran hash).1
      have changed := sum_map_set (fun op : Op cfg => op.owed hash) present next
      have all := covered.counters hash
      simp only at changed ⊢
      omega
  | failed i ambient op issue present ran => exact (covered.ended present (some issue)).counters
  | abandoned i op present => exact (covered.ended present none).counters

def Exact (state : BlockSystem cfg) : Prop :=
  ∀ hash, mapped state.store hash + (state.ops.map fun op => op.owed hash).sum =
    counter state.store hash

theorem exact_step {before after : BlockSystem cfg} {event : BlockEvent cfg}
    (covered : before.Covered) (exact : before.Exact) (taken : before.Step event after)
    (lossless : before.Lossless event) : after.Exact := by
  cases effect_of_step taken with
  | spawned work =>
      intro hash
      simpa [Work.start_owed] using exact hash
  | moved i ambient op next store present ran =>
      have member := List.mem_of_getElem? present
      have gentle := (lossless op present).1
      intro hash
      have moved := (Op.balanced (covered.sound op member) (covered.owedDecrements_le member) ran hash).2 gentle
      have changed := sum_map_set (fun op : Op cfg => op.owed hash) present next
      have all := exact hash
      simp only at changed ⊢
      omega
  | failed i ambient op issue present ran =>
      obtain ⟨_, result, succeeded⟩ := lossless op present
      rw [ran] at succeeded
      cases succeeded
  | abandoned i op present => exact absurd lossless id

end BlockSystem

/-- From exact counters on, every counter covers the mapped addresses and what
the operations in flight owe, and it is exact as long as nothing is given up. -/
theorem counters_cover (cfg : TiFsConfig) (store : Store)
    (exact : ∀ hash, counter store hash = mapped store hash) :
    (∀ state, Run BlockSystem.Step (fun _ _ => True) (⟨store, []⟩ : BlockSystem cfg) state →
      ∀ hash, mapped state.store hash + state.owedIncrements hash + state.owedDecrements hash ≤
        counter state.store hash) ∧
    (∀ state, Run BlockSystem.Step BlockSystem.Lossless (⟨store, []⟩ : BlockSystem cfg) state →
      ∀ hash, mapped state.store hash + state.owedIncrements hash + state.owedDecrements hash =
        counter state.store hash) := by
  have initial : BlockSystem.Covered (⟨store, []⟩ : BlockSystem cfg) := by
    refine ⟨fun op member => absurd member List.not_mem_nil, fun hash => ?_⟩
    rw [exact hash]
    exact le_rfl
  constructor
  · intro state run hash
    have covered := Run.invariant BlockSystem.Covered
      (fun _ _ _ holds taken _ => BlockSystem.covered_step holds taken) initial run
    rw [Nat.add_assoc, state.owed_eq_sum]
    exact covered.counters hash
  · intro state run hash
    have kept : BlockSystem.Covered state ∧ BlockSystem.Exact state := by
      refine Run.invariant (fun state => BlockSystem.Covered state ∧ BlockSystem.Exact state) ?_
        ⟨initial, fun hash => ?_⟩ run
      · intro before event after holds taken lossless
        exact ⟨BlockSystem.covered_step holds.1 taken,
          BlockSystem.exact_step holds.1 holds.2 taken lossless⟩
      · rw [exact hash]
        rfl
    rw [Nat.add_assoc, state.owed_eq_sum]
    exact kept.2 hash

def twoBlocksPlan : WritePlan (paddingConfig 2 Nat.two_pos) where
  groups := [⟨padHash 3 [7, 7], [7, 7], [0, 3]⟩]
  hash_eq := by decide
  hashes_nodup := by decide
  ids_nodup := by decide

/-- Two blocks of equal content counted, stored and mapped: the two increments
are no longer owed once both addresses are mapped. -/
theorem counters_cover_two_blocks :
    (∀ hash, counter (∅ : Store) hash = mapped ∅ hash) ∧
    ∃ state : BlockSystem (paddingConfig 2 (by decide)),
      runAll BlockSystem.step ⟨∅, []⟩ [.spawn (.write 10 twoBlocksPlan), .advance 0 ⟨0, 0⟩,
        .advance 0 ⟨0, 0⟩, .advance 0 ⟨0, 0⟩] = some state ∧
      mapped state.store (padHash 3 [7, 7]) = 2 ∧
      ∀ hash, mapped state.store hash + state.owedIncrements hash + state.owedDecrements hash ≤
        counter state.store hash := by
  have fresh : ∀ hash, counter (∅ : Store) hash = mapped ∅ hash := fun hash => rfl
  obtain ⟨state, ran⟩ : ∃ state, runAll BlockSystem.step
      (⟨∅, []⟩ : BlockSystem (paddingConfig 2 (by decide)))
      [.spawn (.write 10 twoBlocksPlan), .advance 0 ⟨0, 0⟩, .advance 0 ⟨0, 0⟩, .advance 0 ⟨0, 0⟩] =
        some state := ⟨_, rfl⟩
  have run : Run BlockSystem.Step (fun _ _ => True) _ state :=
    Run.of_runAll (fun _ _ _ taken => ⟨taken, trivial⟩) ran
  refine ⟨fresh, state, ran, ?_, (counters_cover _ ∅ fresh).1 state run⟩
  obtain rfl := Option.some.inj ran
  decide +kernel

end TiFs
