import TiFs.BlockTxn
import TiFs.KeyCodec

/-! `hb_increment_blocks_reference_count` on any list of byte strings and deltas, on records by
the bytes of their keys. All counters are read before the first is written, so a hash that is
listed again is counted from the old counter again, and what is read is returned under the
hash that its key can be parsed to. -/

namespace TiFs

open BigEndian KeyValue Tables

abbrev ByteStore := Finmap fun _ : KeyBuffer => Bytes

abbrev ByteMini := TxnM (fun _ : KeyBuffer => Bytes) FsError

/-- `BigUint::to_bytes_be`: as many bytes as the number needs, and one for zero. -/
def toBytesBe (value : Nat) : Bytes := write (Nat.log2 value / 8 + 1) value

def counterKey (scope : Bytes) (hash : TiFsHash) : KeyBuffer :=
  (ScopedKeyBuilder.new scope).namedHashedBlockX hash (some .cCountedNamedUsages) none

def parseCounter (scope : Bytes) (hashLen : Nat) (key : KeyBuffer) (value : Bytes) : Option (TiFsHash × Nat) :=
  match KeyParser.start key scope hashLen >>= KeyParser.parseHash with
  | .ok (_, hash) => some (hash, read value)
  | .error _ => none

namespace ByteStore

variable {scope : Bytes} {cfg : TiFsConfig} {store after : ByteStore} {blocks : List (TiFsHash × Nat)}
  {hash : TiFsHash} {prev : RefCounts}

def prevCounterValues (scope : Bytes) (cfg : TiFsConfig) (store : ByteStore) (keys : List KeyBuffer) : RefCounts :=
  collect (keys.filterMap fun key => (store.lookup key).bind (parseCounter scope cfg.hashLen key))

def hbIncrementBlocksReferenceCount (scope : Bytes) (cfg : TiFsConfig) (blocks : List (TiFsHash × Nat)) :
    ByteMini RefCounts := do
  let txn ← get
  let prev := prevCounterValues scope cfg txn.view (blocks.map fun block => counterKey scope block.1)
  batchMutate (blocks.map fun block =>
    Mutation.put (counterKey scope block.1) (toBytesBe (block.2 + (prev.lookup block.1).getD 0)))
  return prev

def counter (scope : Bytes) (store : ByteStore) (hash : TiFsHash) : Nat :=
  ((store.lookup (counterKey scope hash)).map read).getD 0

/-- The counters go up by the sums of the deltas, nothing else changes, and the counters
that were there are returned. -/
structure IncrementsAdd (scope : Bytes) (cfg : TiFsConfig) (blocks : List (TiFsHash × Nat))
    (store after : ByteStore) (prev : RefCounts) : Prop where
  ran : atomically (hbIncrementBlocksReferenceCount scope cfg blocks) store = .ok (prev, after)
  counted : ∀ hash, counter scope after hash = counter scope store hash + amount blocks hash
  frame : ∀ key, (∀ hash ∈ blocks.map Prod.fst, key ≠ counterKey scope hash) →
    after.lookup key = store.lookup key
  returned : ∀ hash ∈ blocks.map Prod.fst, ∀ value, store.lookup (counterKey scope hash) = some value →
    prev.lookup hash = some (read value)

/-- A listed hash has the length of a hash if something is stored under the key of its counter,
and only its last delta counts. -/
structure Addable (scope : Bytes) (cfg : TiFsConfig) (blocks : List (TiFsHash × Nat)) (store : ByteStore) :
    Prop where
  lengths : ∀ hash ∈ blocks.map Prod.fst, store.lookup (counterKey scope hash) ≠ none →
    hash.length = cfg.hashLen
  last : ∀ front block back, blocks = front ++ block :: back → block.1 ∈ back.map Prod.fst → block.2 = 0

section Amounts

variable {blocks : List (TiFsHash × Nat)} {hash : TiFsHash}

theorem amount_append (front back : List (TiFsHash × Nat)) (hash : TiFsHash) :
    amount (front ++ back) hash = amount front hash + amount back hash := by
  simp only [amount, List.filter_append, List.map_append, List.sum_append]

theorem amount_cons_self (block : TiFsHash × Nat) (back : List (TiFsHash × Nat)) :
    amount (block :: back) block.1 = block.2 + amount back block.1 := by
  rw [amount, List.filter_cons_of_pos (by simp), List.map_cons, List.sum_cons, amount]

theorem amount_eq_zero_of_all (zero : ∀ block ∈ blocks, block.1 = hash → block.2 = 0) : amount blocks hash = 0 := by
  apply List.sum_eq_zero
  intro delta listed
  obtain ⟨block, member, rfl⟩ := List.mem_map.mp listed
  have both := List.mem_filter.mp member
  exact zero block both.1 (by simpa using both.2)

theorem exists_last_entry (listed : hash ∈ blocks.map Prod.fst) :
    ∃ front last back, blocks = front ++ last :: back ∧ last.1 = hash ∧ hash ∉ back.map Prod.fst := by
  induction blocks with
  | nil => cases listed
  | cons head tail ih =>
      by_cases later : hash ∈ tail.map Prod.fst
      · obtain ⟨front, last, back, split, isHash, absent⟩ := ih later
        exact ⟨head :: front, last, back, by rw [split]; rfl, isHash, absent⟩
      · rw [List.map_cons, List.mem_cons] at listed
        exact ⟨[], head, tail, rfl, (listed.resolve_right later).symm, later⟩

end Amounts

section Keys

theorem read_toBytesBe (value : Nat) : read (toBytesBe value) = value := by
  apply read_write
  calc
    value < 2 ^ (Nat.log2 value + 1) := Nat.lt_log2_self
    _ ≤ 2 ^ (8 * (Nat.log2 value / 8 + 1)) := Nat.pow_le_pow_right Nat.two_pos (by omega)
    _ = 256 ^ (Nat.log2 value / 8 + 1) := Nat.pow_mul 2 8 _

theorem counterKey_eq (scope : Bytes) (hash : TiFsHash) : counterKey scope hash =
    (LogicalKey.namedHashedBlockX hash .cCountedNamedUsages none).bytes scope := rfl

theorem counterKey_injective {other : TiFsHash} (same : counterKey scope hash = counterKey scope other) :
    hash = other := by
  rw [counterKey_eq, counterKey_eq, LogicalKey.bytes_eq, LogicalKey.bytes_eq] at same
  exact List.append_cancel_right (List.cons.inj (List.append_cancel_left same)).2

/-- The hash is what the key begins with behind its kind, in the length of a hash. -/
theorem parseCounter_key (scope : Bytes) (hashLen : Nat) (hash : TiFsHash) (value : Bytes) :
    parseCounter scope hashLen (counterKey scope hash) value =
      (parseHash hashLen (hash ++ [countedNamedUsagesId])).map fun parsed => (parsed, read value) := by
  have body : (LogicalKey.namedHashedBlockX hash .cCountedNamedUsages none).body = hash ++ [countedNamedUsagesId] := rfl
  rw [parseCounter, counterKey_eq, LogicalKey.start_bind, body, parseHash, KeyParser.parseHash]
  by_cases long : ((hash ++ [countedNamedUsagesId]).take hashLen).length = hashLen
  · rw [if_pos long, if_neg (not_not.mpr long)]
    rfl
  · rw [if_neg long, if_pos long]
    rfl

theorem length_of_parseHash {hashLen : Nat} {bytes : Bytes} (parsed : parseHash hashLen bytes = some hash) :
    hash.length = hashLen := by
  unfold parseHash at parsed
  split at parsed
  · next length =>
      rw [← Option.some.inj parsed]
      exact length
  · cases parsed

end Keys

section Previous

variable {hashes : List TiFsHash} {cnt : Nat}

theorem length_of_prevCounterValues
    (returned : (prevCounterValues scope cfg store (hashes.map (counterKey scope))).lookup hash = some cnt) :
    hash.length = cfg.hashLen := by
  rw [prevCounterValues, collect, lookup_extend] at returned
  split at returned
  · next pair isLast =>
      obtain ⟨listed, isHash⟩ := List.mem_filter.mp (List.mem_of_getLast? isLast)
      obtain ⟨key, isKey, made⟩ := List.mem_filterMap.mp listed
      obtain ⟨other, _, rfl⟩ := List.mem_map.mp isKey
      obtain ⟨value, _, made⟩ := Option.bind_eq_some_iff.mp made
      rw [parseCounter_key] at made
      obtain ⟨parsed, isParsed, rfl⟩ := Option.map_eq_some_iff.mp made
      rw [← of_decide_eq_true isHash]
      exact length_of_parseHash isParsed
  · cases returned

theorem lookup_prevCounterValues
    (lengths : ∀ hash ∈ hashes, store.lookup (counterKey scope hash) ≠ none → hash.length = cfg.hashLen)
    (listed : hash ∈ hashes) :
    (prevCounterValues scope cfg store (hashes.map (counterKey scope))).lookup hash =
      (store.lookup (counterKey scope hash)).map read := by
  have graph : (hashes.map (counterKey scope)).filterMap (fun key =>
      (store.lookup key).bind (parseCounter scope cfg.hashLen key)) =
      hashes.filterMap fun h => ((store.lookup (counterKey scope h)).map read).map fun cnt => (h, cnt) := by
    rw [List.filterMap_map]
    refine List.filterMap_congr fun h member => ?_
    simp only [Function.comp_apply]
    cases stored : store.lookup (counterKey scope h) with
    | none => rfl
    | some value =>
        have length := lengths h member (by rw [stored]; exact Option.some_ne_none value)
        rw [Option.bind_some, parseCounter_key, parseHash_append length]
        rfl
  rw [prevCounterValues, graph, lookup_collect_graph, if_pos listed]

end Previous

section Increment

def incrementWrites (scope : Bytes) (prev : RefCounts) (blocks : List (TiFsHash × Nat)) :
    List (Mutation fun _ : KeyBuffer => Bytes) :=
  blocks.map fun block =>
    Mutation.put (counterKey scope block.1) (toBytesBe (block.2 + (prev.lookup block.1).getD 0))

def previous (scope : Bytes) (cfg : TiFsConfig) (store : ByteStore) (blocks : List (TiFsHash × Nat)) : RefCounts :=
  prevCounterValues scope cfg store ((blocks.map Prod.fst).map (counterKey scope))

theorem increment_run (scope : Bytes) (cfg : TiFsConfig) (blocks : List (TiFsHash × Nat)) (store : ByteStore) :
    atomically (hbIncrementBlocksReferenceCount scope cfg blocks) store =
      .ok (previous scope cfg store blocks,
        applyAll store (incrementWrites scope (previous scope cfg store blocks) blocks)) := by
  rw [previous, List.map_map]
  rfl

theorem mem_incrementWrites_keys {key : KeyBuffer}
    (named : key ∈ (incrementWrites scope prev blocks).map Mutation.key) :
    ∃ hash ∈ blocks.map Prod.fst, key = counterKey scope hash := by
  rw [incrementWrites, List.map_map] at named
  obtain ⟨block, listed, isKey⟩ := List.mem_map.mp named
  exact ⟨block.1, List.mem_map_of_mem listed, isKey.symm⟩

theorem counter_notMem (absent : hash ∉ blocks.map Prod.fst) :
    counterKey scope hash ∉ (incrementWrites scope prev blocks).map Mutation.key := by
  intro named
  obtain ⟨other, listed, same⟩ := mem_incrementWrites_keys named
  rw [counterKey_injective same] at absent
  exact absent listed

theorem counter_incrementWrites (prev : RefCounts) (store : ByteStore) (front : List (TiFsHash × Nat))
    {back : List (TiFsHash × Nat)} {last : TiFsHash × Nat} (absent : last.1 ∉ back.map Prod.fst) :
    counter scope (applyAll store (incrementWrites scope prev (front ++ last :: back))) last.1 =
      last.2 + (prev.lookup last.1).getD 0 := by
  have split : incrementWrites scope prev (front ++ last :: back) = incrementWrites scope prev front ++
      Mutation.put (counterKey scope last.1) (toBytesBe (last.2 + (prev.lookup last.1).getD 0)) ::
        incrementWrites scope prev back := by
    rw [incrementWrites, List.map_append, List.map_cons]
    rfl
  rw [counter, split, applyAll_append, applyAll_cons, lookup_applyAll_of_notMem _ _ _ (counter_notMem absent),
    lookup_put_self]
  exact read_toBytesBe _

theorem counter_unlisted (absent : hash ∉ blocks.map Prod.fst) :
    counter scope (applyAll store (incrementWrites scope prev blocks)) hash = counter scope store hash := by
  rw [counter, lookup_applyAll_of_notMem _ _ _ (counter_notMem absent), counter]

theorem Addable.adds (addable : Addable scope cfg blocks store) :
    ∃ after prev, IncrementsAdd scope cfg blocks store after prev := by
  have found : ∀ hash ∈ blocks.map Prod.fst,
      (previous scope cfg store blocks).lookup hash = (store.lookup (counterKey scope hash)).map read :=
    fun hash listed => lookup_prevCounterValues addable.lengths listed
  refine ⟨_, _, increment_run scope cfg blocks store, ?_, ?_, ?_⟩
  · intro hash
    by_cases listed : hash ∈ blocks.map Prod.fst
    · obtain ⟨front, last, back, split, rfl, absent⟩ := exists_last_entry listed
      have before : amount front last.1 = 0 := by
        apply amount_eq_zero_of_all
        intro block member isHash
        obtain ⟨first, second, isFront⟩ := List.append_of_mem member
        apply addable.last first block (second ++ last :: back)
        · rw [split, isFront, List.append_assoc, List.cons_append]
        · simp [isHash]
      have sum : amount blocks last.1 = last.2 := by
        rw [split, amount_append, before, amount_cons_self, amount_eq_zero absent, Nat.zero_add, Nat.add_zero]
      have after : counter scope _ last.1 = _ :=
        counter_incrementWrites (previous scope cfg store blocks) store front absent
      rw [← split, found last.1 listed] at after
      rw [after, sum, counter]
      exact Nat.add_comm _ _
    · rw [counter_unlisted listed, amount_eq_zero listed, Nat.add_zero]
  · intro key different
    apply lookup_applyAll_of_notMem
    intro named
    obtain ⟨hash, listed, same⟩ := mem_incrementWrites_keys named
    exact different hash listed same
  · intro hash listed value stored
    rw [found hash listed, stored]
    rfl

theorem IncrementsAdd.addable (adds : IncrementsAdd scope cfg blocks store after prev) :
    Addable scope cfg blocks store := by
  have same := (increment_run scope cfg blocks store).symm.trans adds.ran
  obtain ⟨isPrev, isAfter⟩ := Prod.mk.inj (Except.ok.inj same)
  have lengths : ∀ hash ∈ blocks.map Prod.fst, store.lookup (counterKey scope hash) ≠ none →
      hash.length = cfg.hashLen := by
    intro hash listed stored
    obtain ⟨value, isCounter⟩ := Option.ne_none_iff_exists'.mp stored
    have returned := adds.returned hash listed value isCounter
    rw [← isPrev] at returned
    exact length_of_prevCounterValues returned
  refine ⟨lengths, ?_⟩
  intro front block back split again
  obtain ⟨middle, last, rest, isBack, isHash, absent⟩ := exists_last_entry again
  have whole : blocks = (front ++ block :: middle) ++ last :: rest := by
    rw [split, isBack, List.append_assoc, List.cons_append]
  rw [← isHash] at absent
  have listed : last.1 ∈ blocks.map Prod.fst := by
    rw [whole]
    simp
  have written : counter scope _ last.1 = _ :=
    counter_incrementWrites (previous scope cfg store blocks) store (front ++ block :: middle) absent
  have counted := adds.counted last.1
  have found : (previous scope cfg store blocks).lookup last.1 = _ := lookup_prevCounterValues lengths listed
  rw [← isAfter] at counted
  rw [← whole, counted, found, whole, amount_append, amount_cons_self, amount_eq_zero absent, amount_append,
    ← counter] at written
  have ofBlock : amount (block :: middle) last.1 = block.2 + amount middle last.1 := by
    rw [isHash]
    exact amount_cons_self block middle
  omega

end Increment

def HoldsCounters (scope : Bytes) (cfg : TiFsConfig) (raw : ByteStore) (store : Store) : Prop :=
  ∀ hash : TiFsHash, hash.length = cfg.hashLen →
    (raw.lookup (counterKey scope hash)).map read = store.lookup (.countedNamedUsages hash)

theorem HoldsCounters.put {raw : ByteStore} {store : Store} (holds : HoldsCounters scope cfg raw store)
    (hash : TiFsHash) (count : Nat) :
    HoldsCounters scope cfg ((Mutation.put (counterKey scope hash) (toBytesBe count)).apply raw)
      ((Mutation.put (.countedNamedUsages hash) count : Write).apply store) := by
  intro other length
  by_cases same : other = hash
  · rw [same, lookup_put_self, lookup_put_self _ (Key.countedNamedUsages hash), Option.map_some, read_toBytesBe]
  · rw [lookup_put_of_ne _ _ _ _ fun equal => same (counterKey_injective equal),
      lookup_put_of_ne _ _ _ _ fun equal => same (Key.countedNamedUsages.inj equal)]
    exact holds other length

/-- For hashes of the right length the transaction on typed keys does the same. -/
theorem increment_refines {raw : ByteStore} {store : Store} (holds : HoldsCounters scope cfg raw store)
    (lengths : ∀ hash ∈ blocks.map Prod.fst, hash.length = cfg.hashLen) :
    ∃ prev rawAfter after, atomically (hbIncrementBlocksReferenceCount scope cfg blocks) raw = .ok (prev, rawAfter) ∧
      atomically (TiFs.hbIncrementBlocksReferenceCount cfg blocks) store = .ok (prev, after) ∧
      HoldsCounters scope cfg rawAfter after := by
  have same : previous scope cfg raw blocks = TiFs.prevCounterValues cfg store (blocks.map Prod.fst) := by
    rw [previous, prevCounterValues, TiFs.prevCounterValues, List.filterMap_map]
    congr 1
    refine List.filterMap_congr fun hash member => ?_
    simp only [Function.comp_apply, ← holds hash (lengths hash member)]
    cases raw.lookup (counterKey scope hash) with
    | none => rfl
    | some value => rw [Option.bind_some, Option.map_some, parseCounter_key, parseHash_append (lengths hash member)]; rfl
  generalize prevs : TiFs.prevCounterValues cfg store (blocks.map Prod.fst) = prev at same
  have typedRun : atomically (TiFs.hbIncrementBlocksReferenceCount cfg blocks) store =
      .ok (prev, applyAll store (blocks.map fun block =>
        Mutation.put (.countedNamedUsages block.1) (block.2 + (prev.lookup block.1).getD 0))) := by
    rw [← prevs]
    rfl
  refine ⟨_, _, _, same ▸ increment_run scope cfg blocks raw, typedRun, ?_⟩
  rw [incrementWrites]
  clear same lengths prevs typedRun
  induction blocks generalizing raw store with
  | nil => exact holds
  | cons block rest ih => exact ih (holds.put block.1 _)

/-- The increments of a list add up exactly if nothing but counters is stored under the keys of
the counters and all deltas of a hash but the last are zero. -/
theorem increments_add_iff (scope : Bytes) (cfg : TiFsConfig) (blocks : List (TiFsHash × Nat)) (store : ByteStore) :
    (∃ after prev, IncrementsAdd scope cfg blocks store after prev) ↔ Addable scope cfg blocks store := by
  constructor
  · rintro ⟨after, prev, adds⟩
    exact adds.addable
  · exact Addable.adds

/-- A hash that is listed twice is counted once. -/
theorem repeated_increment_lost :
    ¬ ∀ (scope : Bytes) (cfg : TiFsConfig) (blocks : List (TiFsHash × Nat)) (store : ByteStore),
      ∃ after prev, IncrementsAdd scope cfg blocks store after prev := by
  intro claim
  obtain ⟨after, prev, adds⟩ := claim [1] (paddingConfig 2 Nat.two_pos) [([7, 7, 1], 1), ([7, 7, 1], 1)] ∅
  have once : counter [1] after [7, 7, 1] = 1 := by
    rw [← (Prod.mk.inj (Except.ok.inj ((increment_run _ _ _ _).symm.trans adds.ran))).2]
    decide +kernel
  have counted := adds.counted [7, 7, 1]
  rw [once] at counted
  revert counted
  decide +kernel

end ByteStore

end TiFs
