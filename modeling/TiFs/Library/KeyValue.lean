import Mathlib.Data.Finmap

/-! A finite key-value map whose values are typed by their key, the mutation
lists a transaction sends to it, and what a key holds after such a list. -/

namespace KeyValue

universe u v

variable {K : Type u} {V : K → Type v}

/-- One buffered mutation. A missing value deletes the key. -/
structure Mutation (V : K → Type v) where
  key : K
  value : Option (V key)

def Mutation.put (key : K) (value : V key) : Mutation V := ⟨key, some value⟩

def Mutation.delete (key : K) : Mutation V := ⟨key, none⟩

@[simp] theorem Mutation.put_key (key : K) (value : V key) :
    (Mutation.put key value).key = key := rfl

@[simp] theorem Mutation.delete_key (key : K) :
    (Mutation.delete key : Mutation V).key = key := rfl

variable [DecidableEq K]

def Mutation.apply (store : Finmap V) (mutation : Mutation V) : Finmap V :=
  match mutation.value with
  | some value => store.insert mutation.key value
  | none => store.erase mutation.key

def applyAll (store : Finmap V) (mutations : List (Mutation V)) : Finmap V :=
  mutations.foldl Mutation.apply store

@[simp] theorem applyAll_nil (store : Finmap V) : applyAll store [] = store := rfl

@[simp] theorem applyAll_cons (store : Finmap V) (head : Mutation V) (tail : List (Mutation V)) :
    applyAll store (head :: tail) = applyAll (head.apply store) tail := rfl

@[simp] theorem applyAll_append (store : Finmap V) (front back : List (Mutation V)) :
    applyAll store (front ++ back) = applyAll (applyAll store front) back := by
  simp only [applyAll, List.foldl_append]

theorem lookup_apply_self (store : Finmap V) (mutation : Mutation V) :
    (mutation.apply store).lookup mutation.key = mutation.value := by
  rcases mutation with ⟨key, value | value⟩
  · exact Finmap.lookup_erase key store
  · exact Finmap.lookup_insert store

theorem lookup_apply_of_ne (store : Finmap V) (mutation : Mutation V) (key : K)
    (different : key ≠ mutation.key) :
    (mutation.apply store).lookup key = store.lookup key := by
  rcases mutation with ⟨written, value | value⟩
  · exact Finmap.lookup_erase_ne different
  · exact Finmap.lookup_insert_of_ne store different

@[simp] theorem lookup_put_self (store : Finmap V) (key : K) (value : V key) :
    ((Mutation.put key value).apply store).lookup key = some value :=
  lookup_apply_self store (Mutation.put key value)

@[simp] theorem lookup_delete_self (store : Finmap V) (key : K) :
    ((Mutation.delete key).apply store).lookup key = none :=
  lookup_apply_self store (Mutation.delete key)

@[simp] theorem lookup_put_of_ne (store : Finmap V) (written key : K) (value : V written)
    (different : key ≠ written) :
    ((Mutation.put written value).apply store).lookup key = store.lookup key :=
  lookup_apply_of_ne store (Mutation.put written value) key different

@[simp] theorem lookup_delete_of_ne (store : Finmap V) (written key : K)
    (different : key ≠ written) :
    ((Mutation.delete written).apply store).lookup key = store.lookup key :=
  lookup_apply_of_ne store (Mutation.delete written) key different

/-- A batch leaves every key alone that it does not name. -/
theorem lookup_applyAll_of_notMem (store : Finmap V) (mutations : List (Mutation V)) (key : K)
    (outside : key ∉ mutations.map Mutation.key) :
    (applyAll store mutations).lookup key = store.lookup key := by
  induction mutations generalizing store with
  | nil => rfl
  | cons head tail ih =>
      simp only [List.map_cons, List.mem_cons, not_or] at outside
      rw [applyAll_cons, ih _ outside.2]
      exact lookup_apply_of_ne store head key outside.1

/-- With distinct keys the order of a batch is irrelevant: each key holds the
value of the one mutation that names it. -/
theorem lookup_applyAll_of_mem (store : Finmap V) (mutations : List (Mutation V))
    (distinct : (mutations.map Mutation.key).Nodup) (mutation : Mutation V)
    (present : mutation ∈ mutations) :
    (applyAll store mutations).lookup mutation.key = mutation.value := by
  induction mutations generalizing store with
  | nil => cases present
  | cons head tail ih =>
      obtain ⟨fresh, rest⟩ := List.nodup_cons.mp distinct
      rcases List.mem_cons.mp present with rfl | later
      · rw [applyAll_cons, lookup_applyAll_of_notMem _ tail _ fresh]
        exact lookup_apply_self store mutation
      · exact ih _ rest later

theorem lookup_applyAll_put {store : Finmap V} {mutations : List (Mutation V)}
    (distinct : (mutations.map Mutation.key).Nodup) {key : K} {value : V key}
    (present : Mutation.put key value ∈ mutations) :
    (applyAll store mutations).lookup key = some value :=
  lookup_applyAll_of_mem store mutations distinct (Mutation.put key value) present

theorem lookup_applyAll_delete {store : Finmap V} {mutations : List (Mutation V)}
    (distinct : (mutations.map Mutation.key).Nodup) {key : K}
    (present : Mutation.delete key ∈ mutations) :
    (applyAll store mutations).lookup key = none :=
  lookup_applyAll_of_mem store mutations distinct (Mutation.delete key) present

/-- A value found after a batch was there before or was put by it. -/
theorem lookup_applyAll_eq_some {store : Finmap V} {mutations : List (Mutation V)} {key : K}
    {value : V key} (found : (applyAll store mutations).lookup key = some value) :
    store.lookup key = some value ∨ Mutation.put key value ∈ mutations := by
  induction mutations generalizing store with
  | nil => exact Or.inl found
  | cons head tail ih =>
      rcases ih found with stored | later
      · by_cases same : key = head.key
        · subst same
          rw [lookup_apply_self] at stored
          refine Or.inr (List.mem_cons.mpr (Or.inl ?_))
          rw [Mutation.put, ← stored]
        · rw [lookup_apply_of_ne store head key same] at stored
          exact Or.inl stored
      · exact Or.inr (List.mem_cons_of_mem head later)

/-- A key that is written holds the value of one of the mutations for it, the last one. -/
theorem exists_mem_of_written (store : Finmap V) {mutations : List (Mutation V)} {key : K}
    (written : key ∈ mutations.map Mutation.key) :
    ∃ value, (⟨key, value⟩ : Mutation V) ∈ mutations ∧ (applyAll store mutations).lookup key = value := by
  induction mutations generalizing store with
  | nil => cases written
  | cons head tail ih =>
      by_cases later : key ∈ tail.map Mutation.key
      · obtain ⟨value, listed, isValue⟩ := ih (head.apply store) later
        exact ⟨value, List.mem_cons_of_mem _ listed, isValue⟩
      · obtain rfl : key = head.key := (List.mem_cons.mp written).resolve_right later
        refine ⟨head.value, List.mem_cons_self, ?_⟩
        rw [applyAll_cons, lookup_applyAll_of_notMem _ _ _ later, lookup_apply_self]

/-- Only the mutations of a class of keys decide what those keys hold. -/
theorem lookup_applyAll_filter (store : Finmap V) (mutations : List (Mutation V))
    (selected : K → Bool) (key : K) (chosen : selected key = true) :
    (applyAll store mutations).lookup key =
      (applyAll store (mutations.filter fun mutation => selected mutation.key)).lookup key := by
  induction mutations using List.reverseRecOn with
  | nil => rfl
  | append_singleton front last ih =>
      rw [List.filter_append, applyAll_append, applyAll_append, applyAll_cons, applyAll_nil]
      by_cases same : key = last.key
      · subst same
        rw [List.filter_cons_of_pos (by exact chosen), List.filter_nil, applyAll_cons, applyAll_nil,
          lookup_apply_self, lookup_apply_self]
      · rw [lookup_apply_of_ne _ last key same, ih]
        refine (lookup_applyAll_of_notMem _ _ key ?_).symm
        intro listed
        obtain ⟨mutation, present, equal⟩ := List.mem_map.mp listed
        have isLast := List.mem_singleton.mp (List.mem_of_mem_filter present)
        exact same (by rw [← equal, isLast])

theorem applyAll_perm (store : Finmap V) {first second : List (Mutation V)}
    (distinct : (second.map Mutation.key).Nodup) (permuted : first.Perm second) :
    applyAll store first = applyAll store second := by
  have alsoDistinct : (first.map Mutation.key).Nodup := (permuted.map _).nodup_iff.mpr distinct
  refine Finmap.ext_lookup fun key => ?_
  by_cases written : key ∈ second.map Mutation.key
  · obtain ⟨mutation, present, rfl⟩ := List.mem_map.mp written
    rw [lookup_applyAll_of_mem store second distinct mutation present,
      lookup_applyAll_of_mem store first alsoDistinct mutation (permuted.mem_iff.mpr present)]
  · have unwritten : key ∉ first.map Mutation.key := by
      rwa [(permuted.map Mutation.key).mem_iff]
    rw [lookup_applyAll_of_notMem store second key written,
      lookup_applyAll_of_notMem store first key unwritten]

/-- The last mutation of a key. -/
def lastOf (mutations : List (Mutation V)) (key : K) : Option (Mutation V) :=
  (mutations.filter fun mutation => mutation.key = key).getLast?

theorem lastOf_some {mutations : List (Mutation V)} {key : K} {mutation : Mutation V}
    (last : lastOf mutations key = some mutation) : mutation ∈ mutations ∧ mutation.key = key := by
  simpa using List.mem_of_getLast? last

theorem lastOf_of_mem {mutations : List (Mutation V)} {mutation : Mutation V} (listed : mutation ∈ mutations) :
    ∃ last, lastOf mutations mutation.key = some last := by
  cases isLast : lastOf mutations mutation.key with
  | some last => exact ⟨last, rfl⟩
  | none =>
      have noMutation := List.filter_eq_nil_iff.mp (List.getLast?_eq_none_iff.mp isLast)
      exact absurd (decide_eq_true rfl) (noMutation mutation listed)

theorem lastOf_filter {mutations : List (Mutation V)} {key : K} (kept : Mutation V → Bool)
    (all : ∀ mutation ∈ mutations, mutation.key = key → kept mutation = true) :
    lastOf (mutations.filter kept) key = lastOf mutations key := by
  rw [lastOf, lastOf, List.filter_filter]
  congr 1
  refine List.filter_congr fun mutation listed => ?_
  by_cases same : mutation.key = key
  · simp [same, all mutation listed same]
  · simp [same]

/-- What a key holds after a batch is what the last mutation of the key says. -/
theorem lookup_applyAll_last {W : Type v} (store : Finmap fun _ : K => W)
    (mutations : List (Mutation fun _ : K => W)) (key : K) :
    (applyAll store mutations).lookup key =
      match lastOf mutations key with
      | some mutation => mutation.value
      | none => store.lookup key := by
  induction mutations using List.reverseRecOn with
  | nil => rfl
  | append_singleton front last ih =>
      rw [applyAll_append, applyAll_cons, applyAll_nil, lastOf, List.filter_append]
      by_cases same : last.key = key
      · rw [List.filter_cons_of_pos (by simpa using same), List.filter_nil, List.getLast?_concat, ← same]
        exact lookup_apply_self _ last
      · rw [List.filter_cons_of_neg (by simpa using same), List.filter_nil, List.append_nil,
          lookup_apply_of_ne _ last key (Ne.symm same)]
        exact ih

end KeyValue
