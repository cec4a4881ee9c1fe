import Mathlib.Algebra.GroupWithZero.Nat
import Mathlib.Algebra.BigOperators.Group.List.Basic
import Mathlib.Data.List.AList
import Mathlib.Data.List.Count
import Mathlib.Data.List.Induction

namespace Tables

variable {K V : Type} [DecidableEq K]

abbrev Table (K V : Type) := AList fun _ : K => V

/-- Later pairs replace earlier ones. -/
def extend (table : Table K V) (pairs : List (K × V)) : Table K V :=
  pairs.foldl (fun table pair => table.insert pair.1 pair.2) table

def collect (pairs : List (K × V)) : Table K V := extend ∅ pairs

omit [DecidableEq K] in
@[simp] theorem lookup_empty [DecidableEq K] (key : K) : (∅ : Table K V).lookup key = none := rfl

theorem lookup_extend (table : Table K V) (pairs : List (K × V)) (key : K) :
    (extend table pairs).lookup key =
      match (pairs.filter fun pair => pair.1 = key).getLast? with
      | some pair => some pair.2
      | none => table.lookup key := by
  induction pairs using List.reverseRecOn with
  | nil => rfl
  | append_singleton front last ih =>
      rw [extend, List.foldl_append, List.foldl_cons, List.foldl_nil, List.filter_append]
      by_cases same : last.1 = key
      · subst same
        rw [List.filter_cons_of_pos (by simp), List.filter_nil, List.getLast?_concat]
        exact AList.lookup_insert _
      · rw [List.filter_cons_of_neg (by simpa using same), List.filter_nil, List.append_nil,
          AList.lookup_insert_ne (Ne.symm same)]
        exact ih

/-- A map built from the graph of a partial function on a list of keys. -/
theorem lookup_extend_graph (table : Table K V) (keys : List K) (value : K → Option V) (key : K) :
    (extend table (keys.filterMap fun key => (value key).map fun found => (key, found))).lookup key =
      if key ∈ keys then (value key).or (table.lookup key) else table.lookup key := by
  induction keys using List.reverseRecOn with
  | nil => rfl
  | append_singleton front last ih =>
      rw [List.filterMap_append, extend, List.foldl_append]
      cases found : value last with
      | none =>
          have skipped : [last].filterMap (fun key => (value key).map fun found => (key, found)) = [] := by
            simp [found]
          rw [skipped, List.foldl_nil]
          refine ih.trans ?_
          by_cases listed : key ∈ front
          · rw [if_pos listed, if_pos (List.mem_append_left _ listed)]
          · rw [if_neg listed]
            by_cases same : key = last
            · subst same
              rw [if_pos (by simp), found]
              rfl
            · rw [if_neg (by simp [listed, same])]
      | some entry =>
          have kept : [last].filterMap (fun key => (value key).map fun found => (key, found)) =
              [(last, entry)] := by
            simp [found]
          rw [kept, List.foldl_cons, List.foldl_nil]
          by_cases same : key = last
          · subst same
            rw [AList.lookup_insert, if_pos (by simp), found]
            rfl
          · rw [AList.lookup_insert_ne same]
            refine ih.trans ?_
            simp [same]

theorem lookup_collect_graph (keys : List K) (value : K → Option V) (key : K) :
    (collect (keys.filterMap fun key => (value key).map fun found => (key, found))).lookup key =
      if key ∈ keys then value key else none := by
  rw [collect, lookup_extend_graph, lookup_empty, Option.or_none]

/-- One map over another. -/
theorem lookup_extend_entries (table other : Table K V) (key : K) :
    (extend table (other.entries.map fun entry => (entry.1, entry.2))).lookup key =
      (other.lookup key).or (table.lookup key) := by
  have graph : other.entries.map (fun entry => (entry.1, entry.2)) =
      other.keys.filterMap fun key => (other.lookup key).map fun found => (key, found) := by
    rw [AList.keys, List.keys, List.filterMap_map, ← List.filterMap_eq_map]
    refine List.filterMap_congr fun entry member => ?_
    have found : other.lookup entry.1 = some entry.2 := AList.mem_lookup_iff.mpr member
    simp [found]
  rw [graph, lookup_extend_graph]
  by_cases listed : key ∈ other.keys
  · rw [if_pos listed]
  · rw [if_neg listed, AList.lookup_eq_none.mpr listed, Option.none_or]

theorem extend_append (table : Table K V) (front back : List (K × V)) :
    extend table (front ++ back) = extend (extend table front) back := by
  simp only [extend, List.foldl_append]

/-- How often each key occurs. -/
def tally (keys : List K) : Table K Nat :=
  keys.foldl (fun table key => table.insert key ((table.lookup key).getD 0 + 1)) ∅

theorem tally_append_singleton (front : List K) (last : K) :
    tally (front ++ [last]) = (tally front).insert last (((tally front).lookup last).getD 0 + 1) := by
  simp only [tally, List.foldl_append, List.foldl_cons, List.foldl_nil]

theorem lookup_tally [BEq K] [LawfulBEq K] (keys : List K) (key : K) :
    ((tally keys).lookup key).getD 0 = keys.count key := by
  induction keys using List.reverseRecOn with
  | nil => rfl
  | append_singleton front last ih =>
      rw [tally_append_singleton, List.count_append]
      by_cases same : key = last
      · subst same
        rw [AList.lookup_insert, List.count_singleton_self, ← ih]
        rfl
      · rw [AList.lookup_insert_ne same, ih, List.count_singleton, if_neg (by simpa using Ne.symm same)]
        rfl

theorem mem_tally (keys : List K) (key : K) : key ∈ tally keys ↔ key ∈ keys := by
  induction keys using List.reverseRecOn with
  | nil => simp [tally, AList.notMem_empty]
  | append_singleton front last ih =>
      rw [tally_append_singleton, AList.mem_insert, ih, List.mem_append, List.mem_singleton, or_comm]

/-- What is left after an erasure was there before. -/
theorem lookup_of_erase {table : Table K V} {erased key : K} {value : V}
    (found : (table.erase erased).lookup key = some value) : table.lookup key = some value := by
  by_cases same : key = erased
  · rw [same, AList.lookup_erase] at found
    cases found
  · rw [AList.lookup_erase_ne same] at found
    exact found

/-- Without the entries that the other list has as well. -/
def eraseSame [DecidableEq V] (table : Table K V) (entries : List (Sigma fun _ : K => V)) :
    Table K V :=
  entries.foldl
    (fun table entry => if table.lookup entry.1 = some entry.2 then table.erase entry.1 else table) table

theorem lookup_eraseSame [DecidableEq V] (table : Table K V) (entries : List (Sigma fun _ : K => V))
    (key : K) :
    (eraseSame table entries).lookup key =
      if ∃ entry ∈ entries, entry.1 = key ∧ table.lookup key = some entry.2 then none
      else table.lookup key := by
  induction entries using List.reverseRecOn with
  | nil => simp [eraseSame]
  | append_singleton front last ih =>
      have step : eraseSame table (front ++ [last]) =
          if (eraseSame table front).lookup last.1 = some last.2 then
            (eraseSame table front).erase last.1
          else eraseSame table front := by
        simp only [eraseSame, List.foldl_append, List.foldl_cons, List.foldl_nil]
        rfl
      have erased : (eraseSame table (front ++ [last])).lookup key =
          if last.1 = key ∧ (eraseSame table front).lookup key = some last.2 then none
          else (eraseSame table front).lookup key := by
        rw [step]
        by_cases same : last.1 = key
        · subst same
          by_cases equal : (eraseSame table front).lookup last.1 = some last.2
          · rw [if_pos equal, if_pos ⟨rfl, equal⟩, AList.lookup_erase]
          · rw [if_neg equal, if_neg fun both => equal both.2]
        · have other : ¬ (last.1 = key ∧ (eraseSame table front).lookup key = some last.2) :=
            fun both => same both.1
          rw [if_neg other]
          split
          · exact AList.lookup_erase_ne (Ne.symm same)
          · rfl
      rw [erased, ih]
      by_cases earlier : ∃ entry ∈ front, entry.1 = key ∧ table.lookup key = some entry.2
      · obtain ⟨entry, member, hit⟩ := earlier
        have later : ∃ entry ∈ front ++ [last], entry.1 = key ∧ table.lookup key = some entry.2 :=
          ⟨entry, List.mem_append_left _ member, hit⟩
        simp only [if_pos later, if_pos (⟨entry, member, hit⟩ : ∃ entry ∈ front, entry.1 = key ∧
          table.lookup key = some entry.2), ite_self]
      · simp only [if_neg earlier]
        congr 1
        simp only [List.mem_append, List.mem_singleton, eq_iff_iff]
        constructor
        · intro hit
          exact ⟨last, Or.inr rfl, hit⟩
        · rintro ⟨entry, old | rfl, hit⟩
          · exact absurd ⟨entry, old, hit⟩ earlier
          · exact hit

/-- The keys of each value, as a multimap from values to keys collects them. -/
def invert [DecidableEq V] (entries : List (Sigma fun _ : K => V)) : Table V (List K) :=
  entries.foldl
    (fun table entry => table.insert entry.2 ((table.lookup entry.2).getD [] ++ [entry.1])) ∅

section Invert

omit [DecidableEq K]

variable [DecidableEq V] (entries : List (Sigma fun _ : K => V))

theorem invert_append_singleton (last : Sigma fun _ : K => V) :
    invert (entries ++ [last]) = (invert entries).insert last.2
      (((invert entries).lookup last.2).getD [] ++ [last.1]) := by
  simp only [invert, List.foldl_append, List.foldl_cons, List.foldl_nil]

theorem lookup_invert (value : V) :
    ((invert entries).lookup value).getD [] =
      (entries.filter fun entry => entry.2 = value).map Sigma.fst := by
  induction entries using List.reverseRecOn with
  | nil => rfl
  | append_singleton front last ih =>
      rw [invert_append_singleton, List.filter_append, List.map_append, ← ih]
      by_cases same : value = last.2
      · subst same
        rw [AList.lookup_insert, List.filter_cons_of_pos (by simp)]
        rfl
      · rw [AList.lookup_insert_ne same, List.filter_cons_of_neg (by simpa using Ne.symm same)]
        simp

theorem mem_invert (value : V) : value ∈ invert entries ↔ ∃ entry ∈ entries, entry.2 = value := by
  induction entries using List.reverseRecOn with
  | nil => simp [invert, AList.notMem_empty]
  | append_singleton front last ih =>
      rw [invert_append_singleton, AList.mem_insert, ih]
      simp only [List.mem_append, List.mem_singleton]
      constructor
      · rintro (rfl | ⟨entry, member, same⟩)
        · exact ⟨last, Or.inr rfl, rfl⟩
        · exact ⟨entry, Or.inl member, same⟩
      · rintro ⟨entry, old | rfl, same⟩
        · exact Or.inr ⟨entry, old, same⟩
        · exact Or.inl same.symm

end Invert

/-- A key is listed under its value only. -/
theorem mem_invert_entries [DecidableEq V] (table : Table K V) {value : V} {keys : List K}
    (listed : ⟨value, keys⟩ ∈ (invert table.entries).entries) (key : K) :
    key ∈ keys ↔ table.lookup key = some value := by
  have found : (invert table.entries).lookup value = some keys := AList.mem_lookup_iff.mpr listed
  have equal := lookup_invert table.entries value
  rw [found, Option.getD_some] at equal
  rw [equal, List.mem_map]
  constructor
  · rintro ⟨entry, member, rfl⟩
    obtain ⟨present, same⟩ := List.mem_filter.mp member
    rw [← of_decide_eq_true same]
    exact AList.mem_lookup_iff.mpr present
  · intro present
    refine ⟨⟨key, value⟩, List.mem_filter.mpr ⟨AList.mem_lookup_iff.mp present, ?_⟩, rfl⟩
    simp

theorem invert_entries_nodup [DecidableEq V] (table : Table K V) :
    ((invert table.entries).entries.flatMap Sigma.snd).Nodup := by
  rw [List.nodup_flatMap]
  constructor
  · rintro ⟨value, keys⟩ listed
    have found : (invert table.entries).lookup value = some keys := AList.mem_lookup_iff.mpr listed
    have equal := lookup_invert table.entries value
    rw [found, Option.getD_some] at equal
    rw [equal]
    exact table.keys_nodup.sublist (List.filter_sublist.map Sigma.fst)
  · refine (List.nodupKeys_iff_pairwise.mp (invert table.entries).nodupKeys).imp_of_mem ?_
    rintro ⟨first, keys⟩ ⟨second, others⟩ inFirst inSecond different key here there
    have one := (mem_invert_entries table inFirst key).mp here
    have other := (mem_invert_entries table inSecond key).mp there
    exact different (Option.some.inj (one.symm.trans other))

/-- What is in a list stays in it, but for the one place that is set. -/
theorem eq_or_mem_set {A : Type} {items : List A} {i : Nat} {old item : A}
    (present : items[i]? = some old) (member : item ∈ items) (new : A) :
    item = old ∨ item ∈ items.set i new := by
  obtain ⟨j, found⟩ := List.mem_iff_getElem?.mp member
  by_cases same : i = j
  · subst same
    exact Or.inl (Option.some.inj (found.symm.trans present))
  · refine Or.inr (List.mem_iff_getElem?.mpr ⟨j, ?_⟩)
    rw [List.getElem?_set_ne same, found]

theorem exists_mem_set {A : Type} {items : List A} {i : Nat} {old new : A} {good : A → Prop}
    (present : items[i]? = some old) (stays : good old → good new) (found : ∃ item ∈ items, good item) :
    ∃ item ∈ items.set i new, good item := by
  obtain ⟨item, member, isGood⟩ := found
  rcases eq_or_mem_set present member new with isOld | stillThere
  · exact ⟨new, List.mem_set (List.getElem?_eq_some_iff.mp present).1 _, stays (isOld ▸ isGood)⟩
  · exact ⟨item, stillThere, isGood⟩

theorem exists_of_mem_set {A : Type} {items : List A} {i : Nat} {old new : A} {good : A → Prop}
    (present : items[i]? = some old) (was : good new → good old)
    (found : ∃ item ∈ items.set i new, good item) : ∃ item ∈ items, good item := by
  obtain ⟨item, member, isGood⟩ := found
  rcases List.mem_or_eq_of_mem_set member with kept | isNew
  · exact ⟨item, kept, isGood⟩
  · exact ⟨old, List.mem_of_getElem? present, was (isNew ▸ isGood)⟩

/-- What is the same of the old item and the new one is the same of the lists. -/
theorem map_set_same {A B : Type} {f : A → B} {items : List A} {i : Nat} {old new : A}
    (present : items[i]? = some old) (same : f new = f old) :
    (items.set i new).map f = items.map f := by
  have bound := (List.getElem?_eq_some_iff.mp present).1
  apply List.ext_getElem?
  intro j
  rw [List.getElem?_map, List.getElem?_map]
  by_cases here : i = j
  · subst here
    rw [List.getElem?_set_self bound, present, Option.map_some, Option.map_some, same]
  · rw [List.getElem?_set_ne here]

theorem getElem?_set_cases {A : Type} {items : List A} {i j : Nat} {new item : A}
    (found : (items.set i new)[j]? = some item) :
    i = j ∧ item = new ∨ i ≠ j ∧ items[j]? = some item := by
  by_cases same : i = j
  · subst same
    left
    obtain ⟨bound, isItem⟩ := List.getElem?_eq_some_iff.mp found
    rw [List.getElem_set_self] at isItem
    exact ⟨rfl, isItem.symm⟩
  · rw [List.getElem?_set_ne same] at found
    exact Or.inr ⟨same, found⟩

theorem getElem?_concat_cases {A : Type} {items : List A} {j : Nat} {new item : A}
    (found : (items ++ [new])[j]? = some item) : j = items.length ∧ item = new ∨ items[j]? = some item := by
  by_cases older : j < items.length
  · rw [List.getElem?_append_left older] at found
    exact Or.inr found
  · rw [List.getElem?_append_right (Nat.le_of_not_lt older)] at found
    obtain ⟨bound, isItem⟩ := List.getElem?_eq_some_iff.mp found
    have isLast : j - items.length = 0 := Nat.lt_one_iff.mp bound
    simp only [isLast, List.getElem_cons_zero] at isItem
    exact Or.inl ⟨by omega, isItem.symm⟩

/-- One place of a list changes what it contributes to a sum. -/
theorem sum_map_set {A : Type} (weight : A → Nat) {items : List A} {i : Nat} {old : A}
    (present : items[i]? = some old) (new : A) :
    ((items.set i new).map weight).sum + weight old = (items.map weight).sum + weight new := by
  induction items generalizing i with
  | nil => cases present
  | cons head tail ih =>
      cases i with
      | zero =>
          obtain rfl := Option.some.inj present
          simp only [List.set_cons_zero, List.map_cons, List.sum_cons]
          omega
      | succ j =>
          have rest := ih present
          simp only [List.set_cons_succ, List.map_cons, List.sum_cons]
          omega

end Tables
