import Mathlib.Data.List.Nodup

universe u v

structure SortedMap (K : Type u) (V : Type v) [LT K] where
  entries : List (K × V)
  sorted : entries.Pairwise fun left right => left.1 < right.1

namespace SortedMap

variable {K : Type u} {V : Type v} [LT K]

def empty : SortedMap K V := ⟨[], List.Pairwise.nil⟩

section Delete

variable [DecidableEq K]

def delete (map : SortedMap K V) (key : K) : SortedMap K V :=
  ⟨map.entries.filter fun entry => entry.1 ≠ key, map.sorted.filter _⟩

theorem mem_delete {map : SortedMap K V} {key : K} {entry : K × V} :
    entry ∈ (map.delete key).entries ↔ entry.1 ≠ key ∧ entry ∈ map.entries := by
  simp [delete, and_comm]

end Delete

section Scan

variable [LE K] [DecidableLE K]

/-- The entries with keys between two bounds, both included. -/
def range (map : SortedMap K V) (first last : K) : List (K × V) :=
  map.entries.filter fun entry => first ≤ entry.1 ∧ entry.1 ≤ last

def scan (map : SortedMap K V) (first last : K) (limit : Nat) : List (K × V) :=
  (map.range first last).take limit

/-- A scan whose limit is not exceeded finds the whole range. -/
theorem mem_scan {map : SortedMap K V} {first last : K} {limit : Nat}
    (within : (map.range first last).length ≤ limit) {entry : K × V} :
    entry ∈ map.scan first last limit ↔
      entry ∈ map.entries ∧ first ≤ entry.1 ∧ entry.1 ≤ last := by
  rw [scan, List.take_of_length_le within, range]
  simp

variable [DecidableLT K]

/-- The entries with keys from a bound up to another one that is not included. -/
def between (map : SortedMap K V) (first stop : K) : List (K × V) :=
  map.entries.filter fun entry => first ≤ entry.1 ∧ entry.1 < stop

def scanBetween (map : SortedMap K V) (first stop : K) (limit : Nat) : List (K × V) :=
  (map.between first stop).take limit

theorem mem_between {map : SortedMap K V} {first stop : K} {entry : K × V} :
    entry ∈ map.between first stop ↔ entry ∈ map.entries ∧ first ≤ entry.1 ∧ entry.1 < stop := by
  simp [between]

theorem between_sorted (map : SortedMap K V) (first stop : K) :
    (map.between first stop).Pairwise fun left right => left.1 < right.1 :=
  map.sorted.filter _

end Scan

section Keys

variable [Std.Irrefl fun left right : K => left < right]

theorem keys_nodup (map : SortedMap K V) : (map.entries.map Prod.fst).Nodup := by
  rw [List.Nodup, List.pairwise_map]
  exact map.sorted.imp fun less => Std.ne_of_lt less

/-- A key has one value. -/
theorem eq_of_mem {map : SortedMap K V} {first second : K × V} (inFirst : first ∈ map.entries)
    (inSecond : second ∈ map.entries) (same : first.1 = second.1) : first = second :=
  List.inj_on_of_nodup_map map.keys_nodup inFirst inSecond same

end Keys

/-- What a scan finds are the entries of the range with fewer of them before than its limit. -/
theorem mem_take_iff [DecidableLT K] [LE K] [Std.IsLinearOrder K] [Std.LawfulOrderLT K]
    {entries : List (K × V)} (sorted : entries.Pairwise fun left right => left.1 < right.1) (limit : Nat)
    {entry : K × V} : entry ∈ entries.take limit ↔
      entry ∈ entries ∧ (entries.filter fun other => other.1 < entry.1).length < limit := by
  induction entries generalizing limit with
  | nil => simp
  | cons head rest ih =>
      obtain ⟨above, restSorted⟩ := List.pairwise_cons.mp sorted
      cases limit with
      | zero => simp
      | succ limit =>
          rw [List.take_succ_cons, List.mem_cons, List.mem_cons, ih restSorted limit]
          constructor
          · rintro (rfl | ⟨later, few⟩)
            · have none : (entry :: rest).filter (fun other => other.1 < entry.1) = [] := by
                rw [List.filter_eq_nil_iff]
                intro other listed
                rw [decide_eq_true_eq]
                rcases List.mem_cons.mp listed with rfl | behind
                · exact Std.lt_irrefl
                · exact fun less => Std.lt_irrefl (Std.lt_trans less (above other behind))
              rw [none]
              exact ⟨Or.inl rfl, Nat.zero_lt_succ limit⟩
            · rw [List.filter_cons_of_pos (by simpa using above entry later), List.length_cons]
              exact ⟨Or.inr later, Nat.succ_lt_succ few⟩
          · rintro ⟨rfl | later, few⟩
            · exact Or.inl rfl
            · rw [List.filter_cons_of_pos (by simpa using above entry later), List.length_cons] at few
              exact Or.inr ⟨later, Nat.lt_of_succ_lt_succ few⟩

theorem ext_mem [LE K] [Std.IsLinearOrder K] [Std.LawfulOrderLT K] {left right : SortedMap K V}
    (same : ∀ entry, entry ∈ left.entries ↔ entry ∈ right.entries) :
    left = right := by
  have perm : left.entries.Perm right.entries :=
    (List.perm_ext_iff_of_nodup (List.Nodup.of_map Prod.fst left.keys_nodup)
      (List.Nodup.of_map Prod.fst right.keys_nodup)).mpr same
  have entries : left.entries = right.entries := by
    refine perm.eq_of_pairwise ?_ left.sorted right.sorted
    intro first second _ _ less more
    exact absurd (Std.lt_trans less more) Std.lt_irrefl
  cases left
  cases right
  subst entries
  rfl

variable [LE K] [DecidableEq K] [DecidableLT K] [Std.IsLinearOrder K] [Std.LawfulOrderLT K]

def insertEntry (key : K) (value : V) : List (K × V) → List (K × V)
  | [] => [(key, value)]
  | head :: rest =>
      if key < head.1 then (key, value) :: head :: rest
      else if key = head.1 then (key, value) :: rest
      else head :: insertEntry key value rest

theorem mem_insertEntry {key : K} {value : V} {entries : List (K × V)}
    (sorted : entries.Pairwise fun left right => left.1 < right.1) {entry : K × V} :
    entry ∈ insertEntry key value entries ↔
      entry = (key, value) ∨ entry.1 ≠ key ∧ entry ∈ entries := by
  induction entries with
  | nil => simp [insertEntry]
  | cons head rest ih =>
      obtain ⟨above, restSorted⟩ := List.pairwise_cons.mp sorted
      have irrefl : ∀ item : K, ¬ item < item := fun item => Std.lt_irrefl
      rw [insertEntry]
      by_cases before : key < head.1
      · rw [if_pos before, List.mem_cons, List.mem_cons]
        constructor
        · intro member
          rcases member with isNew | isHead | later
          · exact Or.inl isNew
          · refine Or.inr ⟨?_, Or.inl isHead⟩
            intro same
            rw [← same, isHead] at before
            exact irrefl _ before
          · refine Or.inr ⟨?_, Or.inr later⟩
            intro same
            have larger := above entry later
            rw [same] at larger
            exact irrefl _ (Std.lt_trans before larger)
        · intro member
          exact member.imp_right fun both => both.2
      · rw [if_neg before]
        by_cases same : key = head.1
        · rw [if_pos same, List.mem_cons, List.mem_cons]
          constructor
          · intro member
            rcases member with isNew | later
            · exact Or.inl isNew
            · refine Or.inr ⟨?_, Or.inr later⟩
              intro isKey
              have larger := above entry later
              rw [isKey, same] at larger
              exact irrefl _ larger
          · intro member
            rcases member with isNew | ⟨different, isHead | later⟩
            · exact Or.inl isNew
            · exact absurd (by rw [isHead, same]) different
            · exact Or.inr later
        · rw [if_neg same, List.mem_cons, ih restSorted, List.mem_cons]
          constructor
          · intro member
            rcases member with isHead | isNew | ⟨different, later⟩
            · refine Or.inr ⟨?_, Or.inl isHead⟩
              rw [isHead]
              exact fun isKey => same isKey.symm
            · exact Or.inl isNew
            · exact Or.inr ⟨different, Or.inr later⟩
          · intro member
            rcases member with isNew | ⟨different, isHead | later⟩
            · exact Or.inr (Or.inl isNew)
            · exact Or.inl isHead
            · exact Or.inr (Or.inr ⟨different, later⟩)

theorem sorted_insertEntry {key : K} {value : V} {entries : List (K × V)}
    (sorted : entries.Pairwise fun left right => left.1 < right.1) :
    (insertEntry key value entries).Pairwise fun left right => left.1 < right.1 := by
  induction entries with
  | nil => simp [insertEntry]
  | cons head rest ih =>
      obtain ⟨above, restSorted⟩ := List.pairwise_cons.mp sorted
      rw [insertEntry]
      by_cases before : key < head.1
      · rw [if_pos before, List.pairwise_cons]
        refine ⟨?_, sorted⟩
        intro entry member
        rcases List.mem_cons.mp member with isHead | later
        · rw [isHead]
          exact before
        · exact Std.lt_trans before (above entry later)
      · rw [if_neg before]
        by_cases same : key = head.1
        · rw [if_pos same, List.pairwise_cons]
          refine ⟨?_, restSorted⟩
          intro entry later
          rw [same]
          exact above entry later
        · rw [if_neg same, List.pairwise_cons]
          refine ⟨?_, ih restSorted⟩
          intro entry member
          rcases (mem_insertEntry restSorted).mp member with isNew | ⟨_, later⟩
          · have notAbove : head.1 ≤ key := Std.not_lt.mp before
            rw [isNew]
            rw [Std.lt_iff_le_and_ne]
            exact ⟨notAbove, fun isHead => same isHead.symm⟩
          · exact above entry later

def put (map : SortedMap K V) (key : K) (value : V) : SortedMap K V :=
  ⟨insertEntry key value map.entries, sorted_insertEntry map.sorted⟩

theorem mem_put {map : SortedMap K V} {key : K} {value : V} {entry : K × V} :
    entry ∈ (map.put key value).entries ↔ entry = (key, value) ∨ entry.1 ≠ key ∧ entry ∈ map.entries :=
  mem_insertEntry map.sorted

def extend (map : SortedMap K V) (pairs : List (K × V)) : SortedMap K V :=
  pairs.foldl (fun map pair => map.put pair.1 pair.2) map

/-- Where no two pairs give a key different values, a map holds all that it had and got. -/
theorem mem_extend {pairs : List (K × V)} {map : SortedMap K V}
    (agree : ∀ first second, first ∈ map.entries ∨ first ∈ pairs → second ∈ map.entries ∨ second ∈ pairs →
      first.1 = second.1 → first = second) {entry : K × V} :
    entry ∈ (map.extend pairs).entries ↔ entry ∈ map.entries ∨ entry ∈ pairs := by
  induction pairs generalizing map with
  | nil => simp [extend]
  | cons head tail ih =>
      have inPut : ∀ other, other ∈ (map.put head.1 head.2).entries ↔ other = head ∨ other ∈ map.entries := by
        intro other
        rw [mem_put]
        constructor
        · intro member
          exact member.imp_right And.right
        · intro member
          by_cases same : other.1 = head.1
          · refine Or.inl (agree other head ?_ (Or.inr List.mem_cons_self) same)
            exact member.elim (fun isHead => Or.inr (isHead ▸ List.mem_cons_self)) Or.inl
          · exact member.imp_right fun old => ⟨same, old⟩
      have mixed : ∀ other, other ∈ (map.put head.1 head.2).entries ∨ other ∈ tail →
          other ∈ map.entries ∨ other ∈ head :: tail := by
        intro other member
        rw [inPut, or_comm (a := other = head), or_assoc] at member
        exact member.imp_right List.mem_cons.mpr
      have step : map.extend (head :: tail) = (map.put head.1 head.2).extend tail := rfl
      rw [step, ih fun first second inFirst inSecond =>
        agree first second (mixed first inFirst) (mixed second inSecond), inPut, List.mem_cons]
      tauto

end SortedMap
