import Mathlib.Order.Lattice
import Mathlib.Order.MinMax
import Mathlib.Data.List.Pairwise
import Mathlib.Data.List.Basic

/-! Sets that are unions of finitely many half-open ranges, kept as the list of their maximal
ranges in ascending order. The list is determined by the set. -/

namespace RangeSets

universe u

structure Span (A : Type u) [LT A] where
  start : A
  stop : A
  positive : start < stop
  deriving DecidableEq

variable {A : Type u} [LinearOrder A]

def Span.Contains (span : Span A) (point : A) : Prop := span.start ≤ point ∧ point < span.stop

/-- Ascending, and neither overlapping nor touching. -/
def Separated (spans : List (Span A)) : Prop := spans.Pairwise fun span later => span.stop < later.start

def Covers (spans : List (Span A)) (point : A) : Prop := ∃ span ∈ spans, span.Contains point

theorem Span.contains_start (span : Span A) : span.Contains span.start := ⟨le_rfl, span.positive⟩

theorem covers_cons {span : Span A} {rest : List (Span A)} {point : A} :
    Covers (span :: rest) point ↔ span.Contains point ∨ Covers rest point := by
  simp only [Covers, List.mem_cons, exists_eq_or_imp]

theorem not_covers_nil (point : A) : ¬ Covers ([] : List (Span A)) point := by
  rintro ⟨span, listed, _⟩
  cases listed

theorem covers_append {front back : List (Span A)} {point : A} :
    Covers (front ++ back) point ↔ Covers front point ∨ Covers back point := by
  simp only [Covers, List.mem_append, or_and_right, exists_or]

theorem Separated.above {span : Span A} {rest : List (Span A)} (separated : Separated (span :: rest))
    {point : A}
    (covered : Covers rest point) : span.stop < point := by
  obtain ⟨later, listed, inside⟩ := covered
  exact (List.rel_of_pairwise_cons separated listed).trans_le inside.1

theorem Separated.tail {span : Span A} {rest : List (Span A)} (separated : Separated (span :: rest)) :
    Separated rest := (List.pairwise_cons.mp separated).2

theorem Separated.not_covers_stop {span : Span A} {rest : List (Span A)}
    (separated : Separated (span :: rest)) :
    ¬ Covers (span :: rest) span.stop := by
  intro covered
  rcases covers_cons.mp covered with inside | later
  · exact absurd inside.2 (lt_irrefl _)
  · exact absurd (separated.above later) (lt_irrefl _)

theorem Separated.start_le {span : Span A} {rest : List (Span A)} (separated : Separated (span :: rest))
    {point : A}
    (covered : Covers (span :: rest) point) : span.start ≤ point := by
  rcases covers_cons.mp covered with inside | later
  · exact inside.1
  · exact (span.positive.trans (separated.above later)).le

theorem Separated.stop_le {span other : Span A} {rest others : List (Span A)}
    (separated : Separated (span :: rest))
    (same : ∀ point, Covers (span :: rest) point ↔ Covers (other :: others) point)
    (start : span.start = other.start) : other.stop ≤ span.stop := by
  by_contra shorter
  have inside : other.Contains span.stop := ⟨start ▸ span.positive.le, lt_of_not_ge shorter⟩
  exact separated.not_covers_stop ((same span.stop).mpr (covers_cons.mpr (Or.inl inside)))

/-- The maximal ranges of a set are its own. -/
theorem Separated.ext {spans others : List (Span A)} (separated : Separated spans)
    (otherSeparated : Separated others)
    (same : ∀ point, Covers spans point ↔ Covers others point) : spans = others := by
  induction spans generalizing others with
  | nil =>
      cases others with
      | nil => rfl
      | cons other rest =>
          have covered := (same other.start).mpr (covers_cons.mpr (Or.inl other.contains_start))
          exact absurd covered (not_covers_nil _)
  | cons span rest ih =>
      cases others with
      | nil =>
          have covered := (same span.start).mp (covers_cons.mpr (Or.inl span.contains_start))
          exact absurd covered (not_covers_nil _)
      | cons other otherRest =>
          have start : span.start = other.start := by
            apply le_antisymm
            · exact separated.start_le ((same _).mpr (covers_cons.mpr (Or.inl other.contains_start)))
            · exact otherSeparated.start_le ((same _).mp (covers_cons.mpr (Or.inl span.contains_start)))
          have stop : span.stop = other.stop := by
            apply le_antisymm
            · exact otherSeparated.stop_le (fun point => (same point).symm) start.symm
            · exact separated.stop_le same start
          obtain rfl : span = other := by
            cases span
            cases other
            simp only at start stop
            subst start
            subst stop
            rfl
          congr 1
          apply ih separated.tail otherSeparated.tail
          intro point
          have both := same point
          rw [covers_cons, covers_cons] at both
          have apart : ∀ {rest : List (Span A)}, Separated (span :: rest) → Covers rest point →
              ¬ span.Contains point :=
            fun isSeparated covered inside => absurd inside.2 (isSeparated.above covered).not_gt
          constructor
          · intro covered
            exact (both.mp (Or.inr covered)).resolve_left (apart separated covered)
          · intro covered
            exact (both.mpr (Or.inr covered)).resolve_left (apart otherSeparated covered)

section Union

def Span.join (span other : Span A) : Span A :=
  ⟨min span.start other.start, max span.stop other.stop,
    (min_le_left _ _).trans_lt (span.positive.trans_le (le_max_left _ _))⟩

theorem Span.contains_join {span other : Span A} (touch : other.start ≤ span.stop)
    (touched : span.start ≤ other.stop) (point : A) :
    (span.join other).Contains point ↔ span.Contains point ∨ other.Contains point := by
  simp only [Span.Contains, Span.join, min_le_iff, lt_max_iff]
  constructor
  · rintro ⟨start | start, stop | stop⟩
    · exact Or.inl ⟨start, stop⟩
    · rcases lt_or_ge point span.stop with inside | behind
      · exact Or.inl ⟨start, inside⟩
      · exact Or.inr ⟨touch.trans behind, stop⟩
    · rcases lt_or_ge point other.stop with inside | behind
      · exact Or.inr ⟨start, inside⟩
      · exact Or.inl ⟨touched.trans behind, stop⟩
    · exact Or.inr ⟨start, stop⟩
  · rintro (⟨start, stop⟩ | ⟨start, stop⟩)
    · exact ⟨Or.inl start, Or.inl stop⟩
    · exact ⟨Or.inr start, Or.inr stop⟩

def insertSpan (span : Span A) : List (Span A) → List (Span A)
  | [] => [span]
  | head :: tail =>
      if span.stop < head.start then span :: head :: tail
      else if head.stop < span.start then head :: insertSpan span tail
      else insertSpan (head.join span) tail

theorem covers_insertSpan (span : Span A) (spans : List (Span A)) (point : A) :
    Covers (insertSpan span spans) point ↔ span.Contains point ∨ Covers spans point := by
  induction spans generalizing span with
  | nil => exact covers_cons
  | cons head tail ih =>
      rw [insertSpan]
      split
      · exact covers_cons
      · next reaches =>
          split
          · rw [covers_cons, covers_cons, ih]
            tauto
          · next reached =>
              rw [ih, covers_cons, Span.contains_join (not_lt.mp reached) (not_lt.mp reaches)]
              tauto

theorem start_insertSpan {bound : A} {span : Span A} {spans : List (Span A)} (before : bound < span.start)
    (first : ∀ one ∈ spans, bound < one.start) : ∀ one ∈ insertSpan span spans, bound < one.start := by
  induction spans generalizing span with
  | nil =>
      intro one listed
      rw [List.mem_singleton.mp listed]
      exact before
  | cons head tail ih =>
      have rest : ∀ one ∈ tail, bound < one.start := fun one listed => first one (List.mem_cons_of_mem _ listed)
      rw [insertSpan]
      split
      · intro one listed
        rcases List.mem_cons.mp listed with rfl | old
        · exact before
        · exact first one old
      · split
        · intro one listed
          rcases List.mem_cons.mp listed with rfl | new
          · exact first one List.mem_cons_self
          · exact ih before rest one new
        · exact ih (lt_min (first head List.mem_cons_self) before) rest

theorem separated_insertSpan (span : Span A) {spans : List (Span A)} (separated : Separated spans) :
    Separated (insertSpan span spans) := by
  induction spans generalizing span with
  | nil => exact List.pairwise_singleton _ _
  | cons head tail ih =>
      have later : ∀ one ∈ tail, head.stop < one.start := fun one => List.rel_of_pairwise_cons separated
      rw [insertSpan]
      split
      · next apart =>
          refine List.pairwise_cons.mpr ⟨?_, separated⟩
          intro one listed
          rcases List.mem_cons.mp listed with rfl | old
          · exact apart
          · exact apart.trans (head.positive.trans (later one old))
      · split
        · next apart => exact List.pairwise_cons.mpr ⟨start_insertSpan apart later, ih span separated.tail⟩
        · exact ih _ separated.tail

end Union

section Difference

def cut (hole span : Span A) : List (Span A) :=
  (if left : span.start < hole.start then
    [⟨span.start, min span.stop hole.start, lt_min span.positive left⟩] else []) ++
  (if right : hole.stop < span.stop then
    [⟨max span.start hole.stop, span.stop, max_lt span.positive right⟩] else [])

theorem covers_cut (hole span : Span A) (point : A) :
    Covers (cut hole span) point ↔ span.Contains point ∧ ¬ hole.Contains point := by
  have left : Covers (if left : span.start < hole.start then
      [(⟨span.start, min span.stop hole.start, lt_min span.positive left⟩ : Span A)] else []) point ↔
        span.Contains point ∧ point < hole.start := by
    split
    · simp only [Covers, List.mem_singleton, exists_eq_left, Span.Contains, lt_min_iff, and_assoc]
    · next before =>
        refine iff_of_false (not_covers_nil point) ?_
        rintro ⟨inside, early⟩
        exact before (inside.1.trans_lt early)
  have right : Covers (if right : hole.stop < span.stop then
      [(⟨max span.start hole.stop, span.stop, max_lt span.positive right⟩ : Span A)] else []) point ↔
        span.Contains point ∧ hole.stop ≤ point := by
    split
    · simp only [Covers, List.mem_singleton, exists_eq_left, Span.Contains, max_le_iff]
      tauto
    · next behind =>
        refine iff_of_false (not_covers_nil point) ?_
        rintro ⟨inside, late⟩
        exact behind (late.trans_lt inside.2)
  rw [cut, covers_append, left, right, ← and_or_left, Span.Contains, Span.Contains, not_and_or, not_le, not_lt]

theorem mem_cut {hole span piece : Span A} (listed : piece ∈ cut hole span) :
    span.start ≤ piece.start ∧ piece.stop ≤ span.stop := by
  rcases List.mem_append.mp listed with left | right
  · split at left
    · rw [List.mem_singleton.mp left]
      exact ⟨le_rfl, min_le_left _ _⟩
    · cases left
  · split at right
    · rw [List.mem_singleton.mp right]
      exact ⟨le_max_left _ _, le_rfl⟩
    · cases right

theorem separated_cut (hole span : Span A) : Separated (cut hole span) := by
  refine List.pairwise_append.mpr ⟨?_, ?_, ?_⟩
  · split
    · exact List.pairwise_singleton _ _
    · exact List.Pairwise.nil
  · split
    · exact List.pairwise_singleton _ _
    · exact List.Pairwise.nil
  · intro one left other right
    split at left
    · split at right
      · rw [List.mem_singleton.mp left, List.mem_singleton.mp right]
        exact (min_le_right _ _).trans_lt (hole.positive.trans_le (le_max_right _ _))
      · cases right
    · cases left

def remove (spans : List (Span A)) (hole : Span A) : List (Span A) := spans.flatMap (cut hole)

theorem covers_remove (spans : List (Span A)) (hole : Span A) (point : A) :
    Covers (remove spans hole) point ↔ Covers spans point ∧ ¬ hole.Contains point := by
  induction spans with
  | nil => exact iff_of_false (not_covers_nil point) fun both => not_covers_nil point both.1
  | cons head tail ih =>
      rw [remove, List.flatMap_cons, covers_append, covers_cut, ← remove, ih, covers_cons]
      tauto

theorem separated_remove {spans : List (Span A)} (separated : Separated spans) (hole : Span A) :
    Separated (remove spans hole) := by
  induction spans with
  | nil => exact List.Pairwise.nil
  | cons head tail ih =>
      rw [remove, List.flatMap_cons, Separated, List.pairwise_append]
      refine ⟨separated_cut hole head, ih separated.tail, ?_⟩
      intro piece ofHead later ofTail
      obtain ⟨one, listed, ofOne⟩ := List.mem_flatMap.mp ofTail
      calc piece.stop
        _ ≤ head.stop := (mem_cut ofHead).2
        _ < one.start := List.rel_of_pairwise_cons separated listed
        _ ≤ later.start := (mem_cut ofOne).1

end Difference

structure RangeSet (A : Type u) [LinearOrder A] where
  spans : List (Span A)
  separated : Separated spans

namespace RangeSet

instance : Membership A (RangeSet A) := ⟨fun set point => Covers set.spans point⟩

theorem mem_iff {set : RangeSet A} {point : A} : point ∈ set ↔ Covers set.spans point := Iff.rfl

@[ext]
theorem ext {set other : RangeSet A} (same : ∀ point, point ∈ set ↔ point ∈ other) : set = other := by
  cases set
  cases other
  simp only [mk.injEq]
  exact Separated.ext ‹_› ‹_› same

def empty : RangeSet A := ⟨[], List.Pairwise.nil⟩

def ofRange (start stop : A) : RangeSet A :=
  if positive : start < stop then ⟨[⟨start, stop, positive⟩], List.pairwise_singleton _ _⟩ else empty

def union (set other : RangeSet A) : RangeSet A :=
  other.spans.foldl
    (fun joined span => ⟨insertSpan span joined.spans, separated_insertSpan span joined.separated⟩) set

def difference (set other : RangeSet A) : RangeSet A :=
  other.spans.foldl (fun left hole => ⟨remove left.spans hole, separated_remove left.separated hole⟩) set

theorem not_mem_empty (point : A) : point ∉ (empty : RangeSet A) := not_covers_nil point

theorem mem_ofRange (start stop point : A) : point ∈ ofRange start stop ↔ start ≤ point ∧ point < stop := by
  rw [ofRange]
  split
  · simp only [mem_iff, Covers, List.mem_singleton, exists_eq_left, Span.Contains]
  · next empty =>
      refine iff_of_false (not_mem_empty point) ?_
      rintro ⟨start, stop⟩
      exact empty (start.trans_lt stop)

theorem mem_union (set other : RangeSet A)
    (point : A) : point ∈ set.union other ↔ point ∈ set ∨ point ∈ other := by
  change _ ↔ point ∈ set ∨ Covers other.spans point
  rw [union]
  induction other.spans generalizing set with
  | nil => exact (or_iff_left (not_covers_nil point)).symm
  | cons span rest ih =>
      rw [List.foldl_cons, ih, covers_cons, mem_iff, covers_insertSpan]
      tauto

theorem mem_difference (set other : RangeSet A) (point : A) :
    point ∈ set.difference other ↔ point ∈ set ∧ point ∉ other := by
  change _ ↔ point ∈ set ∧ ¬ Covers other.spans point
  rw [difference]
  induction other.spans generalizing set with
  | nil => exact (and_iff_left (not_covers_nil point)).symm
  | cons hole rest ih =>
      rw [List.foldl_cons, ih, covers_cons, mem_iff, covers_remove]
      tauto

end RangeSet

end RangeSets
