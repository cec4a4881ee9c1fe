import TiFs.HashQueries
import TiFs.Library.RangeSet

/-! Reading ahead: after a read that was answered in full, `read_kind_regular` asks for the next
part of the file that was not asked for yet, so that it is in the cache when it is read. -/

namespace TiFs

open KeyValue RangeSets

namespace RangeSetRange

def start : RangeSetRange → UInt64
  | .range start _ => start
  | .rangeFrom start => start

def Before : RangeSetRange → RangeSetRange → Prop
  | .range _ stop, later => stop < later.start
  | .rangeFrom _, _ => False

def Nonempty : RangeSetRange → Prop
  | .range start stop => start < stop
  | .rangeFrom _ => True

end RangeSetRange

/-- With `difference`, and in the order in which `iter` gives the ranges. -/
structure DataRangeSetApi extends RangeSetApi where
  difference : RangeSet2 → RangeSet2 → RangeSet2

namespace DataRangeSetApi

structure Lawful (api : DataRangeSetApi) : Prop extends RangeSetApi.Lawful api.toRangeSetApi where
  difference : ∀ left right index,
    api.Contains (api.difference left right) index ↔ api.Contains left index ∧ ¬ api.Contains right index
  ascending : ∀ set, (api.iter set).Pairwise RangeSetRange.Before
  nonempty : ∀ set, ∀ range ∈ api.iter set, range.Nonempty

end DataRangeSetApi

instance linearOrderWord : LinearOrder UInt64 where
  le_refl := UInt64.le_refl
  le_trans := fun _ _ _ => UInt64.le_trans
  lt_iff_le_not_ge := fun _ _ => by
    rw [UInt64.lt_iff_toNat_lt, UInt64.le_iff_toNat_le, UInt64.le_iff_toNat_le]
    omega
  le_antisymm := fun _ _ => UInt64.le_antisymm
  le_total := UInt64.le_total
  toDecidableLE := inferInstance
  toDecidableLT := inferInstance

def RangeSetRange.ofSpan (span : Span UInt64) : RangeSetRange := .range span.start span.stop

theorem covers_ofSpan (spans : List (Span UInt64)) (index : UInt64) :
    (∃ range ∈ spans.map RangeSetRange.ofSpan, range.Contains index) ↔ Covers spans index := by
  simp only [List.mem_map, exists_exists_and_eq_and]
  rfl

theorem exists_spans_of_ends {ranges : List RangeSetRange} (ascending : ranges.Pairwise RangeSetRange.Before)
    (nonempty : ∀ range ∈ ranges, range.Nonempty)
    (ends : ∀ range ∈ ranges, ∃ start stop, range = .range start stop) :
    ∃ spans : List (Span UInt64), Separated spans ∧ ranges = spans.map RangeSetRange.ofSpan := by
  induction ranges with
  | nil => exact ⟨[], List.Pairwise.nil, rfl⟩
  | cons head tail ih =>
      obtain ⟨before, rest⟩ := List.pairwise_cons.mp ascending
      obtain ⟨spans, separated, rfl⟩ := ih rest
        (fun range listed => nonempty range (List.mem_cons_of_mem _ listed))
        (fun range listed => ends range (List.mem_cons_of_mem _ listed))
      obtain ⟨start, stop, rfl⟩ := ends head List.mem_cons_self
      refine ⟨⟨start, stop, nonempty _ List.mem_cons_self⟩ :: spans, ?_, rfl⟩
      refine List.pairwise_cons.mpr ⟨?_, separated⟩
      intro span listed
      exact before (.ofSpan span) (List.mem_map_of_mem listed)

section Ranges

variable {api : DataRangeSetApi}

theorem exists_spans (lawful : api.Lawful) {set : api.RangeSet2} {stop : UInt64}
    (bounded : ∀ index, api.Contains set index → index < stop) :
    ∃ spans : List (Span UInt64), Separated spans ∧ api.iter set = spans.map RangeSetRange.ofSpan := by
  apply exists_spans_of_ends (lawful.ascending set) (lawful.nonempty set)
  intro range listed
  cases range with
  | range start stop => exact ⟨start, stop, rfl⟩
  | rangeFrom start =>
      have last : (18446744073709551615 : UInt64) < stop := by
        apply bounded
        refine ⟨_, listed, ?_⟩
        change start ≤ 18446744073709551615
        have word := start.toNat_lt
        rw [UInt64.le_iff_toNat_le]
        change _ ≤ 18446744073709551615
        omega
      have word := stop.toNat_lt
      rw [UInt64.lt_iff_toNat_lt] at last
      change 18446744073709551615 < _ at last
      omega

end Ranges

/-- What a call of `read_transaction_arc` that nobody waits for is given. -/
structure AheadTask where
  start : UInt64
  stop : UInt64
  deriving DecidableEq, Repr

namespace AheadTask

/-- The length is cut to the word of a read. -/
def size (task : AheadTask) : UInt32 := (task.stop - task.start).toUInt32

def Marks (task : AheadTask) (index : UInt64) : Prop := task.start ≤ index ∧ index < task.stop

def AsksFor (task : AheadTask) (index : UInt64) : Prop :=
  task.start ≤ index ∧ index.toNat < task.start.toNat + task.size.toNat

end AheadTask

/-- The `read_ahead_map` and the tasks pushed to `read_ahead` of a file handler. `position` is
where the last read that was answered in full had its end; it is not part of the program. -/
structure ReadAhead (api : DataRangeSetApi) where
  cachedRanges : api.RangeSet2
  pushed : List AheadTask
  position : UInt64

structure AnsweredRead where
  start : UInt64
  size : UInt32
  length : Nat
  deriving DecidableEq, Repr

def checkedAdd (left right : UInt64) : Option UInt64 :=
  if left.toNat + right.toNat < 2 ^ 64 then some (left + right) else none

namespace ReadAhead

variable {api : DataRangeSetApi}

def new : ReadAhead api := ⟨api.empty, [], 0⟩

def getRemainingToBeReadSize (ahead : ReadAhead api) (start stop : UInt64) : api.RangeSet2 :=
  api.difference (api.fromRange start stop) ahead.cachedRanges

def updateReadSize (ahead : ReadAhead api) (start stop : UInt64) : ReadAhead api :=
  { ahead with cachedRanges := api.unionWith ahead.cachedRanges (api.fromRange start stop) }

def bounded : RangeSetRange → Option AheadTask
  | .range start stop => some ⟨start, stop⟩
  | .rangeFrom _ => none

/-- The part of `read_kind_regular` behind the transaction, under the lock of the map. An
overflow of an addition stops the call. -/
def readKindRegular (readAheadSize : UInt64) (ahead : ReadAhead api) (read : AnsweredRead) :
    Option (ReadAhead api) :=
  if 0 < readAheadSize ∧ read.length = read.size.toNat then do
    let target ← checkedAdd read.start read.size.toUInt64
    let stop ← checkedAdd target readAheadSize
    let ahead := { ahead with position := target }
    let remaining := (api.iter (ahead.getRemainingToBeReadSize target stop)).filterMap bounded
    let count := remaining.foldl (fun x v => x + (v.stop - v.start)) 0
    if count > readAheadSize / 2 then do
      let fp ← remaining.head?
      some { ahead.updateReadSize fp.start fp.stop with pushed := ahead.pushed ++ [fp] }
    else some ahead
  else some ahead

def Step (readAheadSize : UInt64) (before : ReadAhead api) (read : AnsweredRead) (after : ReadAhead api) :
    Prop :=
  before.readKindRegular readAheadSize read = some after

def taskOf (span : Span UInt64) : AheadTask := ⟨span.start, span.stop⟩

def missing (spans : List (Span UInt64)) : UInt64 :=
  (spans.map taskOf).foldl (fun x v => x + (v.stop - v.start)) 0

/-- The part of the file that a read looks at, and what of it was not asked for before. -/
structure Looks (readAheadSize : UInt64) (before : ReadAhead api) (read : AnsweredRead) (target stop : UInt64)
    (spans : List (Span UInt64)) : Prop where
  enabled : 0 < readAheadSize
  full : read.length = read.size.toNat
  isTarget : target.toNat = read.start.toNat + read.size.toNat
  isStop : stop.toNat = target.toNat + readAheadSize.toNat
  separated : Separated spans
  covers : ∀ index, Covers spans index ↔
    (target ≤ index ∧ index < stop) ∧ ¬ api.Contains before.cachedRanges index

inductive Effect (readAheadSize : UInt64) (before : ReadAhead api) (read : AnsweredRead) : ReadAhead api → Prop
  | unchanged (short : ¬ (0 < readAheadSize ∧ read.length = read.size.toNat)) :
      Effect readAheadSize before read before
  | enough (target stop : UInt64) (spans : List (Span UInt64))
      (looks : Looks readAheadSize before read target stop spans) (little : missing spans ≤ readAheadSize / 2) :
      Effect readAheadSize before read { before with position := target }
  | asks (target stop : UInt64) (first : Span UInt64) (rest : List (Span UInt64))
      (looks : Looks readAheadSize before read target stop (first :: rest))
      (much : readAheadSize / 2 < missing (first :: rest)) :
      Effect readAheadSize before read
        ⟨api.unionWith before.cachedRanges (api.fromRange first.start first.stop),
          before.pushed ++ [taskOf first], target⟩

theorem checkedAdd_eq_some {left right sum : UInt64} (added : checkedAdd left right = some sum) :
    sum.toNat = left.toNat + right.toNat := by
  obtain ⟨fits, isSum⟩ := Option.ite_none_right_eq_some.mp added
  rw [← Option.some.inj isSum, UInt64.toNat_add]
  exact Nat.mod_eq_of_lt fits

theorem filterMap_bounded (spans : List (Span UInt64)) :
    (spans.map RangeSetRange.ofSpan).filterMap bounded = spans.map taskOf := by
  rw [List.filterMap_map]
  exact List.filterMap_congr (fun _ _ => rfl) |>.trans (congrFun (List.filterMap_eq_map (f := taskOf)) spans)

theorem effect_of_step (lawful : api.Lawful) {readAheadSize : UInt64} {before after : ReadAhead api}
    {read : AnsweredRead} (taken : before.Step readAheadSize read after) :
    Effect readAheadSize before read after := by
  rw [Step, readKindRegular] at taken
  split at taken
  · next full =>
      obtain ⟨target, isTarget, onward⟩ := Option.bind_eq_some_iff.mp taken
      obtain ⟨stop, isStop, decision⟩ := Option.bind_eq_some_iff.mp onward
      have remains : ∀ index, api.Contains (before.getRemainingToBeReadSize target stop) index ↔
          (target ≤ index ∧ index < stop) ∧ ¬ api.Contains before.cachedRanges index := by
        intro index
        rw [getRemainingToBeReadSize, lawful.difference, lawful.fromRange]
      obtain ⟨spans, separated, isList⟩ := exists_spans lawful
        (fun index contained => ((remains index).mp contained).1.2)
      have looks : Looks readAheadSize before read target stop spans := by
        refine ⟨full.1, full.2, ?_, checkedAdd_eq_some isStop, separated, ?_⟩
        · rw [checkedAdd_eq_some isTarget, UInt32.toNat_toUInt64]
        · intro index
          rw [← remains, ← covers_ofSpan, ← isList]
          rfl
      have sameRanges : api.iter (getRemainingToBeReadSize { before with position := target } target stop) =
          spans.map RangeSetRange.ofSpan := isList
      simp only [sameRanges, filterMap_bounded] at decision
      split at decision
      · next much =>
          cases spans with
          | nil => cases decision
          | cons first rest =>
              obtain rfl := Option.some.inj decision
              exact .asks target stop first rest looks much
      · next little =>
          obtain rfl := Option.some.inj decision
          exact .enough target stop spans looks (UInt64.not_lt.mp little)
  · next short =>
      obtain rfl := Option.some.inj taken
      exact .unchanged short

/-- No byte is in two tasks, and what is marked is what the tasks mark. -/
structure Asked (readAheadSize : UInt64) (ahead : ReadAhead api) : Prop where
  apart : ahead.pushed.Pairwise fun task later => ∀ index, task.Marks index → ¬ later.Marks index
  within : ∀ task ∈ ahead.pushed, task.start < task.stop ∧
    task.stop.toNat ≤ task.start.toNat + readAheadSize.toNat
  marked : ∀ index, api.Contains ahead.cachedRanges index ↔ ∃ task ∈ ahead.pushed, task.Marks index

theorem asked_new (lawful : api.Lawful) (readAheadSize : UInt64) :
    Asked readAheadSize (new : ReadAhead api) where
  apart := List.Pairwise.nil
  within := nofun
  marked := by
    intro index
    refine iff_of_false (lawful.empty index) ?_
    rintro ⟨task, listed, _⟩
    cases listed

theorem Looks.first_within {readAheadSize : UInt64} {before : ReadAhead api} {read : AnsweredRead}
    {target stop : UInt64} {first : Span UInt64} {rest : List (Span UInt64)}
    (looks : Looks readAheadSize before read target stop (first :: rest)) :
    target ≤ first.start ∧ first.stop ≤ stop := by
  refine ⟨((looks.covers _).mp (covers_cons.mpr (Or.inl first.contains_start))).1.1, ?_⟩
  by_contra behind
  rw [not_le] at behind
  rcases lt_or_ge stop first.start with late | early
  · have inside := ((looks.covers _).mp (covers_cons.mpr (Or.inl first.contains_start))).1.2
    exact absurd inside late.not_gt
  · have covered : Covers (first :: rest) stop := covers_cons.mpr (Or.inl ⟨early, behind⟩)
    exact absurd ((looks.covers stop).mp covered).1.2 (lt_irrefl _)

theorem asked_step (lawful : api.Lawful) {readAheadSize : UInt64} {before after : ReadAhead api}
    {read : AnsweredRead}
    (asked : before.Asked readAheadSize) (taken : before.Step readAheadSize read after) :
    after.Asked readAheadSize := by
  cases effect_of_step lawful taken with
  | unchanged short => exact asked
  | enough target stop spans looks little => exact ⟨asked.apart, asked.within, asked.marked⟩
  | asks target stop first rest looks much =>
      have fresh : ∀ index, (taskOf first).Marks index → ¬ api.Contains before.cachedRanges index :=
        fun index inside => ((looks.covers index).mp (covers_cons.mpr (Or.inl inside))).2
      refine ⟨?_, ?_, ?_⟩
      · refine List.pairwise_append.mpr ⟨asked.apart, List.pairwise_singleton _ _, ?_⟩
        intro task listed later isFirst index marks inFirst
        rw [List.mem_singleton.mp isFirst] at inFirst
        exact fresh index inFirst ((asked.marked index).mpr ⟨task, listed, marks⟩)
      · intro task listed
        rcases List.mem_append.mp listed with old | new
        · exact asked.within task old
        · rw [List.mem_singleton.mp new]
          obtain ⟨start, stopLe⟩ := looks.first_within
          rw [UInt64.le_iff_toNat_le] at start stopLe
          refine ⟨first.positive, ?_⟩
          calc first.stop.toNat
            _ ≤ stop.toNat := stopLe
            _ = target.toNat + readAheadSize.toNat := looks.isStop
            _ ≤ first.start.toNat + readAheadSize.toNat := Nat.add_le_add_right start _
      · intro index
        simp only [lawful.unionWith, lawful.fromRange, asked.marked, List.mem_append, List.mem_singleton,
          or_and_right, exists_or, exists_eq_left]
        rfl

theorem asksFor_iff {task : AheadTask} (positive : task.start < task.stop) (index : UInt64) :
    task.AsksFor index ↔ task.start ≤ index ∧
      index.toNat < task.start.toNat + (task.stop.toNat - task.start.toNat) % 2 ^ 32 := by
  rw [AheadTask.AsksFor, AheadTask.size, UInt64.toNat_toUInt32,
    UInt64.toNat_sub_of_le _ _ (UInt64.le_of_lt positive)]

theorem marks_iff {task : AheadTask} (index : UInt64) :
    task.Marks index ↔ task.start ≤ index ∧ index.toNat < task.stop.toNat := by
  rw [AheadTask.Marks, UInt64.lt_iff_toNat_lt]

theorem marks_of_asksFor {task : AheadTask} (positive : task.start < task.stop) {index : UInt64}
    (asks : task.AsksFor index) : task.Marks index := by
  obtain ⟨start, below⟩ := (asksFor_iff positive index).mp asks
  have cutShort := Nat.mod_le (task.stop.toNat - task.start.toNat) (2 ^ 32)
  rw [UInt64.lt_iff_toNat_lt] at positive
  exact (marks_iff index).mpr ⟨start, by omega⟩

theorem Asked.asksFor_iff_contains {readAheadSize : UInt64} {ahead : ReadAhead api}
    (asked : ahead.Asked readAheadSize) (word : readAheadSize.toNat < 2 ^ 32) (index : UInt64) :
    (∃ task ∈ ahead.pushed, task.AsksFor index) ↔ api.Contains ahead.cachedRanges index := by
  rw [asked.marked]
  refine exists_congr fun task => and_congr_right fun listed => ?_
  obtain ⟨positive, within⟩ := asked.within task listed
  rw [asksFor_iff positive, marks_iff, Nat.mod_eq_of_lt (by omega)]
  rw [UInt64.lt_iff_toNat_lt] at positive
  rw [Nat.add_sub_cancel' positive.le]

/-- No byte is read ahead twice, whatever is read in whichever order: the tasks ask for parts of
the file that do not overlap, each at most as long as the part to be read ahead, and what is
marked as read is what they ask for if that length is a word of a read. -/
theorem read_ahead_once (lawful : api.Lawful) (readAheadSize : UInt64) {ahead : ReadAhead api}
    (run : Run (Step readAheadSize) (fun _ _ => True) new ahead) :
    (ahead.pushed.Pairwise fun task later => ∀ index, task.AsksFor index → ¬ later.AsksFor index) ∧
      (∀ task ∈ ahead.pushed, task.size.toNat ≤ readAheadSize.toNat) ∧
      (readAheadSize.toNat < 2 ^ 32 → ∀ index, (∃ task ∈ ahead.pushed, task.AsksFor index) ↔
        api.Contains ahead.cachedRanges index) := by
  have preserved : ∀ (before : ReadAhead api) read after, before.Asked readAheadSize →
      before.Step readAheadSize read after → True → after.Asked readAheadSize := by
    intro before read after asked taken _
    exact asked_step lawful asked taken
  have asked := Run.invariant (Asked readAheadSize) preserved (asked_new lawful readAheadSize) run
  refine ⟨?_, ?_, fun word index => asked.asksFor_iff_contains word index⟩
  · refine List.Pairwise.imp_of_mem ?_ asked.apart
    intro task later listed laterListed apart index asks laterAsks
    have marks := marks_of_asksFor (asked.within task listed).1 asks
    exact apart index marks (marks_of_asksFor (asked.within later laterListed).1 laterAsks)
  · intro task listed
    obtain ⟨positive, within⟩ := asked.within task listed
    rw [AheadTask.size, UInt64.toNat_toUInt32, UInt64.toNat_sub_of_le _ _ (UInt64.le_of_lt positive)]
    have cutShort := Nat.mod_le (task.stop.toNat - task.start.toNat) (2 ^ 32)
    omega

def spanSets : DataRangeSetApi where
  RangeSet2 := RangeSet UInt64
  empty := RangeSet.empty
  fromRange := RangeSet.ofRange
  unionWith := RangeSet.union
  difference := RangeSet.difference
  iter set := set.spans.map RangeSetRange.ofSpan

theorem contains_spanSets (set : RangeSet UInt64) (index : UInt64) :
    spanSets.Contains set index ↔ index ∈ set := covers_ofSpan set.spans index

theorem spanSets_lawful : spanSets.Lawful where
  empty index := (contains_spanSets _ _).not.mpr (RangeSet.not_mem_empty index)
  fromRange start stop index := (contains_spanSets _ _).trans (RangeSet.mem_ofRange start stop index)
  unionWith left right index :=
    calc spanSets.Contains (spanSets.unionWith left right) index
      _ ↔ index ∈ RangeSet.union left right := contains_spanSets _ index
      _ ↔ spanSets.Contains left index ∨ spanSets.Contains right index :=
        (RangeSet.mem_union left right index).trans
          (or_congr (contains_spanSets left index) (contains_spanSets right index)).symm
  difference left right index :=
    calc spanSets.Contains (spanSets.difference left right) index
      _ ↔ index ∈ RangeSet.difference left right := contains_spanSets _ index
      _ ↔ spanSets.Contains left index ∧ ¬ spanSets.Contains right index :=
        (RangeSet.mem_difference left right index).trans
          (and_congr (contains_spanSets left index) (contains_spanSets right index).not).symm
  ascending set := List.pairwise_map.mpr set.separated
  nonempty set := by
    intro range listed
    obtain ⟨span, _, rfl⟩ := List.mem_map.mp listed
    exact span.positive

theorem exists_run (readAheadSize : UInt64) (allowed : ReadAhead spanSets → AnsweredRead → Prop)
    [∀ ahead read, Decidable (allowed ahead read)] (reads : List AnsweredRead)
    (check : ReadAhead spanSets → Bool)
    (ran : (runAll (restrict allowed (readKindRegular readAheadSize)) new reads).any check = true) :
    ∃ ahead, Run (Step readAheadSize) allowed new ahead ∧ check ahead = true :=
  Run.of_restrict (fun _ _ _ taken => taken) reads check ran

/-- Reads here and there in a file: the third one is left with the hole between the others, and
the last one finds too little missing. -/
theorem read_ahead_once_jumps :
    ∃ ahead : ReadAhead spanSets, Run (Step 8) (fun _ _ => True) new ahead ∧
      ahead.pushed = [⟨4, 12⟩, ⟨18, 26⟩, ⟨12, 18⟩] ∧
      (∃ task ∈ ahead.pushed, task.AsksFor 17) ∧ spanSets.Contains ahead.cachedRanges 17 := by
  obtain ⟨ahead, run, checked⟩ := exists_run 8 (fun _ _ => True)
    [⟨0, 4, 4⟩, ⟨0, 4, 3⟩, ⟨10, 8, 8⟩, ⟨7, 4, 4⟩, ⟨16, 4, 4⟩]
    (fun ahead => ahead.pushed = [⟨4, 12⟩, ⟨18, 26⟩, ⟨12, 18⟩]) (by decide +kernel)
  have pushed := of_decide_eq_true checked
  have asked : ∃ task ∈ ahead.pushed, task.AsksFor 17 := by
    rw [pushed]
    exact ⟨⟨12, 18⟩, by decide, by decide, by decide⟩
  exact ⟨ahead, run, pushed, asked, ((read_ahead_once spanSets_lawful 8 run).2.2 (by decide) 17).mp asked⟩

def Forward (ahead : ReadAhead api) (read : AnsweredRead) : Prop :=
  read.length = read.size.toNat → ahead.position.toNat ≤ read.start.toNat + read.size.toNat

instance (ahead : ReadAhead api) (read : AnsweredRead) : Decidable (ahead.Forward read) :=
  inferInstanceAs (Decidable (_ → _))

def Leads (ahead : ReadAhead api) (front : UInt64) : Prop :=
  ∀ index, ahead.position ≤ index → (api.Contains ahead.cachedRanges index ↔ index < front)

/-- The part is at least half as long as the part to be read ahead, and no longer than it. -/
structure Ahead (readAheadSize : UInt64) (ahead : ReadAhead api) (front : UInt64) : Prop where
  leads : ahead.Leads front
  enough : ahead.position.toNat + (readAheadSize.toNat - readAheadSize.toNat / 2) ≤ front.toNat
  notMore : front.toNat ≤ ahead.position.toNat + readAheadSize.toNat

theorem missing_singleton (span : Span UInt64) : missing [span] = span.stop - span.start := by
  simp only [missing, List.map_cons, List.map_nil, List.foldl_cons, List.foldl_nil, UInt64.zero_add]
  rfl

/-- What a forward reader finds missing is one range, from the end of the marked part on. -/
theorem Looks.missing_part {readAheadSize : UInt64} {before : ReadAhead api} {read : AnsweredRead}
    {target stop : UInt64}
    {spans : List (Span UInt64)} (looks : Looks readAheadSize before read target stop spans) {front : UInt64}
    (leads : ∀ index, target ≤ index → (api.Contains before.cachedRanges index ↔ index < front)) :
    if positive : max target front < stop then spans = [⟨max target front, stop, positive⟩] else spans = [] := by
  have covers : ∀ index, Covers spans index ↔ max target front ≤ index ∧ index < stop := by
    intro index
    rw [looks.covers, max_le_iff]
    constructor
    · rintro ⟨⟨late, early⟩, unmarked⟩
      exact ⟨⟨late, not_lt.mp fun below => unmarked ((leads index late).mpr below)⟩, early⟩
    · rintro ⟨⟨late, behind⟩, early⟩
      exact ⟨⟨late, early⟩, fun marked => absurd ((leads index late).mp marked) behind.not_gt⟩
  have isSet : (⟨spans, looks.separated⟩ : RangeSet UInt64) = RangeSet.ofRange (max target front) stop := by
    ext index
    rw [RangeSet.mem_ofRange]
    exact covers index
  have isSpans : spans = (RangeSet.ofRange (max target front) stop).spans := congrArg RangeSet.spans isSet
  split
  · next positive => rw [isSpans, RangeSet.ofRange, dif_pos positive]
  · next empty =>
      rw [isSpans, RangeSet.ofRange, dif_neg empty]
      rfl

theorem half_lt {size : UInt64} (positive : 0 < size) : size / 2 < size := by
  rw [UInt64.lt_iff_toNat_lt] at positive ⊢
  rw [UInt64.toNat_div]
  change 0 < size.toNat at positive
  change size.toNat / 2 < _
  omega

/-- A read that asks for nothing new has enough marked in front of it. -/
theorem ahead_enough {readAheadSize : UInt64} {before : ReadAhead api} {read : AnsweredRead}
    {target stop : UInt64}
    {spans : List (Span UInt64)} (looks : Looks readAheadSize before read target stop spans) {front : UInt64}
    (leads : ∀ index, target ≤ index → (api.Contains before.cachedRanges index ↔ index < front))
    (notMore : front.toNat ≤ stop.toNat) (little : missing spans ≤ readAheadSize / 2) :
    Ahead readAheadSize { before with position := target } front where
  leads := leads
  enough := by
    change target.toNat + _ ≤ _
    have isStop := looks.isStop
    have part := looks.missing_part leads
    split at part
    · next positive =>
        rw [part, missing_singleton, UInt64.le_iff_toNat_le,
          UInt64.toNat_sub_of_le _ _ (UInt64.le_of_lt positive), UInt64.toNat_div] at little
        change stop.toNat - (max target front).toNat ≤ readAheadSize.toNat / 2 at little
        have enabled := half_lt looks.enabled
        rw [UInt64.lt_iff_toNat_lt, UInt64.toNat_div] at enabled
        change readAheadSize.toNat / 2 < _ at enabled
        rcases le_total target front with behind | inFront
        · rw [max_eq_right behind] at little
          omega
        · rw [max_eq_left inFront] at little
          omega
    · next empty =>
        have enabled := looks.enabled
        rw [UInt64.lt_iff_toNat_lt] at enabled
        change 0 < readAheadSize.toNat at enabled
        rw [UInt64.lt_iff_toNat_lt, not_lt] at empty
        rcases le_total target front with behind | inFront
        · rw [max_eq_right behind] at empty
          omega
        · rw [max_eq_left inFront] at empty
          omega
  notMore := by
    rw [← looks.isStop]
    exact notMore

theorem ahead_asks (lawful : api.Lawful) {readAheadSize : UInt64} {before : ReadAhead api} {read : AnsweredRead}
    {target stop : UInt64} {first : Span UInt64} {rest : List (Span UInt64)}
    (looks : Looks readAheadSize before read target stop (first :: rest)) {front : UInt64}
    (leads : ∀ index, target ≤ index → (api.Contains before.cachedRanges index ↔ index < front))
    (notMore : front.toNat ≤ stop.toNat) :
    Ahead readAheadSize
      ⟨api.unionWith before.cachedRanges (api.fromRange first.start first.stop),
        before.pushed ++ [taskOf first], target⟩
      stop := by
  have part := looks.missing_part leads
  split at part
  · next positive =>
      obtain ⟨rfl, _⟩ := List.cons.inj part
      have isStop := looks.isStop
      refine ⟨?_, ?_, isStop.le⟩
      · intro index late
        simp only [lawful.unionWith, lawful.fromRange, leads index late, max_le_iff]
        constructor
        · rintro (marked | ⟨_, inside⟩)
          · exact marked.trans_le (UInt64.le_iff_toNat_le.mpr notMore)
          · exact inside
        · intro inside
          rcases lt_or_ge index front with marked | behind
          · exact Or.inl marked
          · exact Or.inr ⟨⟨late, behind⟩, inside⟩
      · change target.toNat + _ ≤ _
        omega
  · cases part

def Prepared (readAheadSize : UInt64) (ahead : ReadAhead api) : Prop :=
  ahead.pushed = [] ∨ ∃ front, Ahead readAheadSize ahead front

theorem Looks.exists_front {readAheadSize : UInt64} {before : ReadAhead api} {read : AnsweredRead}
    {target stop : UInt64} {spans : List (Span UInt64)}
    (looks : Looks readAheadSize before read target stop spans)
    (asked : before.Asked readAheadSize) (prepared : before.Prepared readAheadSize)
    (forward : before.Forward read) :
    ∃ front : UInt64, (∀ index, target ≤ index → (api.Contains before.cachedRanges index ↔ index < front)) ∧
      front.toNat ≤ stop.toNat := by
  have isStop := looks.isStop
  rcases prepared with none | ⟨front, leads, _, notMore⟩
  · refine ⟨target, ?_, by omega⟩
    intro index late
    refine iff_of_false ?_ (not_lt.mpr late)
    rw [asked.marked, none]
    rintro ⟨task, listed, _⟩
    cases listed
  · have later : before.position ≤ target := by
      rw [UInt64.le_iff_toNat_le, looks.isTarget]
      exact forward looks.full
    refine ⟨front, fun index late => leads index (later.trans late), ?_⟩
    rw [UInt64.le_iff_toNat_le] at later
    omega

theorem prepared_step (lawful : api.Lawful) {readAheadSize : UInt64} {before after : ReadAhead api}
    {read : AnsweredRead} (asked : before.Asked readAheadSize) (prepared : before.Prepared readAheadSize)
    (taken : before.Step readAheadSize read after) (forward : before.Forward read) :
    after.Prepared readAheadSize := by
  cases effect_of_step lawful taken with
  | unchanged short => exact prepared
  | enough target stop spans looks little =>
      obtain ⟨front, leads, notMore⟩ := looks.exists_front asked prepared forward
      exact Or.inr ⟨front, ahead_enough looks leads notMore little⟩
  | asks target stop first rest looks much =>
      obtain ⟨front, leads, notMore⟩ := looks.exists_front asked prepared forward
      exact Or.inr ⟨stop, ahead_asks lawful looks leads notMore⟩

/-- In front of a reader that goes forward, at least half of the part to be read ahead is always
asked for, and nothing behind that part. -/
theorem forward_reader_ahead (lawful : api.Lawful) (readAheadSize : UInt64)
    (word : readAheadSize.toNat < 2 ^ 32)
    {ahead : ReadAhead api} (run : Run (Step readAheadSize) Forward new ahead) (begun : ahead.pushed ≠ []) :
    (∀ index : UInt64, ahead.position ≤ index →
      index.toNat < ahead.position.toNat + (readAheadSize.toNat - readAheadSize.toNat / 2) →
        ∃ task ∈ ahead.pushed, task.AsksFor index) ∧
      ∀ index : UInt64, ahead.position.toNat + readAheadSize.toNat ≤ index.toNat →
        ¬ ∃ task ∈ ahead.pushed, task.AsksFor index := by
  have preserved : ∀ (before : ReadAhead api) read after,
      (before.Asked readAheadSize ∧ before.Prepared readAheadSize) → before.Step readAheadSize read after →
        before.Forward read → after.Asked readAheadSize ∧ after.Prepared readAheadSize := by
    intro before read after holds taken forward
    exact ⟨asked_step lawful holds.1 taken, prepared_step lawful holds.1 holds.2 taken forward⟩
  have start : (new : ReadAhead api).Asked readAheadSize ∧ (new : ReadAhead api).Prepared readAheadSize :=
    ⟨asked_new lawful readAheadSize, Or.inl rfl⟩
  have holds := Run.invariant (fun ahead => Asked readAheadSize ahead ∧ Prepared readAheadSize ahead)
    preserved start run
  obtain ⟨front, leads, enough, notMore⟩ := holds.2.resolve_left begun
  have asksFor := holds.1.asksFor_iff_contains word
  constructor
  · intro index late inside
    refine (asksFor index).mpr ((leads index late).mpr ?_)
    rw [UInt64.lt_iff_toNat_lt]
    omega
  · intro index behind asked
    have late : ahead.position ≤ index := by
      rw [UInt64.le_iff_toNat_le]
      omega
    have marked := (leads index late).mp ((asksFor index).mp asked)
    rw [UInt64.lt_iff_toNat_lt] at marked
    omega

/-- A file read in steps of four bytes. -/
theorem forward_reader_ahead_steps :
    ∃ ahead : ReadAhead spanSets, Run (Step 8) Forward new ahead ∧ ahead.position = 12 ∧
      ∃ task ∈ ahead.pushed, task.AsksFor 15 := by
  obtain ⟨ahead, run, checked⟩ := exists_run 8 Forward [⟨0, 4, 4⟩, ⟨4, 4, 4⟩, ⟨8, 4, 4⟩]
    (fun ahead => ahead.position = 12 ∧ ahead.pushed ≠ []) (by decide +kernel)
  obtain ⟨position, begun⟩ := of_decide_eq_true checked
  have enough := (forward_reader_ahead spanSets_lawful 8 (by decide) run begun).1 15
  rw [position] at enough
  exact ⟨ahead, run, position, enough (by decide) (by decide)⟩

end ReadAhead

end TiFs
