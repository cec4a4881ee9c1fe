import Mathlib.Data.Fintype.Order
import Mathlib.Order.WellFounded
import TiFs.Library.WaitingRoom

/-! Szymanski's algorithm does not stop: whoever waits waits for somebody who can move.
It is fair as well: who is in the door is overtaken by each other participant at most once. -/

namespace WaitingRoom

namespace Location

/-- The participant has seen that another one follows, and waits for it to close the door. -/
def isYielding : Location → Bool
  | .yielding => true
  | .waiting => true
  | _ => false

/-- The participant shows a flag and does not wait for another one to close the door. -/
def isAttending : Location → Bool
  | .outside => false
  | .announcing => false
  | .yielding => false
  | .waiting => false
  | _ => true

/-- The participant is in the door or behind it and has not entered. -/
def isCrossing : Location → Bool
  | .doorway => true
  | .yielding => true
  | .waiting => true
  | .called => true
  | .closing => true
  | .queued => true
  | _ => false

theorem flag_of_isYielding {location : Location} (yields : location.isYielding = true) :
    location.flag = 2 ∨ location.flag = 3 := by
  cases location with
  | yielding => exact Or.inr rfl
  | waiting => exact Or.inl rfl
  | _ => cases yields

theorem isAttending_of_flag {location : Location} (one : location.flag = 1) : location.isAttending = true := by
  cases location with
  | beforeDoor => rfl
  | opening => rfl
  | _ => cases one

theorem flag_of_isCrossing {location : Location} (crossing : location.isCrossing = true) : 2 ≤ location.flag := by
  cases location with
  | doorway => decide
  | yielding => decide
  | waiting => decide
  | called => decide
  | closing => decide
  | queued => decide
  | _ => cases crossing

theorem queued_of_flag {location : Location} (crossing : location.isCrossing = true)
    (isFour : location.flag = 4) : location = .queued := by
  cases location with
  | queued => rfl
  | doorway => cases isFour
  | yielding => cases isFour
  | waiting => cases isFour
  | called => cases isFour
  | closing => cases isFour
  | _ => cases crossing

end Location

open Location

variable {Id : Type} [LinearOrder Id] {place : Id → Location}

/-- Whoever waits in the waiting room can count on somebody. -/
def Attended (place : Id → Location) : Prop :=
  ∀ i, (place i).isYielding = true → ∃ k, (place k).isAttending = true

omit [LinearOrder Id] in
theorem attended_outside : Attended fun _ : Id => Location.outside := by
  intro i yields
  cases yields

theorem Move.attending {i : Id} {source target : Location} (move : Move place i source target)
    (attends : source.isAttending = true) :
    target.isAttending = true ∨ source = .departing ∨ ∃ j, j ≠ i ∧ (place j).flag = 1 := by
  cases move with
  | seeOther another => exact Or.inr (Or.inr another)
  | lower => exact Or.inr (Or.inl rfl)
  | announce => cases attends
  | raise => cases attends
  | stepBack => cases attends
  | seeCall another => cases attends
  | _ => exact Or.inl rfl

/-- Only a participant in the door goes to the waiting room, and it has seen another one. -/
theorem Move.yielding {i : Id} {source target : Location} (move : Move place i source target)
    (yields : target.isYielding = true) :
    source.isYielding = true ∨ ∃ j, j ≠ i ∧ (place j).flag = 1 := by
  cases move with
  | seeOther another => exact Or.inr another
  | stepBack => exact Or.inl rfl
  | _ => cases yields

theorem Invariant.not_yielding (holds : Invariant place) {i : Id} (departs : place i = .departing) (j : Id) :
    (place j).isYielding = false := by
  by_contra yields
  have flags := flag_of_isYielding (Bool.not_eq_false _ ▸ yields)
  rcases lt_trichotomy j i with below | same | above
  · have low := holds.first i (by rw [departs]; rfl) j below
    omega
  · rw [same, departs] at flags
    exact absurd flags (by decide)
  · have settled := holds.settled i departs j above
    omega

theorem Attended.step {before after : Id → Location} (attended : Attended before) (holds : Invariant before)
    (taken : Step before after) : Attended after := by
  obtain ⟨i, target, move, rfl⟩ := taken
  intro a yields
  -- Somebody whom the move leaves where it attends.
  have elsewhere : ∀ k, k ≠ i → (before k).isAttending = true →
      ∃ k, (Function.update before i target k).isAttending = true := by
    intro k other attends
    exact ⟨k, by rw [Function.update_of_ne other]; exact attends⟩
  have follower : (∃ j, j ≠ i ∧ (before j).flag = 1) →
      ∃ k, (Function.update before i target k).isAttending = true := by
    rintro ⟨j, other, one⟩
    exact elsewhere j other (isAttending_of_flag one)
  have waited : (∃ j, j ≠ i ∧ (before j).flag = 1) ∨ (before a).isYielding = true := by
    by_cases moved : a = i
    · subst moved
      rw [Function.update_self] at yields
      exact (move.yielding yields).symm
    · rw [Function.update_of_ne moved] at yields
      exact Or.inr yields
  rcases waited with another | earlier
  · exact follower another
  obtain ⟨k, attends⟩ := attended a earlier
  by_cases moved : k = i
  · subst moved
    rcases move.attending attends with still | departs | another
    · exact ⟨k, by rw [Function.update_self]; exact still⟩
    · have nobody := holds.not_yielding departs a
      rw [earlier] at nobody
      cases nobody
    · exact follower another
  · exact elsewhere k moved attends

def Blocked (place : Id → Location) (i : Id) : Prop := ∀ target, ¬ Move place i (place i) target

theorem Blocked.cases {i : Id} (blocked : Blocked place i) :
    (place i = .beforeDoor ∧ ∃ j, j ≠ i ∧ 2 < (place j).flag) ∨
      (place i = .waiting ∧ ∀ j, j ≠ i → (place j).flag ≠ 4) ∨
      (place i = .queued ∧ ∃ j, j < i ∧ 1 < (place j).flag) ∨
      (place i = .leaving ∧ ∃ j, i < j ∧ 1 < (place j).flag ∧ (place j).flag ≠ 4) := by
  unfold Blocked at blocked
  cases isPlace : place i with
  | outside => exact absurd .announce (isPlace ▸ blocked .announcing)
  | announcing => exact absurd .raise (isPlace ▸ blocked .beforeDoor)
  | opening => exact absurd .stepIn (isPlace ▸ blocked .doorway)
  | yielding => exact absurd .stepBack (isPlace ▸ blocked .waiting)
  | called => exact absurd .answer (isPlace ▸ blocked .queued)
  | closing => exact absurd .close (isPlace ▸ blocked .queued)
  | inside => exact absurd .leave (isPlace ▸ blocked .leaving)
  | departing => exact absurd .lower (isPlace ▸ blocked .outside)
  | doorway =>
      rw [isPlace] at blocked
      by_cases another : ∃ j, j ≠ i ∧ (place j).flag = 1
      · exact absurd (.seeOther another) (blocked .yielding)
      · refine absurd (.seeNone ?_) (blocked .closing)
        intro j other one
        exact another ⟨j, other, one⟩
  | beforeDoor =>
      rw [isPlace] at blocked
      refine Or.inl ⟨rfl, ?_⟩
      by_contra allOut
      push Not at allOut
      exact blocked .opening (.seeOpen allOut)
  | waiting =>
      rw [isPlace] at blocked
      refine Or.inr (Or.inl ⟨rfl, ?_⟩)
      intro j other isFour
      exact blocked .called (.seeCall ⟨j, other, isFour⟩)
  | queued =>
      rw [isPlace] at blocked
      refine Or.inr (Or.inr (Or.inl ⟨rfl, ?_⟩))
      by_contra lowerOut
      push Not at lowerOut
      exact blocked .inside (.enter lowerOut)
  | leaving =>
      rw [isPlace] at blocked
      refine Or.inr (Or.inr (Or.inr ⟨rfl, ?_⟩))
      by_contra higherSettled
      push Not at higherSettled
      refine blocked .departing (.seeSettled ?_)
      intro j above
      by_cases low : (place j).flag ≤ 1
      · exact Or.inl low
      · exact Or.inr (higherSettled j above (by omega))

def Stalled (place : Id → Location) : Prop := ∀ i, place i ≠ .outside → Blocked place i

theorem Stalled.settled (stalled : Stalled place) {i : Id} (isFour : (place i).flag = 4) (j : Id) :
    (place j).flag ≤ 1 ∨ (place j).flag = 4 := by
  by_cases isOn : place j = .outside
  · exact Or.inl (by rw [isOn]; decide)
  rcases (stalled j isOn).cases with ⟨isPlace, _⟩ | ⟨isPlace, nobody⟩ | ⟨isPlace, _⟩ | ⟨isPlace, _⟩
  · exact Or.inl (by rw [isPlace]; decide)
  · have different : i ≠ j := by
      rintro rfl
      rw [isPlace] at isFour
      cases isFour
    exact absurd isFour (nobody i different)
  · exact Or.inr (by rw [isPlace]; rfl)
  · exact Or.inr (by rw [isPlace]; rfl)

theorem Stalled.flag_ne_four [WellFoundedLT Id] (stalled : Stalled place) (i : Id) : (place i).flag ≠ 4 := by
  intro isFour
  obtain ⟨least, isLeast, lower⟩ := wellFounded_lt.has_min (fun j => (place j).flag = 4) ⟨i, isFour⟩
  have behind : (place least).flag = 4 := isLeast
  have isOn : place least ≠ .outside := by
    intro isOutside
    rw [isOutside] at behind
    cases behind
  rcases (stalled least isOn).cases with ⟨isPlace, _⟩ | ⟨isPlace, _⟩ | ⟨_, j, below, high⟩ | ⟨_, j, _, high, notFour⟩
  · rw [isPlace] at behind
    cases behind
  · rw [isPlace] at behind
    cases behind
  · rcases stalled.settled isFour j with low | four
    · omega
    · exact lower j four below
  · rcases stalled.settled isFour j with low | four
    · omega
    · exact notFour four

theorem Stalled.flag_le_two [WellFoundedLT Id] (stalled : Stalled place) (i : Id) : (place i).flag ≤ 2 := by
  by_cases isOn : place i = .outside
  · rw [isOn]
    decide
  rcases (stalled i isOn).cases with ⟨isPlace, _⟩ | ⟨isPlace, _⟩ | ⟨isPlace, _⟩ | ⟨isPlace, _⟩
  · rw [isPlace]
    decide
  · rw [isPlace]
    decide
  · exact absurd (by rw [isPlace]; rfl) (stalled.flag_ne_four i)
  · exact absurd (by rw [isPlace]; rfl) (stalled.flag_ne_four i)

theorem Stalled.waiting [WellFoundedLT Id] (stalled : Stalled place) {i : Id} (isOn : place i ≠ .outside) :
    place i = .waiting := by
  rcases (stalled i isOn).cases with ⟨_, j, _, high⟩ | ⟨isPlace, _⟩ | ⟨isPlace, _⟩ | ⟨isPlace, _⟩
  · have low := stalled.flag_le_two j
    omega
  · exact isPlace
  · exact absurd (by rw [isPlace]; rfl) (stalled.flag_ne_four i)
  · exact absurd (by rw [isPlace]; rfl) (stalled.flag_ne_four i)

/-- Unless everybody is outside, somebody who is not can move. -/
theorem Attended.progress [WellFoundedLT Id] (attended : Attended place) {a : Id} (onWay : place a ≠ .outside) :
    ∃ i target, place i ≠ .outside ∧ Move place i (place i) target := by
  by_contra stuck
  have stalled : Stalled place := by
    intro i isOn target move
    exact stuck ⟨i, target, isOn, move⟩
  obtain ⟨k, attends⟩ := attended a (by rw [stalled.waiting onWay]; rfl)
  by_cases isOn : place k = .outside
  · rw [isOn] at attends
    cases attends
  · rw [stalled.waiting isOn] at attends
    cases attends

/-- `other` has entered this often since `me` came into the door, and where that leaves both. -/
structure Overtaken (me other : Id) (place : Id → Location) (times : Nat) : Prop where
  crossing : (place me).isCrossing = true
  once : times = 0 ∨ times = 1 ∧ other < me ∧ (place other = .inside ∨ place other = .leaving ∨
    place me = .queued ∧ (place other = .departing ∨ place other = .outside ∨ place other = .announcing ∨
      place other = .beforeDoor))

theorem Overtaken.start {me other : Id} (crossing : (place me).isCrossing = true) : Overtaken me other place 0 :=
  ⟨crossing, Or.inl rfl⟩

/-- The only way in is from behind the door, past nobody with a lower identity. -/
theorem Move.entering {i : Id} {source target : Location} (move : Move place i source target)
    (wasOut : source.isIn = false) (isIn : target.isIn = true) :
    source = .queued ∧ target = .inside ∧ ∀ j, j < i → (place j).flag ≤ 1 := by
  cases move with
  | enter lowerOut => exact ⟨rfl, rfl, lowerOut⟩
  | leave => cases wasOut
  | seeSettled higherSettled => cases wasOut
  | _ => cases isIn

theorem Overtaken.overtake {me other : Id} (different : me ≠ other) (crossing : (place me).isCrossing = true)
    (lowerOut : ∀ j, j < other → (place j).flag ≤ 1) : other < me := by
  have high := flag_of_isCrossing crossing
  rcases lt_or_gt_of_ne different with below | above
  · have low := lowerOut me below
    omega
  · exact above

/-- Who has overtaken leaves only after `me` has left the waiting room, and then finds the door closed. -/
theorem Overtaken.step_other {me other : Id} (different : me ≠ other) {times : Nat} {target : Location}
    (overtaken : Overtaken me other place times) (move : Move place other (place other) target) :
    Overtaken me other (Function.update place other target)
      (times + if (place other).isIn = false ∧ target.isIn = true then 1 else 0) := by
  have crossing := overtaken.crossing
  have high := flag_of_isCrossing crossing
  have same : Function.update place other target me = place me := Function.update_of_ne different ..
  refine ⟨by rw [same]; exact crossing, ?_⟩
  rw [same, Function.update_self]
  rcases overtaken.once with rfl | ⟨rfl, below, stands⟩
  · by_cases enters : (place other).isIn = false ∧ target.isIn = true
    · obtain ⟨_, isInside, lowerOut⟩ := move.entering enters.1 enters.2
      rw [if_pos enters]
      exact Or.inr ⟨rfl, overtake different crossing lowerOut, Or.inl isInside⟩
    · rw [if_neg enters]
      exact Or.inl rfl
  · have again : ¬ ((place other).isIn = false ∧ target.isIn = true) := by
      rintro ⟨wasOut, isIn⟩
      have queued := (move.entering wasOut isIn).1
      rw [queued] at stands
      rcases stands with inside | leaving | ⟨_, departing | outside | announcing | beforeDoor⟩
      · cases inside
      · cases leaving
      · cases departing
      · cases outside
      · cases announcing
      · cases beforeDoor
    rw [if_neg again]
    refine Or.inr ⟨rfl, below, ?_⟩
    rcases stands with isPlace | isPlace | ⟨queued, isPlace | isPlace | isPlace | isPlace⟩
    · rw [isPlace] at move
      cases move with
      | leave => exact Or.inr (Or.inl rfl)
    · rw [isPlace] at move
      cases move with
      | seeSettled higherSettled =>
          rcases higherSettled me below with low | isFour
          · omega
          · exact Or.inr (Or.inr ⟨queued_of_flag crossing isFour, Or.inl rfl⟩)
    · rw [isPlace] at move
      cases move with
      | lower => exact Or.inr (Or.inr ⟨queued, Or.inr (Or.inl rfl)⟩)
    · rw [isPlace] at move
      cases move with
      | announce => exact Or.inr (Or.inr ⟨queued, Or.inr (Or.inr (Or.inl rfl))⟩)
    · rw [isPlace] at move
      cases move with
      | raise => exact Or.inr (Or.inr ⟨queued, Or.inr (Or.inr (Or.inr rfl))⟩)
    · rw [isPlace] at move
      cases move with
      | seeOpen allOut =>
          have low := allOut me different
          rw [queued] at low
          exact absurd low (by decide)

theorem Overtaken.step {me other : Id} (different : me ≠ other) {before after : Id → Location} {times : Nat}
    (overtaken : Overtaken me other before times) (taken : Step before after)
    (crossing : (after me).isCrossing = true) :
    Overtaken me other after
      (times + if (before other).isIn = false ∧ (after other).isIn = true then 1 else 0) := by
  obtain ⟨i, target, move, rfl⟩ := taken
  by_cases isOther : i = other
  · subst isOther
    rw [Function.update_self]
    exact overtaken.step_other different move
  have same : Function.update before i target other = before other :=
    Function.update_of_ne (Ne.symm isOther) ..
  have nobody : ¬ ((before other).isIn = false ∧ (before other).isIn = true) := by
    rintro ⟨isOut, isIn⟩
    rw [isOut] at isIn
    cases isIn
  rw [same, if_neg nobody, Nat.add_zero]
  refine ⟨crossing, ?_⟩
  rw [same]
  rcases overtaken.once with none | ⟨once, below, stands⟩
  · exact Or.inl none
  refine Or.inr ⟨once, below, ?_⟩
  rcases stands with inside | leaving | ⟨queued, stands⟩
  · exact Or.inl inside
  · exact Or.inr (Or.inl leaving)
  refine Or.inr (Or.inr ⟨?_, stands⟩)
  by_cases isMe : i = me
  · subst isMe
    rw [queued] at move
    rw [Function.update_self] at crossing
    cases move with
    | enter lowerOut => cases crossing
  · rw [Function.update_of_ne (Ne.symm isMe)]
    exact queued

end WaitingRoom
