import Mathlib.Logic.Function.Basic
import Mathlib.Order.Lattice

/-! Szymanski's mutual exclusion: participants of any number show one of five
flags, pass a waiting room together once its door is closed, and enter one after
the other in the order of their identities. Every read of all flags is one step. -/

namespace WaitingRoom

/-- Where a participant stands in the algorithm, and what it has seen there. -/
inductive Location where
  | outside
  | announcing
  | beforeDoor
  | opening
  | doorway
  | yielding
  | waiting
  | called
  | closing
  | queued
  | inside
  | leaving
  | departing
  deriving DecidableEq, Repr

namespace Location

def flag : Location → Nat
  | .outside => 0
  | .announcing => 0
  | .beforeDoor => 1
  | .opening => 1
  | .doorway => 3
  | .yielding => 3
  | .waiting => 2
  | .called => 2
  | .closing => 3
  | .queued => 4
  | .inside => 4
  | .leaving => 4
  | .departing => 4

/-- The participant has closed the door behind it, or is about to. -/
def isPast : Location → Bool
  | .closing => true
  | .queued => true
  | .inside => true
  | .leaving => true
  | .departing => true
  | _ => false

def isIn : Location → Bool
  | .inside => true
  | .leaving => true
  | .departing => true
  | _ => false

theorem flag_of_isPast {location : Location} (past : location.isPast = true) : 3 ≤ location.flag := by
  cases location with
  | closing => decide
  | queued => decide
  | inside => decide
  | leaving => decide
  | departing => decide
  | _ => cases past

theorem isPast_of_flag {location : Location} (isFour : location.flag = 4) : location.isPast = true := by
  cases location with
  | queued => rfl
  | inside => rfl
  | leaving => rfl
  | departing => rfl
  | _ => cases isFour

theorem isPast_of_isIn {location : Location} (isIn : location.isIn = true) : location.isPast = true := by
  cases location with
  | inside => rfl
  | leaving => rfl
  | departing => rfl
  | _ => cases isIn

theorem flag_of_isIn {location : Location} (isIn : location.isIn = true) : location.flag = 4 := by
  cases location with
  | inside => rfl
  | leaving => rfl
  | departing => rfl
  | _ => cases isIn

end Location

open Location

variable {Id : Type} [LinearOrder Id]

/-- What participant `i` may do next. -/
inductive Move (place : Id → Location) (i : Id) : Location → Location → Prop
  | announce : Move place i .outside .announcing
  | raise : Move place i .announcing .beforeDoor
  | seeOpen (allOut : ∀ j, j ≠ i → (place j).flag ≤ 2) : Move place i .beforeDoor .opening
  | stepIn : Move place i .opening .doorway
  | seeOther (another : ∃ j, j ≠ i ∧ (place j).flag = 1) : Move place i .doorway .yielding
  | seeNone (nobody : ∀ j, j ≠ i → (place j).flag ≠ 1) : Move place i .doorway .closing
  | stepBack : Move place i .yielding .waiting
  | seeCall (another : ∃ j, j ≠ i ∧ (place j).flag = 4) : Move place i .waiting .called
  | answer : Move place i .called .queued
  | close : Move place i .closing .queued
  | enter (lowerOut : ∀ j, j < i → (place j).flag ≤ 1) : Move place i .queued .inside
  | leave : Move place i .inside .leaving
  | seeSettled (higherSettled : ∀ j, i < j → (place j).flag ≤ 1 ∨ (place j).flag = 4) :
      Move place i .leaving .departing
  | lower : Move place i .departing .outside

def Step (before after : Id → Location) : Prop :=
  ∃ i location, Move before i (before i) location ∧ after = Function.update before i location

/-- While somebody is past the door nobody opens it, whoever is called has somebody
to follow, and those with lower identities are gone when one is in. -/
structure Invariant (place : Id → Location) : Prop where
  closed : ∀ i j, (place i).isPast = true → place j ≠ .opening
  called : ∀ i, place i = .called → ∃ k, (place k).flag = 4
  first : ∀ i, (place i).isIn = true → ∀ j, j < i → (place j).flag ≤ 1
  settled : ∀ i, place i = .departing → ∀ j, i < j → (place j).flag ≤ 1 ∨ (place j).flag = 4

theorem invariant_outside : Invariant fun _ : Id => Location.outside := by
  constructor
  · intro i j past
    cases past
  · intro i isCalled
    cases isCalled
  · intro i isIn
    cases isIn
  · intro i isDeparting
    cases isDeparting

/-- Nobody but the participants on their way through the door has a flag of 2 or 3 for long:
from a flag of 0 or 1 a participant gets a higher one only by stepping into the door. -/
theorem Move.flag_low {place : Id → Location} {i : Id} {source target : Location}
    (move : Move place i source target) (low : source.flag ≤ 1) (notOpening : source ≠ .opening) :
    target.flag ≤ 1 := by
  cases move with
  | announce => decide
  | raise => decide
  | seeOpen allOut => decide
  | stepIn => exact absurd rfl notOpening
  | lower => decide
  | _ => exact absurd low (by decide)

/-- A flag of 4 is kept until it is lowered. -/
theorem Move.flag_four {place : Id → Location} {i : Id} {source target : Location}
    (move : Move place i source target) (isFour : source.flag = 4) :
    target.flag = 4 ∨ source = .departing ∧ target = .outside := by
  cases move with
  | enter lowerOut => exact Or.inl rfl
  | leave => exact Or.inl rfl
  | seeSettled higherSettled => exact Or.inl rfl
  | lower => exact Or.inr ⟨rfl, rfl⟩
  | _ => cases isFour

section Preserved

variable {place : Id → Location} {i : Id} {target : Location}

theorem Invariant.closed_update (holds : Invariant place) (move : Move place i (place i) target)
    {a b : Id} (past : (Function.update place i target a).isPast = true) :
    Function.update place i target b ≠ .opening := by
  intro isOpening
  by_cases moved : b = i
  · subst moved
    rw [Function.update_self] at isOpening
    subst isOpening
    have different : a ≠ b := by
      intro same
      rw [same, Function.update_self] at past
      cases past
    rw [Function.update_of_ne different] at past
    generalize place b = source at move
    cases move with
    | seeOpen allOut =>
        have low := allOut a different
        have high := flag_of_isPast past
        omega
  · rw [Function.update_of_ne moved] at isOpening
    by_cases same : a = i
    · subst same
      rw [Function.update_self] at past
      generalize isSource : place a = source at move
      cases move with
      | seeNone nobody =>
          apply nobody b moved
          rw [isOpening]
          rfl
      | answer =>
          obtain ⟨k, isFour⟩ := holds.called a isSource
          exact holds.closed k b (isPast_of_flag isFour) isOpening
      | close => exact holds.closed a b (by rw [isSource]; rfl) isOpening
      | enter lowerOut => exact holds.closed a b (by rw [isSource]; rfl) isOpening
      | leave => exact holds.closed a b (by rw [isSource]; rfl) isOpening
      | seeSettled higherSettled => exact holds.closed a b (by rw [isSource]; rfl) isOpening
      | _ => cases past
    · rw [Function.update_of_ne same] at past
      exact holds.closed a b past isOpening

theorem Invariant.called_update (holds : Invariant place) (move : Move place i (place i) target)
    {a : Id} (isCalled : Function.update place i target a = .called) :
    ∃ k, (Function.update place i target k).flag = 4 := by
  by_cases moved : a = i
  · subst moved
    rw [Function.update_self] at isCalled
    subst isCalled
    generalize place a = source at move
    cases move with
    | seeCall another =>
        obtain ⟨j, different, isFour⟩ := another
        exact ⟨j, by rw [Function.update_of_ne different]; exact isFour⟩
  · rw [Function.update_of_ne moved] at isCalled
    obtain ⟨k, isFour⟩ := holds.called a isCalled
    by_cases same : k = i
    · subst same
      rcases move.flag_four isFour with kept | ⟨isDeparting, _⟩
      · exact ⟨k, by rw [Function.update_self]; exact kept⟩
      · -- Who lowers its flag has seen that nobody is in the waiting room.
        rcases lt_or_gt_of_ne moved with below | above
        · have low := holds.first k (by rw [isDeparting]; rfl) a below
          rw [isCalled] at low
          exact absurd low (by decide)
        · have settled := holds.settled k isDeparting a above
          rw [isCalled] at settled
          exact absurd settled (by decide)
    · exact ⟨k, by rw [Function.update_of_ne same]; exact isFour⟩

theorem Invariant.first_update (holds : Invariant place) (move : Move place i (place i) target)
    {a : Id} (isIn : (Function.update place i target a).isIn = true) {j : Id} (below : j < a) :
    (Function.update place i target j).flag ≤ 1 := by
  by_cases moved : a = i
  · subst moved
    rw [Function.update_self] at isIn
    rw [Function.update_of_ne (ne_of_lt below)]
    generalize isSource : place a = source at move
    cases move with
    | enter lowerOut => exact lowerOut j below
    | leave => exact holds.first a (by rw [isSource]; rfl) j below
    | seeSettled higherSettled => exact holds.first a (by rw [isSource]; rfl) j below
    | _ => cases isIn
  · rw [Function.update_of_ne moved] at isIn
    have low := holds.first a isIn j below
    by_cases same : j = i
    · subst same
      rw [Function.update_self]
      exact move.flag_low low (holds.closed a j (isPast_of_isIn isIn))
    · rw [Function.update_of_ne same]
      exact low

theorem Invariant.settled_update (holds : Invariant place) (move : Move place i (place i) target)
    {a : Id} (isDeparting : Function.update place i target a = .departing) {j : Id} (above : a < j) :
    (Function.update place i target j).flag ≤ 1 ∨ (Function.update place i target j).flag = 4 := by
  by_cases moved : a = i
  · subst moved
    rw [Function.update_self] at isDeparting
    subst isDeparting
    rw [Function.update_of_ne (ne_of_gt above)]
    generalize place a = source at move
    cases move with
    | seeSettled higherSettled => exact higherSettled j above
  · rw [Function.update_of_ne moved] at isDeparting
    have settled := holds.settled a isDeparting j above
    by_cases same : j = i
    · subst same
      rw [Function.update_self]
      rcases settled with low | isFour
      · exact Or.inl (move.flag_low low (holds.closed a j (by rw [isDeparting]; rfl)))
      · rcases move.flag_four isFour with kept | ⟨_, isOutside⟩
        · exact Or.inr kept
        · left
          rw [isOutside]
          decide
    · rw [Function.update_of_ne same]
      exact settled

end Preserved

theorem Invariant.step {before after : Id → Location} (holds : Invariant before)
    (taken : Step before after) : Invariant after := by
  obtain ⟨i, target, move, rfl⟩ := taken
  constructor
  · exact fun a b past => holds.closed_update move past
  · exact fun a isCalled => holds.called_update move isCalled
  · exact fun a isIn j below => holds.first_update move isIn below
  · exact fun a isDeparting j above => holds.settled_update move isDeparting above

theorem Invariant.exclusive {place : Id → Location} (holds : Invariant place) {a b : Id}
    (aIn : (place a).isIn = true) (bIn : (place b).isIn = true) : a = b := by
  have notBelow : ∀ c d, (place c).isIn = true → (place d).isIn = true → ¬ c < d := by
    intro c d cIn dIn below
    have low := holds.first d dIn c below
    rw [flag_of_isIn cIn] at low
    exact absurd low (by decide)
  rcases lt_trichotomy a b with below | same | above
  · exact absurd below (notBelow a b aIn bIn)
  · exact same
  · exact absurd above (notBelow b a bIn aIn)

end WaitingRoom
