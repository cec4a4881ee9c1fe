import TiFs.LockExclusion
import TiFs.Library.WaitingRoomProgress

namespace TiFs

open KeyValue WaitingRoom SzymanskisState

instance wellFoundedLT_uuid : WellFoundedLT Uuid := ⟨InvImage.wf BitVec.toNat wellFounded_lt⟩

namespace LockSystem

variable {lock : LockedKey} {state : LockSystem}

/-- A step of the system is one of the algorithm, or leaves everybody where they stand. -/
theorem place_step {before after : LockSystem} {event : LockEvent} (reported : before.Reported lock)
    (taken : Step lock before event after) (unhindered : before.Unhindered lock event) :
    after.place = before.place ∨ WaitingRoom.Step before.place after.place := by
  have calls : ∀ {id : Uuid} {self next : SzymanowskiCriticalSection}, before.sections id = some self →
      Move before.place id self.location next.location →
      WaitingRoom.Step before.place (before.set id next).place := by
    intro id self next present move
    rw [place_set]
    exact ⟨id, next.location, by rw [place_of_some present]; exact move, rfl⟩
  unfold Step LockSystem.step at taken
  cases event with
  | new id =>
      cases present : before.sections id with
      | some self => simp [present] at taken
      | none =>
          simp only [present, Option.some.injEq] at taken
          subst taken
          left
          have isOutside : before.place id = SzymanowskiCriticalSection.new.location := by
            rw [place, present]
            rfl
          rw [place_set, ← isOutside, Function.update_eq_self]
  | enter id =>
      cases present : before.sections id with
      | none => simp [present] at taken
      | some self =>
          obtain ⟨myState, entered, call⟩ := self
          simp only [present, Option.ite_none_right_eq_some, Option.some.injEq] at taken
          obtain ⟨rfl, rfl⟩ := taken
          cases entered with
          | true => exact Or.inl rfl
          | false => exact Or.inr (calls present .announce)
  | leave id =>
      cases present : before.sections id with
      | none => simp [present] at taken
      | some self =>
          obtain ⟨myState, entered, call⟩ := self
          simp only [present, Option.ite_none_right_eq_some, Option.some.injEq] at taken
          obtain ⟨rfl, rfl⟩ := taken
          cases entered with
          | true => exact Or.inr (calls present .leave)
          | false => exact Or.inl rfl
  | advance id =>
      cases present : before.sections id with
      | none => simp [present] at taken
      | some self =>
          simp only [present, Option.some.injEq] at taken
          subst taken
          obtain ⟨_, _, stays | moves⟩ := reported.advance unhindered present
          · left
            change (before.set id _).place = _
            rw [place_set, stays, ← place_of_some present, Function.update_eq_self]
          · exact Or.inr (calls present moves)
  | putOther key value =>
      obtain rfl := Option.some.inj taken
      exact Or.inl rfl
  | deleteOther key =>
      obtain rfl := Option.some.inj taken
      exact Or.inl rfl

/-- Everybody in the waiting room can count on somebody, besides what excludes. -/
structure Progresses (lock : LockedKey) (state : LockSystem) : Prop where
  excludes : state.Excludes lock
  attended : Attended state.place

theorem Progresses.step {before after : LockSystem} {event : LockEvent} (holds : before.Progresses lock)
    (taken : Step lock before event after) (unhindered : before.Unhindered lock event) :
    after.Progresses lock := by
  refine ⟨holds.excludes.step taken unhindered, ?_⟩
  rcases place_step holds.excludes.1 taken unhindered with same | moved
  · rw [same]
    exact holds.attended
  · exact holds.attended.step holds.excludes.2 moved

theorem Blank.progresses (blank : state.Blank lock) : state.Progresses lock := by
  refine ⟨blank.excludes, ?_⟩
  have isPlace : state.place = fun _ => Location.outside := by
    funext id
    rw [place, blank.1]
  rw [isPlace]
  exact attended_outside

theorem progresses_run {first : LockSystem} (blank : first.Blank lock)
    (run : Run (Step lock) (fun before event => before.Unhindered lock event) first state) :
    state.Progresses lock :=
  run.invariant (fun state => state.Progresses lock)
    (fun _ _ _ holds taken unhindered => holds.step taken unhindered) blank.progresses

theorem location_ne_outside {self : SzymanowskiCriticalSection} (running : self.call ≠ .idle) :
    self.location ≠ .outside := by
  unfold SzymanowskiCriticalSection.location
  split
  · next idle => exact absurd idle running
  · exact Location.noConfusion
  · exact Location.noConfusion
  · exact Location.noConfusion
  · exact Location.noConfusion
  · exact Location.noConfusion
  · exact Location.noConfusion
  · split
    · exact Location.noConfusion
    · exact Location.noConfusion
  · exact Location.noConfusion
  · exact Location.noConfusion
  · exact Location.noConfusion

theorem Reported.found_of_flag (reported : state.Reported lock)
    (within : (state.store.range lock.keyRangeStart lock.keyRangeEnd).length ≤ maxTikvScanLimit)
    {myId j : Uuid} (other : j ≠ myId) {shown : SzymanskisState} (active : shown ≠ .s0Noncritical)
    (isFlag : (state.place j).flag = shown.rank) :
    (j, shown) ∈ lock.getCurrentStatesExcludingMine state.store myId := by
  cases present : state.sections j with
  | none =>
      rw [place, present] at isFlag
      exact absurd (rank_inj isFlag.symm : shown = .s0Noncritical) active
  | some self =>
      rw [place_of_some present, ← (reported.sound j self present).shown] at isFlag
      have isShown : self.myState = shown := rank_inj isFlag
      exact (reported.mem_states within).mpr ⟨other, self, present, isShown ▸ active, isShown⟩

/-- Where the algorithm allows a move the next store operation makes one: a poll that may
succeed does. -/
theorem Reported.advances (reported : state.Reported lock)
    (within : (state.store.range lock.keyRangeStart lock.keyRangeEnd).length ≤ maxTikvScanLimit)
    {id : Uuid} {self : SzymanowskiCriticalSection} (present : state.sections id = some self)
    (running : self.call ≠ .idle) {target : Location} (move : Move state.place id self.location target) :
    (lock.advance state.store id self).2.call ≠ self.call := by
  obtain ⟨shown, isEntered⟩ := reported.sound id self present
  obtain ⟨myState, entered, call⟩ := self
  have flags : ∀ {state' : Uuid × SzymanskisState},
      state' ∈ lock.getCurrentStatesExcludingMine state.store id →
      state'.1 ≠ id ∧ (state.place state'.1).flag = state'.2.rank :=
    fun found => reported.flag_of_mem within found
  unfold LockedKey.advance
  cases call with
  | idle => exact absurd rfl running
  | putIntention => exact SectionCall.noConfusion
  | putDoorIn => exact SectionCall.noConfusion
  | putWaitingRoom => exact SectionCall.noConfusion
  | putDoorOut => exact SectionCall.noConfusion
  | deleteState => exact SectionCall.noConfusion
  | scanWaiting =>
      dsimp only
      split
      · exact SectionCall.noConfusion
      · exact SectionCall.noConfusion
  | pollOpen =>
      cases move with
      | seeOpen allOut =>
          have done : (lock.getCurrentStatesExcludingMine state.store id).all
              (fun state => isBetween .s0Noncritical .s2WaitingRoom state.2) = true := by
            rw [List.all_eq_true]
            intro seen found
            obtain ⟨other, isFlag⟩ := flags found
            have low := allOut seen.1 other
            rw [isFlag] at low
            simp only [isBetween, Bool.and_eq_true, decide_eq_true_eq]
            exact ⟨Nat.zero_le _, low⟩
          dsimp only
          rw [if_pos done]
          exact SectionCall.noConfusion
  | pollDoorOut =>
      have isWaiting : myState = .s2WaitingRoom := rank_inj shown
      cases move with
      | seeCall another =>
          obtain ⟨j, other, isFour⟩ := another
          have done : (lock.getCurrentStatesExcludingMine state.store id).any
              (fun state => state.2 = .s4DoorOut) = true := by
            rw [List.any_eq_true]
            refine ⟨(j, .s4DoorOut), ?_, decide_eq_true rfl⟩
            exact reported.found_of_flag within other SzymanskisState.noConfusion isFour
          dsimp only
          rw [if_pos done]
          exact SectionCall.noConfusion
  | pollLower =>
      cases move with
      | enter lowerOut =>
          have done : (lock.getCurrentStatesExcludingMine state.store id).all
              (fun state => state.1 ≥ id || isBetween .s0Noncritical .s1Intention state.2) = true := by
            rw [List.all_eq_true]
            intro seen found
            obtain ⟨other, isFlag⟩ := flags found
            simp only [isBetween, Bool.or_eq_true, Bool.and_eq_true, decide_eq_true_eq]
            rcases lt_or_gt_of_ne other with below | above
            · have low := lowerOut seen.1 below
              rw [isFlag] at low
              exact Or.inr ⟨Nat.zero_le _, low⟩
            · exact Or.inl (le_of_lt above)
          dsimp only
          rw [if_pos done]
          exact SectionCall.noConfusion
  | pollHigher =>
      cases move with
      | seeSettled higherSettled =>
          have done : (lock.getCurrentStatesExcludingMine state.store id).all
              (fun state => state.1 ≤ id ||
                [SzymanskisState.s0Noncritical, .s1Intention, .s4DoorOut].contains state.2) = true := by
            rw [List.all_eq_true]
            rintro ⟨j, seen⟩ found
            obtain ⟨other, isFlag⟩ := flags found
            simp only [Bool.or_eq_true, decide_eq_true_eq]
            rcases lt_or_gt_of_ne other with below | above
            · exact Or.inl (le_of_lt below)
            · have settled : seen.rank ≤ 1 ∨ seen.rank = 4 := isFlag ▸ higherSettled j above
              right
              cases seen with
              | s0Noncritical => rfl
              | s1Intention => rfl
              | s4DoorOut => rfl
              | s2WaitingRoom => exact absurd settled (by decide)
              | s3DoorIn => exact absurd settled (by decide)
          dsimp only
          rw [if_pos done]
          exact SectionCall.noConfusion

/-- As long as no instance stays entered, the store operations of some call that is running
take it further: the calls never all poll in vain. -/
theorem never_stuck (lock : LockedKey) (first state : LockSystem) (blank : first.Blank lock)
    (run : Run (Step lock) (fun before event => before.Unhindered lock event) first state)
    (within : (state.store.range lock.keyRangeStart lock.keyRangeEnd).length ≤ maxTikvScanLimit)
    (id : Uuid) (self : SzymanowskiCriticalSection) (present : state.sections id = some self)
    (running : self.call ≠ .idle)
    (nobodyStays : ∀ other entered, state.sections other = some entered → entered.call = .idle →
      entered.entered = false) :
    ∃ other next, state.sections other = some next ∧ next.call ≠ .idle ∧
      (lock.advance state.store other next).2.call ≠ next.call := by
  have holds := progresses_run blank run
  have onWay : state.place id ≠ .outside := by
    rw [place_of_some present]
    exact location_ne_outside running
  obtain ⟨other, target, isOn, move⟩ := holds.attended.progress onWay
  cases isNext : state.sections other with
  | none =>
      rw [place, isNext] at isOn
      exact absurd rfl isOn
  | some next =>
      rw [place_of_some isNext] at isOn move
      have isRunning : next.call ≠ .idle := by
        intro idle
        have notEntered := nobodyStays other next isNext idle
        apply isOn
        rw [SzymanowskiCriticalSection.location, idle]
        simp only [notEntered, Bool.false_eq_true, if_false]
      exact ⟨other, next, isNext, isRunning, holds.excludes.1.advances within isNext isRunning move⟩

def instanceOf : LockEvent → Option Uuid
  | .new id => some id
  | .enter id => some id
  | .leave id => some id
  | .advance id => some id
  | .putOther _ _ => none
  | .deleteOther _ => none

theorem sections_step {before after : LockSystem} {event : LockEvent} (taken : step lock before event = some after)
    {id : Uuid} (other : id ∉ instanceOf event) : after.sections id = before.sections id := by
  have kept : ∀ {moving : Uuid} (self : SzymanowskiCriticalSection), id ∉ some moving →
      (before.set moving self).sections id = before.sections id := by
    intro moving self absent
    exact sections_set_of_ne _ (fun same => absent (congrArg some same.symm)) self
  cases event with
  | new moving =>
      simp only [step] at taken
      split at taken
      · cases taken
      · rw [← Option.some.inj taken]
        exact kept _ other
  | enter moving =>
      simp only [step] at taken
      split at taken
      · split at taken
        · rw [← Option.some.inj taken]
          split
          · rfl
          · exact kept _ other
        · cases taken
      · cases taken
  | leave moving =>
      simp only [step] at taken
      split at taken
      · split at taken
        · rw [← Option.some.inj taken]
          split
          · exact kept _ other
          · rfl
        · cases taken
      · cases taken
  | advance moving =>
      simp only [step] at taken
      split at taken
      · rw [← Option.some.inj taken]
        exact kept _ other
      · cases taken
  | putOther key value => rw [← Option.some.inj taken]
  | deleteOther key => rw [← Option.some.inj taken]

theorem sections_runAll {first last : LockSystem} {events : List LockEvent}
    (ran : runAll (restrict (fun before event => before.Unhindered lock event) (step lock)) first events = some last)
    {id : Uuid} (others : ∀ event ∈ events, id ∉ instanceOf event) : last.sections id = first.sections id := by
  induction events generalizing first with
  | nil => rw [Option.some.inj ran]
  | cons event rest ih =>
      simp only [runAll] at ran
      split at ran
      · next middle taken =>
          rw [ih ran fun later listed => others later (List.mem_cons_of_mem event listed)]
          exact sections_step (restrict_eq_some taken).1 (others event List.mem_cons_self)
      · cases ran

/-- Two instances are in the door. The one with the higher id polls in vain, and the other
one goes on. -/
theorem never_stuck_polling :
    ∃ state self, Run (Step ⟨[1], [2], 1⟩) (fun before event => before.Unhindered ⟨[1], [2], 1⟩ event)
      ⟨.empty, fun _ => none⟩ state ∧ state.sections 9 = some self ∧ self.call = .pollLower ∧
      (LockedKey.advance ⟨[1], [2], 1⟩ state.store 9 self).2 = self ∧
      ∃ other next, other ≠ 9 ∧ state.sections other = some next ∧ next.call ≠ .idle ∧
        (LockedKey.advance ⟨[1], [2], 1⟩ state.store other next).2.call ≠ next.call := by
  let events : List LockEvent := [.new 5, .new 9, .enter 5, .enter 9, .advance 5, .advance 9, .advance 5,
    .advance 9, .advance 5, .advance 9, .advance 5, .advance 9, .advance 9]
  have ran : (runAll (restrict (fun before event => before.Unhindered ⟨[1], [2], 1⟩ event) (step ⟨[1], [2], 1⟩))
      (⟨.empty, fun _ => none⟩ : LockSystem) events).any (fun state =>
        ((state.store.range (LockedKey.keyRangeStart ⟨[1], [2], 1⟩) (LockedKey.keyRangeEnd ⟨[1], [2], 1⟩)).length ≤
          maxTikvScanLimit) && (state.sections 5).any (fun next => next.call = .putDoorOut) &&
        (state.sections 9).any fun self => self.call = .pollLower &&
          (LockedKey.advance ⟨[1], [2], 1⟩ state.store 9 self).2 = self) = true := by
    decide +kernel
  obtain ⟨state, reached, checked⟩ := (Option.any_eq_true _ _).mp ran
  simp only [Bool.and_eq_true, decide_eq_true_eq] at checked
  obtain ⟨⟨within, first⟩, second⟩ := checked
  obtain ⟨self, present, polling⟩ := (Option.any_eq_true _ _).mp second
  simp only [Bool.and_eq_true, decide_eq_true_eq] at polling
  obtain ⟨isPolling, inVain⟩ := polling
  obtain ⟨lower, lowerPresent, isLower⟩ := (Option.any_eq_true _ _).mp first
  have run : Run (Step ⟨[1], [2], 1⟩) (fun before event => before.Unhindered ⟨[1], [2], 1⟩ event)
      ⟨.empty, fun _ => none⟩ state := by
    apply Run.of_runAll _ reached
    intro before event after taken
    exact restrict_eq_some taken
  have nobodyStays : ∀ other entered, state.sections other = some entered → entered.call = .idle →
      entered.entered = false := by
    intro other entered isOther idle
    by_cases named : other = 5 ∨ other = 9
    · rcases named with rfl | rfl
      · rw [← Option.some.inj (lowerPresent.symm.trans isOther), of_decide_eq_true isLower] at idle
        cases idle
      · rw [← Option.some.inj (present.symm.trans isOther), isPolling] at idle
        cases idle
    · rw [sections_runAll reached ?_] at isOther
      · cases isOther
      · intro event listed
        simp only [events, List.mem_cons, List.not_mem_nil, or_false] at listed
        rcases listed with rfl | rfl | rfl | rfl | rfl | rfl | rfl | rfl | rfl | rfl | rfl | rfl | rfl <;>
          simpa [instanceOf, eq_comm] using fun same => named (by simp [same])
  obtain ⟨other, next, isNext, running, moves⟩ := never_stuck ⟨[1], [2], 1⟩ ⟨.empty, fun _ => none⟩ state
    ⟨fun _ => rfl, fun _ stored => by cases stored⟩ run within 9 self present (by rw [isPolling]; decide) nobodyStays
  refine ⟨state, self, run, present, isPolling, inVain, other, next, ?_, isNext, running, moves⟩
  rintro rfl
  rw [← Option.some.inj (present.symm.trans isNext), inVain] at moves
  exact moves rfl

def isInDoor (state : LockSystem) (id : Uuid) : Bool :=
  (state.sections id).any fun self =>
    [SectionCall.scanWaiting, .putWaitingRoom, .pollDoorOut, .putDoorOut, .pollLower].contains self.call

def isEntered (state : LockSystem) (id : Uuid) : Bool := (state.sections id).any fun self => self.entered

/-- A step in which `me` stays in the door, with the number of times that `other` has entered. -/
def DoorStep (lock : LockedKey) (me other : Uuid) (before : LockSystem × Nat) (event : LockEvent)
    (after : LockSystem × Nat) : Prop :=
  Step lock before.1 event after.1 ∧ after.1.isInDoor me = true ∧
    after.2 = before.2 + if before.1.isEntered other = false ∧ after.1.isEntered other = true then 1 else 0

theorem isCrossing_of_isInDoor {id : Uuid} (inDoor : state.isInDoor id = true) :
    (state.place id).isCrossing = true := by
  obtain ⟨self, present, listed⟩ := (Option.any_eq_true _ _).mp inDoor
  rw [place_of_some present]
  obtain ⟨myState, entered, call⟩ := self
  unfold SzymanowskiCriticalSection.location
  cases call with
  | scanWaiting => rfl
  | putWaitingRoom => rfl
  | pollDoorOut => rfl
  | pollLower => rfl
  | putDoorOut =>
      dsimp only
      split
      · rfl
      · rfl
  | _ => cases listed

theorem Reported.isEntered_eq (reported : state.Reported lock) (id : Uuid) :
    state.isEntered id = (state.place id).isIn := by
  cases present : state.sections id with
  | none =>
      rw [isEntered, place, present]
      rfl
  | some self =>
      rw [place_of_some present, ← (reported.sound id self present).entered, isEntered, present]
      rfl

structure OvertakenInDoor (lock : LockedKey) (me other : Uuid) (reached : LockSystem × Nat) : Prop where
  progresses : reached.1.Progresses lock
  overtaken : Overtaken me other reached.1.place reached.2

theorem OvertakenInDoor.step {me other : Uuid} (different : me ≠ other) {before after : LockSystem × Nat}
    {event : LockEvent} (holds : OvertakenInDoor lock me other before)
    (taken : DoorStep lock me other before event after) (unhindered : before.1.Unhindered lock event) :
    OvertakenInDoor lock me other after := by
  obtain ⟨stepped, inDoor, isTimes⟩ := taken
  have progresses := holds.progresses.step stepped unhindered
  have crossing := isCrossing_of_isInDoor inDoor
  refine ⟨progresses, ?_⟩
  rw [isTimes, holds.progresses.excludes.1.isEntered_eq, progresses.excludes.1.isEntered_eq]
  rcases place_step holds.progresses.excludes.1 stepped unhindered with same | moved
  · have nobody : ¬ ((before.1.place other).isIn = false ∧ (before.1.place other).isIn = true) := by
      rintro ⟨isOut, isIn⟩
      rw [isOut] at isIn
      cases isIn
    rw [same, if_neg nobody]
    exact holds.overtaken
  · exact holds.overtaken.step different moved crossing

/-- Between the moment at which an instance shows that it is in the door and the one at which
it has entered, no other instance enters more than once. -/
theorem overtaken_once (lock : LockedKey) (first middle : LockSystem) (blank : first.Blank lock)
    (reached : Run (Step lock) (fun before event => before.Unhindered lock event) first middle)
    (me other : Uuid) (different : me ≠ other) (inDoor : middle.isInDoor me = true) (last : LockSystem × Nat)
    (run : Run (DoorStep lock me other) (fun before event => before.1.Unhindered lock event) (middle, 0) last) :
    last.2 ≤ 1 := by
  have starts : OvertakenInDoor lock me other (middle, 0) :=
    ⟨progresses_run blank reached, .start (isCrossing_of_isInDoor inDoor)⟩
  have preserved : ∀ before event after, OvertakenInDoor lock me other before →
      DoorStep lock me other before event after → before.1.Unhindered lock event →
      OvertakenInDoor lock me other after := by
    intro before event after holds taken unhindered
    exact holds.step different taken unhindered
  have holds := run.invariant (OvertakenInDoor lock me other) preserved starts
  rcases holds.overtaken.once with none | ⟨once, _⟩
  · omega
  · omega

def overtakesNext (lock : LockedKey) (me other : Uuid) (state : LockSystem) : Bool :=
  state.isInDoor me && !state.isEntered other &&
    (restrict (Unhindered lock) (step lock) state (.advance other)).any fun after =>
      after.isInDoor me && after.isEntered other

/-- Two instances are in the door, and the one with the lower id enters before the other one. -/
theorem overtaken_once_lower :
    ∃ middle last, Run (Step ⟨[1], [2], 1⟩) (fun before event => before.Unhindered ⟨[1], [2], 1⟩ event)
        ⟨.empty, fun _ => none⟩ middle ∧
      Run (DoorStep ⟨[1], [2], 1⟩ 9 5) (fun before event => before.1.Unhindered ⟨[1], [2], 1⟩ event)
        (middle, 0) last ∧ 1 ≤ last.2 ∧ last.2 ≤ 1 := by
  obtain ⟨middle, reached, check⟩ := exists_run ⟨[1], [2], 1⟩ ⟨.empty, fun _ => none⟩
    [.new 5, .new 9, .enter 5, .enter 9, .advance 5, .advance 9, .advance 5, .advance 9, .advance 5,
      .advance 9, .advance 5, .advance 9, .advance 5]
    (overtakesNext ⟨[1], [2], 1⟩ 9 5) (by decide +kernel)
  simp only [overtakesNext, Bool.and_eq_true, Bool.not_eq_true'] at check
  obtain ⟨⟨inDoor, notEntered⟩, next⟩ := check
  obtain ⟨after, taken, enters⟩ := (Option.any_eq_true _ _).mp next
  obtain ⟨stillInDoor, entered⟩ := (Bool.and_eq_true _ _).mp enters
  obtain ⟨stepped, unhindered⟩ := restrict_eq_some taken
  have run : Run (DoorStep ⟨[1], [2], 1⟩ 9 5) (fun before event => before.1.Unhindered ⟨[1], [2], 1⟩ event)
      (middle, 0) (after, 1) :=
    Run.single (.advance 5) ⟨stepped, stillInDoor, by rw [if_pos ⟨notEntered, entered⟩]⟩ unhindered
  exact ⟨middle, (after, 1), reached, run, le_rfl, overtaken_once ⟨[1], [2], 1⟩ ⟨.empty, fun _ => none⟩ middle
    ⟨fun _ => rfl, fun _ stored => by cases stored⟩ reached 9 5 (by decide) inDoor (after, 1) run⟩

end LockSystem

end TiFs
