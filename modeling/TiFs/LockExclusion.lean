import TiFs.CriticalSection

/-! No two instances of the lock are entered at a time: what a scan returns are the
states of the other instances, so that every store operation of an instance is a
step of the algorithm or leaves the instance where it is. -/

namespace TiFs

open BigEndian KeyValue WaitingRoom SzymanskisState

instance : LinearOrder Uuid where
  le_refl _ := Nat.le_refl _
  le_trans _ _ _ := Nat.le_trans
  lt_iff_le_not_ge _ _ := Nat.lt_iff_le_and_not_ge
  le_antisymm _ _ below above := BitVec.eq_of_toNat_eq (Nat.le_antisymm below above)
  le_total left right := Nat.le_total left.toNat right.toNat
  toDecidableLE := inferInstance
  toDecidableEq := inferInstance

namespace LockedKey

variable {lock : LockedKey}

theorem parseLockKey_own (lock : LockedKey) (id : Uuid) :
    lock.parseLockKey (lock.keyForStateReport id) = .ok id := by
  have started := KeyParser.start_bytes lock.keyScope lock.hashLen (.keyLockState lock.keyToLock id)
  have isKey : (LogicalKey.keyLockState lock.keyToLock id).bytes lock.keyScope =
      lock.keyForStateReport id := rfl
  rw [isKey] at started
  rw [parseLockKey, started]
  exact KeyParser.parseLockKey_append lock.hashLen lock.keyToLock id

/-- Keys of others do not parse as state keys of this lock: a shorter locked key
leaves too few bytes for an id. -/
theorem parseLockKey_foreign {key : LogicalKey} (foreign : lock.IsForeign key) :
    ∃ issue, lock.parseLockKey (key.bytes lock.keyScope) = .error issue := by
  rw [parseLockKey, KeyParser.start_bytes]
  cases key with
  | keyLockState locked id =>
      have notLonger : ¬ lock.keyToLock <+: locked := foreign
      apply KeyParser.parseLockKey_refused ⟨lock.hashLen, locked ++ Uuid.asBytes id, .keyLockStates⟩
      by_cases same : lock.keyToLock = (locked ++ Uuid.asBytes id).take lock.keyToLock.length
      · right
        have shorter : locked.length < lock.keyToLock.length := by
          by_contra longer
          apply notLonger
          rw [List.take_append_of_le_length (by omega)] at same
          rw [same]
          exact List.take_prefix _ _
        simp only [List.length_append, Uuid.asBytes_length]
        omega
      · exact Or.inl same
  | _ => exact ⟨_, rfl⟩

theorem keyForStateReport_inj {left right : Uuid}
    (same : lock.keyForStateReport left = lock.keyForStateReport right) : left = right := by
  have read := lock.parseLockKey_own left
  rw [same, lock.parseLockKey_own right] at read
  exact (Except.ok.inj read).symm

theorem foreign_ne_own {key : LogicalKey} (foreign : lock.IsForeign key) (id : Uuid) :
    key.bytes lock.keyScope ≠ lock.keyForStateReport id := by
  intro same
  obtain ⟨issue, failed⟩ := parseLockKey_foreign foreign
  rw [same, lock.parseLockKey_own id] at failed
  cases failed

theorem keyForStateReport_lt_iff {left right : Uuid} :
    lock.keyForStateReport left < lock.keyForStateReport right ↔ left.toNat < right.toNat := by
  have isKey : ∀ id, lock.keyForStateReport id =
      lock.keyScope ++ getByRight KeyKind.iter .keyLockStates ::
        (lock.keyToLock ++ Uuid.asBytes id) := by
    intro id
    exact LogicalKey.bytes_eq lock.keyScope (.keyLockState lock.keyToLock id)
  have irrefl : ∀ list : Bytes, ¬ list < list := fun list => List.lt_irrefl list
  rw [isKey, isKey, scoped_lt_iff, append_lt_append_iff rfl, Uuid.asBytes, Uuid.asBytes,
    write_lt_write_iff left.isLt right.isLt]
  simp [irrefl]

theorem keyForStateReport_within (lock : LockedKey) (id : Uuid) :
    lock.keyRangeStart ≤ lock.keyForStateReport id ∧ lock.keyForStateReport id ≤ lock.keyRangeEnd := by
  have first : lock.keyRangeStart = lock.keyForStateReport 0 := rfl
  have last : lock.keyRangeEnd = lock.keyForStateReport (BitVec.allOnes 128) := rfl
  rw [first, last, ← List.not_lt, ← List.not_lt, keyForStateReport_lt_iff, keyForStateReport_lt_iff]
  have bound := id.isLt
  constructor
  · exact Nat.not_lt_zero _
  · rw [BitVec.toNat_allOnes]
    omega

end LockedKey

def SzymanowskiCriticalSection.location (self : SzymanowskiCriticalSection) : Location :=
  match self.call with
  | .idle => if self.entered then .inside else .outside
  | .putIntention => .announcing
  | .pollOpen => .beforeDoor
  | .putDoorIn => .opening
  | .scanWaiting => .doorway
  | .putWaitingRoom => .yielding
  | .pollDoorOut => .waiting
  | .putDoorOut => if self.myState = .s2WaitingRoom then .called else .closing
  | .pollLower => .queued
  | .pollHigher => .leaving
  | .deleteState => .departing

structure SzymanowskiCriticalSection.Sound (cs : SzymanowskiCriticalSection) : Prop where
  shown : cs.myState.rank = cs.location.flag
  entered : cs.entered = cs.location.isIn

namespace LockSystem

def place (state : LockSystem) (id : Uuid) : Location :=
  match state.sections id with
  | some self => self.location
  | none => .outside

structure Reported (lock : LockedKey) (state : LockSystem) : Prop where
  sound : ∀ id self, state.sections id = some self → self.Sound
  own : ∀ id value, (lock.keyForStateReport id, value) ∈ state.store.entries ↔
    ∃ self, state.sections id = some self ∧ self.myState ≠ .s0Noncritical ∧
      value = [self.myState.asU8]
  others : ∀ entry ∈ state.store.entries, (∃ id, entry.1 = lock.keyForStateReport id) ∨
    ∃ key, lock.IsForeign key ∧ entry.1 = key.bytes lock.keyScope

variable {lock : LockedKey} {state : LockSystem}

theorem Reported.mem_states (reported : state.Reported lock)
    (within : (state.store.range lock.keyRangeStart lock.keyRangeEnd).length ≤ maxTikvScanLimit)
    {myId id : Uuid} {shown : SzymanskisState} :
    (id, shown) ∈ lock.getCurrentStatesExcludingMine state.store myId ↔
      id ≠ myId ∧ ∃ self, state.sections id = some self ∧ self.myState ≠ .s0Noncritical ∧
        self.myState = shown := by
  rw [LockedKey.getCurrentStatesExcludingMine, List.mem_filterMap]
  constructor
  · intro found
    obtain ⟨entry, scanned, isState⟩ := found
    have stored := ((SortedMap.mem_scan within).mp scanned).1
    rcases reported.others entry stored with ⟨owner, isOwn⟩ | ⟨key, foreign, isForeign⟩
    · rw [isOwn, lock.parseLockKey_own] at isState
      simp only at isState
      by_cases mine : owner = myId
      · rw [if_neg (not_not.mpr mine)] at isState
        cases isState
      · rw [if_pos mine, Option.some.injEq, Prod.mk.injEq] at isState
        obtain ⟨rfl, isShown⟩ := isState
        refine ⟨mine, ?_⟩
        have pair : (lock.keyForStateReport owner, entry.2) ∈ state.store.entries := by
          rw [← isOwn]
          exact stored
        obtain ⟨self, present, active, isValue⟩ := (reported.own owner entry.2).mp pair
        refine ⟨self, present, active, ?_⟩
        rw [← isShown, isValue, List.headD_cons, fromU8_asU8]
    · obtain ⟨issue, failed⟩ := LockedKey.parseLockKey_foreign foreign
      rw [isForeign, failed] at isState
      cases isState
  · intro found
    obtain ⟨other, self, present, active, isShown⟩ := found
    have stored := (reported.own id [self.myState.asU8]).mpr ⟨self, present, active, rfl⟩
    refine ⟨(lock.keyForStateReport id, [self.myState.asU8]), ?_, ?_⟩
    · rw [SortedMap.mem_scan within]
      exact ⟨stored, lock.keyForStateReport_within id⟩
    · simp only [lock.parseLockKey_own, if_pos other, List.headD_cons, fromU8_asU8, isShown]

theorem place_of_some {id : Uuid} {self : SzymanowskiCriticalSection}
    (present : state.sections id = some self) : state.place id = self.location := by
  rw [place, present]

theorem Reported.flag_of_all (reported : state.Reported lock)
    (within : (state.store.range lock.keyRangeStart lock.keyRangeEnd).length ≤ maxTikvScanLimit)
    {myId : Uuid} (good : Nat → Prop) (zero : good 0) {j : Uuid} (other : j ≠ myId)
    (all : ∀ shown, (j, shown) ∈ lock.getCurrentStatesExcludingMine state.store myId → good shown.rank) :
    good (state.place j).flag := by
  cases present : state.sections j with
  | none =>
      rw [place, present]
      exact zero
  | some self =>
      rw [place_of_some present, ← (reported.sound j self present).shown]
      by_cases active : self.myState = .s0Noncritical
      · rw [active]
        exact zero
      · exact all self.myState ((reported.mem_states within).mpr ⟨other, self, present, active, rfl⟩)

theorem Reported.flag_of_mem (reported : state.Reported lock)
    (within : (state.store.range lock.keyRangeStart lock.keyRangeEnd).length ≤ maxTikvScanLimit)
    {myId j : Uuid} {shown : SzymanskisState}
    (found : (j, shown) ∈ lock.getCurrentStatesExcludingMine state.store myId) :
    j ≠ myId ∧ (state.place j).flag = shown.rank := by
  obtain ⟨other, self, present, _, isShown⟩ := (reported.mem_states within).mp found
  refine ⟨other, ?_⟩
  rw [place_of_some present, ← (reported.sound j self present).shown, isShown]

/-- What a store operation of an instance does: the instance shows its state and
makes a step of the algorithm, or it polls again. -/
structure Advanced (lock : LockedKey) (state : LockSystem) (id : Uuid)
    (self : SzymanowskiCriticalSection) (done : RawStore × SzymanowskiCriticalSection) : Prop where
  sound : done.2.Sound
  stored : done.1 = state.store ∧ done.2.myState = self.myState ∨
    done.1 = lock.changeOwnState state.store id done.2.myState
  moved : done.2.location = self.location ∨ Move state.place id self.location done.2.location

theorem Reported.advance (reported : state.Reported lock)
    (within : (state.store.range lock.keyRangeStart lock.keyRangeEnd).length ≤ maxTikvScanLimit)
    {id : Uuid} {self : SzymanowskiCriticalSection} (present : state.sections id = some self) :
    Advanced lock state id self (lock.advance state.store id self) := by
  have sound := reported.sound id self present
  obtain ⟨shown, isEntered⟩ := sound
  obtain ⟨myState, entered, call⟩ := self
  have again : Advanced lock state id ⟨myState, entered, call⟩
      (state.store, ⟨myState, entered, call⟩) :=
    ⟨⟨shown, isEntered⟩, Or.inl ⟨rfl, rfl⟩, Or.inl rfl⟩
  unfold LockedKey.advance
  cases call with
  | idle => exact again
  | putIntention => exact ⟨⟨rfl, isEntered⟩, Or.inr rfl, Or.inr .raise⟩
  | pollOpen =>
      dsimp only
      split
      · next done =>
          refine ⟨⟨shown, isEntered⟩, Or.inl ⟨rfl, rfl⟩, Or.inr (.seeOpen ?_)⟩
          intro j other
          apply reported.flag_of_all within (fun flag => flag ≤ 2) (by decide) other
          intro seen found
          have between := List.all_eq_true.mp done (j, seen) found
          simp only [isBetween, Bool.and_eq_true, decide_eq_true_eq] at between
          exact between.2
      · exact again
  | putDoorIn => exact ⟨⟨rfl, isEntered⟩, Or.inr rfl, Or.inr .stepIn⟩
  | scanWaiting =>
      have isDoorIn : myState = .s3DoorIn := rank_inj shown
      subst isDoorIn
      dsimp only
      split
      · next done =>
          refine ⟨⟨rfl, isEntered⟩, Or.inl ⟨rfl, rfl⟩, Or.inr (.seeOther ?_)⟩
          obtain ⟨⟨j, seen⟩, found, isIntention⟩ := List.any_eq_true.mp done
          obtain ⟨other, isFlag⟩ := reported.flag_of_mem within found
          have isSeen : seen = .s1Intention := of_decide_eq_true isIntention
          rw [isSeen] at isFlag
          exact ⟨j, other, isFlag⟩
      · next nobody =>
          refine ⟨⟨rfl, isEntered⟩, Or.inl ⟨rfl, rfl⟩, Or.inr (.seeNone ?_)⟩
          intro j other
          apply reported.flag_of_all within (fun flag => flag ≠ 1) (by decide) other
          intro seen found isOne
          have isSeen : seen = .s1Intention := rank_inj isOne
          apply nobody
          apply List.any_eq_true.mpr
          exact ⟨(j, seen), found, decide_eq_true isSeen⟩
  | putWaitingRoom => exact ⟨⟨rfl, isEntered⟩, Or.inr rfl, Or.inr .stepBack⟩
  | pollDoorOut =>
      have isWaiting : myState = .s2WaitingRoom := rank_inj shown
      subst isWaiting
      dsimp only
      split
      · next done =>
          refine ⟨⟨rfl, isEntered⟩, Or.inl ⟨rfl, rfl⟩, Or.inr (.seeCall ?_)⟩
          obtain ⟨⟨j, seen⟩, found, isOut⟩ := List.any_eq_true.mp done
          obtain ⟨other, isFlag⟩ := reported.flag_of_mem within found
          have isSeen : seen = .s4DoorOut := of_decide_eq_true isOut
          rw [isSeen] at isFlag
          exact ⟨j, other, isFlag⟩
      · exact again
  | putDoorOut =>
      by_cases called : myState = .s2WaitingRoom
      · subst called
        exact ⟨⟨rfl, isEntered⟩, Or.inr rfl, Or.inr .answer⟩
      · have isClosing : SzymanowskiCriticalSection.location ⟨myState, entered, .putDoorOut⟩ =
            .closing := if_neg called
        rw [isClosing] at isEntered
        refine ⟨⟨rfl, isEntered⟩, Or.inr rfl, Or.inr ?_⟩
        rw [isClosing]
        exact .close
  | pollLower =>
      dsimp only
      split
      · next done =>
          refine ⟨⟨shown, rfl⟩, Or.inl ⟨rfl, rfl⟩, Or.inr (.enter ?_)⟩
          intro j below
          apply reported.flag_of_all within (fun flag => flag ≤ 1) (by decide) (ne_of_lt below)
          intro seen found
          have lower := List.all_eq_true.mp done (j, seen) found
          simp only [isBetween, Bool.or_eq_true, Bool.and_eq_true, decide_eq_true_eq] at lower
          rcases lower with notBelow | between
          · exact absurd below (not_lt.mpr notBelow)
          · exact between.2
      · exact again
  | pollHigher =>
      dsimp only
      split
      · next done =>
          refine ⟨⟨shown, isEntered⟩, Or.inl ⟨rfl, rfl⟩, Or.inr (.seeSettled ?_)⟩
          intro j above
          apply reported.flag_of_all within (fun flag => flag ≤ 1 ∨ flag = 4) (by decide)
            (ne_of_gt above)
          intro seen found
          have higher := List.all_eq_true.mp done (j, seen) found
          simp only [Bool.or_eq_true, decide_eq_true_eq] at higher
          rcases higher with notAbove | settled
          · exact absurd above (not_lt.mpr notAbove)
          · cases seen with
            | s0Noncritical => decide
            | s1Intention => decide
            | s4DoorOut => decide
            | s2WaitingRoom => cases settled
            | s3DoorIn => cases settled
      · exact again
  | deleteState => exact ⟨⟨rfl, rfl⟩, Or.inr rfl, Or.inr .lower⟩

theorem place_set (state : LockSystem) (id : Uuid) (self : SzymanowskiCriticalSection) :
    (state.set id self).place = Function.update state.place id self.location := by
  funext j
  by_cases same : j = id
  · subst same
    rw [Function.update_self, place, sections_set_self]
  · rw [Function.update_of_ne same, place, place, sections_set_of_ne state same]

theorem Reported.sound_set (reported : state.Reported lock) {id : Uuid} {self : SzymanowskiCriticalSection}
    (sound : self.Sound) {j : Uuid} {other : SzymanowskiCriticalSection}
    (present : (state.set id self).sections j = some other) : other.Sound := by
  by_cases here : j = id
  · subst here
    rw [sections_set_self] at present
    rw [← Option.some.inj present]
    exact sound
  · rw [sections_set_of_ne state here] at present
    exact reported.sound j other present

theorem Reported.set (reported : state.Reported lock) {id : Uuid} {self : SzymanowskiCriticalSection}
    (sound : self.Sound)
    (same : ∀ value, (∃ old, state.sections id = some old ∧ old.myState ≠ .s0Noncritical ∧
      value = [old.myState.asU8]) ↔ self.myState ≠ .s0Noncritical ∧ value = [self.myState.asU8]) :
    (state.set id self).Reported lock := by
  constructor
  · exact fun j other present => reported.sound_set sound present
  · intro j value
    have sameStore : (state.set id self).store = state.store := rfl
    rw [sameStore]
    by_cases here : j = id
    · subst here
      rw [reported.own, same, sections_set_self]
      simp
    · rw [reported.own, sections_set_of_ne state here]
  · exact reported.others

theorem Reported.show (reported : state.Reported lock) (id : Uuid) {self : SzymanowskiCriticalSection}
    (sound : self.Sound) :
    Reported lock { state.set id self with
      store := lock.changeOwnState state.store id self.myState } := by
  have written : ∀ entry, entry ∈ (lock.changeOwnState state.store id self.myState).entries ↔
      self.myState ≠ .s0Noncritical ∧ entry = (lock.keyForStateReport id, [self.myState.asU8]) ∨
        entry.1 ≠ lock.keyForStateReport id ∧ entry ∈ state.store.entries := by
    intro entry
    unfold LockedKey.changeOwnState
    by_cases none : self.myState = .s0Noncritical
    · rw [if_pos none, SortedMap.mem_delete]
      simp [none]
    · rw [if_neg none, SortedMap.mem_put]
      simp [none]
  constructor
  · exact fun j other present => reported.sound_set sound present
  · intro j value
    change _ ↔ ∃ other, (state.set id self).sections j = some other ∧ _
    rw [written]
    by_cases here : j = id
    · subst here
      rw [sections_set_self]
      simp
    · have otherKey : lock.keyForStateReport j ≠ lock.keyForStateReport id :=
        fun same => here (LockedKey.keyForStateReport_inj same)
      rw [sections_set_of_ne state here, ← reported.own]
      simp [otherKey]
  · intro entry stored
    rcases (written entry).mp stored with ⟨_, isNew⟩ | ⟨_, wasStored⟩
    · left
      exact ⟨id, by rw [isNew]⟩
    · exact reported.others entry wasStored

theorem Reported.foreign (reported : state.Reported lock) {store : RawStore}
    (own : ∀ id value, (lock.keyForStateReport id, value) ∈ store.entries ↔
      (lock.keyForStateReport id, value) ∈ state.store.entries)
    (others : ∀ entry ∈ store.entries, entry ∈ state.store.entries ∨
      ∃ key, lock.IsForeign key ∧ entry.1 = key.bytes lock.keyScope) :
    Reported lock { state with store := store } := by
  refine ⟨reported.sound, ?_, ?_⟩
  · intro id value
    rw [own, reported.own]
  · intro entry stored
    rcases others entry stored with wasStored | isForeign
    · exact reported.others entry wasStored
    · exact Or.inr isForeign

/-- The store shows where the instances stand, and they stand as the algorithm has it. -/
def Excludes (lock : LockedKey) (state : LockSystem) : Prop :=
  state.Reported lock ∧ Invariant state.place

theorem Excludes.step {before after : LockSystem} {event : LockEvent} (holds : before.Excludes lock)
    (taken : Step lock before event after) (unhindered : before.Unhindered lock event) :
    after.Excludes lock := by
  obtain ⟨reported, invariant⟩ := holds
  unfold Step LockSystem.step at taken
  cases event with
  | new id =>
      simp only at taken
      split at taken
      · cases taken
      · next absent =>
          obtain rfl := Option.some.inj taken
          refine ⟨reported.set ⟨rfl, rfl⟩ (by simp [absent, SzymanowskiCriticalSection.new]), ?_⟩
          have isOutside : before.place id = .outside := by
            rw [place, absent]
          have unchanged : Function.update before.place id SzymanowskiCriticalSection.new.location =
              before.place := by
            have same : SzymanowskiCriticalSection.new.location = before.place id := isOutside.symm
            rw [same, Function.update_eq_self]
          rw [place_set, unchanged]
          exact invariant
  | enter id =>
      simp only at taken
      split at taken
      · next self present =>
          split at taken
          · next idle =>
              obtain rfl := Option.some.inj taken
              split
              · exact ⟨reported, invariant⟩
              · next notEntered =>
                  obtain ⟨myState, entered, call⟩ := self
                  have isFalse : entered = false := Bool.eq_false_iff.mpr notEntered
                  subst idle isFalse
                  have sound := reported.sound id _ present
                  refine ⟨reported.set ⟨sound.shown, rfl⟩ (by simp [present]), ?_⟩
                  rw [place_set]
                  apply invariant.step
                  refine ⟨id, _, ?_, rfl⟩
                  rw [place_of_some present]
                  exact .announce
          · cases taken
      · cases taken
  | leave id =>
      simp only at taken
      split at taken
      · next self present =>
          split at taken
          · next idle =>
              obtain rfl := Option.some.inj taken
              split
              · next isEntered =>
                  obtain ⟨myState, entered, call⟩ := self
                  have isTrue : entered = true := isEntered
                  subst idle isTrue
                  have sound := reported.sound id _ present
                  refine ⟨reported.set ⟨sound.shown, rfl⟩ (by simp [present]), ?_⟩
                  rw [place_set]
                  apply invariant.step
                  refine ⟨id, _, ?_, rfl⟩
                  rw [place_of_some present]
                  exact .leave
              · exact ⟨reported, invariant⟩
          · cases taken
      · cases taken
  | advance id =>
      simp only at taken
      split at taken
      · next self present =>
          obtain rfl := Option.some.inj taken
          obtain ⟨sound, stored, moved⟩ := reported.advance unhindered present
          generalize lock.advance before.store id self = done at sound stored moved ⊢
          constructor
          · rcases stored with ⟨sameStore, sameState⟩ | isShown
            · rw [sameStore]
              exact reported.set sound (by simp [present, sameState])
            · rw [isShown]
              exact reported.show id sound
          · have isPlace : place { before.set id done.2 with store := done.1 } =
                Function.update before.place id done.2.location := place_set before id done.2
            rw [isPlace]
            rcases moved with stays | moves
            · rw [stays, ← place_of_some present, Function.update_eq_self]
              exact invariant
            · apply invariant.step
              refine ⟨id, _, ?_, rfl⟩
              rw [place_of_some present]
              exact moves
      · cases taken
  | putOther key value =>
      obtain rfl := Option.some.inj taken
      refine ⟨reported.foreign ?_ ?_, invariant⟩
      · intro id shown
        have different := LockedKey.foreign_ne_own unhindered id
        rw [SortedMap.mem_put]
        simp [different.symm]
      · intro entry stored
        rcases SortedMap.mem_put.mp stored with isNew | ⟨_, wasStored⟩
        · exact Or.inr ⟨key, unhindered, by rw [isNew]⟩
        · exact Or.inl wasStored
  | deleteOther key =>
      obtain rfl := Option.some.inj taken
      refine ⟨reported.foreign ?_ ?_, invariant⟩
      · intro id shown
        have different := LockedKey.foreign_ne_own unhindered id
        rw [SortedMap.mem_delete]
        simp [different.symm]
      · intro entry stored
        exact Or.inl (SortedMap.mem_delete.mp stored).2

/-- Before there are instances: the store holds keys of others only. -/
def Blank (lock : LockedKey) (state : LockSystem) : Prop :=
  (∀ id, state.sections id = none) ∧
    ∀ entry ∈ state.store.entries, ∃ key, lock.IsForeign key ∧ entry.1 = key.bytes lock.keyScope

theorem Blank.excludes (blank : state.Blank lock) : state.Excludes lock := by
  obtain ⟨noSections, allForeign⟩ := blank
  have isPlace : state.place = fun _ => Location.outside := by
    funext id
    rw [place, noSections]
  constructor
  · constructor
    · intro id self present
      rw [noSections] at present
      cases present
    · intro id value
      constructor
      · intro stored
        obtain ⟨key, foreign, isKey⟩ := allForeign _ stored
        exact absurd isKey.symm (LockedKey.foreign_ne_own foreign id)
      · intro shown
        obtain ⟨self, present, _⟩ := shown
        rw [noSections] at present
        cases present
    · exact fun entry stored => Or.inr (allForeign entry stored)
  · rw [isPlace]
    exact invariant_outside

/-- At no time two instances are entered. -/
theorem entered_unique (lock : LockedKey) (first state : LockSystem) (blank : first.Blank lock)
    (run : Run (Step lock) (fun before event => before.Unhindered lock event) first state)
    (left right : Uuid) (one other : SzymanowskiCriticalSection)
    (isOne : state.sections left = some one) (isOther : state.sections right = some other)
    (oneEntered : one.entered = true) (otherEntered : other.entered = true) : left = right := by
  have holds : state.Excludes lock :=
    run.invariant (fun state => state.Excludes lock)
      (fun before event after holds taken unhindered => holds.step taken unhindered) blank.excludes
  obtain ⟨reported, invariant⟩ := holds
  apply invariant.exclusive
  · rw [place_of_some isOne, ← (reported.sound left one isOne).entered]
    exact oneEntered
  · rw [place_of_some isOther, ← (reported.sound right other isOther).entered]
    exact otherEntered

theorem exists_run (lock : LockedKey) (first : LockSystem) (events : List LockEvent)
    (check : LockSystem → Bool)
    (ran : (runAll (restrict (fun before event => before.Unhindered lock event) (step lock)) first
      events).any check = true) :
    ∃ last, Run (Step lock) (fun before event => before.Unhindered lock event) first last ∧
      check last = true :=
  Run.of_restrict (fun _ _ _ taken => taken) events check ran

/-- Two instances pass the door together, and the one with the lower id enters. -/
theorem entered_unique_two :
    ∃ state, Run (Step ⟨[1], [2], 1⟩) (fun before event => before.Unhindered ⟨[1], [2], 1⟩ event)
      ⟨.empty, fun _ => none⟩ state ∧ (state.sections 5).any (fun one => one.entered) = true ∧
      ∀ other, state.sections 9 = some other → other.entered = false := by
  obtain ⟨state, run, check⟩ := exists_run ⟨[1], [2], 1⟩ ⟨.empty, fun _ => none⟩
    [.new 5, .new 9, .enter 5, .enter 9, .advance 5, .advance 9, .putOther (.keyLockState [1] 5) [4],
      .advance 5, .advance 9, .advance 5, .advance 9, .advance 5, .advance 9, .advance 5, .advance 9,
      .advance 9, .advance 5]
    (fun state => (state.sections 5).any fun one => one.entered) (by decide +kernel)
  refine ⟨state, run, check, ?_⟩
  intro other isOther
  obtain ⟨one, isOne, oneEntered⟩ := (Option.any_eq_true _ _).mp check
  by_contra notOut
  have same := entered_unique ⟨[1], [2], 1⟩ ⟨.empty, fun _ => none⟩ state
    ⟨fun _ => rfl, fun _ stored => by cases stored⟩ run 5 9 one other isOne isOther oneEntered
    (Bool.not_eq_false _ ▸ notOut)
  exact absurd same (by decide)

end LockSystem

end TiFs
