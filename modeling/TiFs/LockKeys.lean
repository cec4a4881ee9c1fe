import TiFs.LockExclusion

/-! Two locks with different keys in one store. A state key ends with an id, but the
parser reads an id behind the locked key without asking what follows it, so that a
scan for the participants of one lock can take those of a lock on a longer key for
participants of its own. -/

namespace TiFs

open BigEndian KeyValue SzymanskisState

/-- A change of its own state by an instance on this lock's key or on the other key. -/
structure StateReport where
  onOther : Bool
  id : Uuid
  state : SzymanskisState
  deriving DecidableEq, Repr

def StateReport.shown (reports : List StateReport) : Bool × Uuid → Option SzymanskisState :=
  reports.foldl (fun shown report => Function.update shown (report.onOther, report.id)
    (if report.state = .s0Noncritical then none else some report.state)) fun _ => none

namespace LockedKey

variable (lock : LockedKey) (otherKey : Bytes)

def lockOf (onOther : Bool) : LockedKey :=
  if onOther then { lock with keyToLock := otherKey } else lock

def participantKey (participant : Bool × Uuid) : KeyBuffer :=
  (lock.lockOf otherKey participant.1).keyForStateReport participant.2

def stateKeys (reports : List StateReport) : RawStore :=
  reports.foldl (fun store report =>
    (lock.lockOf otherKey report.onOther).changeOwnState store report.id report.state) SortedMap.empty

def scanned (store : RawStore) : List (KeyBuffer × Bytes) :=
  store.scan lock.keyRangeStart lock.keyRangeEnd maxTikvScanLimit

def stateOf (myId : Uuid) (entry : KeyBuffer × Bytes) : Option (Uuid × SzymanskisState) :=
  match lock.parseLockKey entry.1 with
  | .ok id => if id ≠ myId then some (id, fromU8 (entry.2.headD 0)) else none
  | .error _ => none

theorem getCurrentStatesExcludingMine_eq (store : RawStore) (myId : Uuid) :
    lock.getCurrentStatesExcludingMine store myId = (lock.scanned store).filterMap (lock.stateOf myId) := rfl

/-- The participants of the other lock leave no trace in what an instance gets, and
its own ones come once each with their states. -/
structure StatesUnmixed (reports : List StateReport) (myId : Uuid) : Prop where
  nodup : (lock.getCurrentStatesExcludingMine (lock.stateKeys otherKey reports) myId).Nodup
  others : ∀ id state,
    (id, state) ∈ lock.getCurrentStatesExcludingMine (lock.stateKeys otherKey reports) myId ↔
      id ≠ myId ∧ StateReport.shown reports (false, id) = some state
  apart : ∀ id value, (lock.participantKey otherKey (true, id), value) ∈
    lock.scanned (lock.stateKeys otherKey reports) →
      lock.stateOf myId (lock.participantKey otherKey (true, id), value) = none

/-- A key lies in the scanned range, with fewer keys before it than the scan may return. -/
structure Reached (store : RawStore) (key : KeyBuffer) : Prop where
  within : lock.keyRangeStart ≤ key ∧ key ≤ lock.keyRangeEnd
  few : ((store.range lock.keyRangeStart lock.keyRangeEnd).filter fun entry => entry.1 < key).length <
    maxTikvScanLimit

/-- The id in the first bytes of what follows this lock's key in a state key of a longer one. -/
def idSpelled (rest : Bytes) (id : Uuid) : Uuid :=
  BitVec.ofNat 128 (read ((rest ++ Uuid.asBytes id).take 16))

/-- Every state key of this lock is reached, and no state key of the other lock is that
goes on after this lock's key with bytes that spell another id than the reader's. -/
structure KeysApart (reports : List StateReport) (myId : Uuid) : Prop where
  reached : ∀ id, id ≠ myId → StateReport.shown reports (false, id) ≠ none →
    lock.Reached (lock.stateKeys otherKey reports) (lock.participantKey otherKey (false, id))
  misread : ∀ rest id, otherKey = lock.keyToLock ++ rest → StateReport.shown reports (true, id) ≠ none →
    lock.Reached (lock.stateKeys otherKey reports) (lock.participantKey otherKey (true, id)) →
      idSpelled rest id = myId

variable {lock otherKey}

theorem keyForStateReport_eq (lock : LockedKey) (id : Uuid) : lock.keyForStateReport id =
    lock.keyScope ++ getByRight KeyKind.iter .keyLockStates :: (lock.keyToLock ++ Uuid.asBytes id) :=
  LogicalKey.bytes_eq lock.keyScope (.keyLockState lock.keyToLock id)

theorem participantKey_injective (different : otherKey ≠ lock.keyToLock) :
    Function.Injective (lock.participantKey otherKey) := by
  have apart : ∀ left right : Uuid,
      lock.participantKey otherKey (true, left) ≠ lock.participantKey otherKey (false, right) := by
    intro left right same
    rw [participantKey, participantKey, keyForStateReport_eq, keyForStateReport_eq] at same
    have bodies : otherKey ++ Uuid.asBytes left = lock.keyToLock ++ Uuid.asBytes right :=
      (List.cons.inj (List.append_cancel_left same)).2
    exact different (List.append_inj_left' bodies (by simp))
  rintro ⟨onLeft, left⟩ ⟨onRight, right⟩ same
  cases onLeft <;> cases onRight
  · exact congrArg (Prod.mk false) (keyForStateReport_inj same)
  · exact absurd same.symm (apart right left)
  · exact absurd same (apart left right)
  · exact congrArg (Prod.mk true) (keyForStateReport_inj same)

/-- A state key of a longer locked key is read as one of this lock. -/
theorem parseLockKey_longer {rest : Bytes} (longer : otherKey = lock.keyToLock ++ rest) (id : Uuid) :
    lock.parseLockKey (lock.participantKey otherKey (true, id)) = .ok (idSpelled rest id) := by
  have started := KeyParser.start_bytes lock.keyScope lock.hashLen (.keyLockState otherKey id)
  have isKey : (LogicalKey.keyLockState otherKey id).bytes lock.keyScope =
      lock.participantKey otherKey (true, id) := rfl
  rw [isKey] at started
  rw [parseLockKey, started]
  have enough : ¬ (rest ++ Uuid.asBytes id).length < 16 := by simp
  have body : (LogicalKey.keyLockState otherKey id).body =
      lock.keyToLock ++ (rest ++ Uuid.asBytes id) := by
    rw [← List.append_assoc, ← longer]
    rfl
  rw [body]
  simp [KeyParser.parseLockKey, parseUuid, LogicalKey.kind, idSpelled, bind, Except.bind]
  rfl

theorem parseLockKey_notLonger (notLonger : ¬ lock.keyToLock <+: otherKey) (id : Uuid) :
    ∃ issue, lock.parseLockKey (lock.participantKey otherKey (true, id)) = .error issue := by
  have foreign : lock.IsForeign (.keyLockState otherKey id) := notLonger
  exact parseLockKey_foreign foreign

theorem mem_stateKeys (different : otherKey ≠ lock.keyToLock) (reports : List StateReport)
    {entry : KeyBuffer × Bytes} : entry ∈ (lock.stateKeys otherKey reports).entries ↔
      ∃ participant state, StateReport.shown reports participant = some state ∧
        entry = (lock.participantKey otherKey participant, [state.asU8]) := by
  induction reports using List.reverseRecOn generalizing entry with
  | nil =>
      simp [stateKeys, StateReport.shown, SortedMap.empty]
  | append_singleton reports report ih =>
      have isStore : lock.stateKeys otherKey (reports ++ [report]) =
          (lock.lockOf otherKey report.onOther).changeOwnState (lock.stateKeys otherKey reports)
            report.id report.state := by
        rw [stateKeys, List.foldl_append]
        rfl
      have isShown : StateReport.shown (reports ++ [report]) =
          Function.update (StateReport.shown reports) (report.onOther, report.id)
            (if report.state = .s0Noncritical then none else some report.state) := by
        rw [StateReport.shown, List.foldl_append]
        rfl
      have isKey : (lock.lockOf otherKey report.onOther).keyForStateReport report.id =
          lock.participantKey otherKey (report.onOther, report.id) := rfl
      have kept : ∀ participant state,
          entry = (lock.participantKey otherKey participant, [SzymanskisState.asU8 state]) →
          (entry.1 ≠ lock.participantKey otherKey (report.onOther, report.id) ↔
            participant ≠ (report.onOther, report.id)) := by
        rintro participant state rfl
        exact (participantKey_injective different).ne_iff
      rw [isStore, isShown, changeOwnState, isKey]
      by_cases left : report.state = .s0Noncritical
      · rw [if_pos left, if_pos left, SortedMap.mem_delete, ih]
        constructor
        · rintro ⟨other, participant, state, shows, isEntry⟩
          refine ⟨participant, state, ?_, isEntry⟩
          rw [Function.update_of_ne ((kept participant state isEntry).mp other), shows]
        · rintro ⟨participant, state, shows, isEntry⟩
          have other : participant ≠ (report.onOther, report.id) := by
            rintro rfl
            rw [Function.update_self] at shows
            cases shows
          rw [Function.update_of_ne other] at shows
          exact ⟨(kept participant state isEntry).mpr other, participant, state, shows, isEntry⟩
      · rw [if_neg left, if_neg left, SortedMap.mem_put, ih]
        constructor
        · rintro (isNew | ⟨other, participant, state, shows, isEntry⟩)
          · exact ⟨_, report.state, Function.update_self .., isNew⟩
          · refine ⟨participant, state, ?_, isEntry⟩
            rw [Function.update_of_ne ((kept participant state isEntry).mp other), shows]
        · rintro ⟨participant, state, shows, isEntry⟩
          by_cases same : participant = (report.onOther, report.id)
          · subst same
            rw [Function.update_self] at shows
            rw [← Option.some.inj shows] at isEntry
            exact Or.inl isEntry
          · rw [Function.update_of_ne same] at shows
            exact Or.inr ⟨(kept participant state isEntry).mpr same, participant, state, shows, isEntry⟩

theorem mem_scanned {store : RawStore} {entry : KeyBuffer × Bytes} :
    entry ∈ lock.scanned store ↔ entry ∈ store.entries ∧ lock.Reached store entry.1 := by
  have sorted : (store.range lock.keyRangeStart lock.keyRangeEnd).Pairwise fun left right => left.1 < right.1 :=
    store.sorted.filter _
  rw [scanned, SortedMap.scan, SortedMap.mem_take_iff sorted]
  constructor
  · rintro ⟨ranged, few⟩
    obtain ⟨stored, within⟩ := List.mem_filter.mp ranged
    exact ⟨stored, of_decide_eq_true within, few⟩
  · rintro ⟨stored, within, few⟩
    exact ⟨List.mem_filter.mpr ⟨stored, decide_eq_true within⟩, few⟩

theorem scanned_nodup (store : RawStore) : (lock.scanned store).Nodup :=
  (List.Nodup.of_map Prod.fst store.keys_nodup).sublist
    ((List.take_sublist _ _).trans (List.filter_sublist ..))

theorem stateOf_own (myId id : Uuid) (state : SzymanskisState) :
    lock.stateOf myId (lock.participantKey otherKey (false, id), [state.asU8]) =
      if id ≠ myId then some (id, state) else none := by
  have read : lock.parseLockKey (lock.participantKey otherKey (false, id)) = .ok id :=
    lock.parseLockKey_own id
  simp only [stateOf, read, List.headD_cons, fromU8_asU8]

/-- What a key of the other lock adds: nothing, unless it is longer and spells another id. -/
theorem stateOf_other_iff (myId id : Uuid) (value : Bytes) :
    lock.stateOf myId (lock.participantKey otherKey (true, id), value) = none ↔
      ∀ rest, otherKey = lock.keyToLock ++ rest → idSpelled rest id = myId := by
  by_cases longer : lock.keyToLock <+: otherKey
  · obtain ⟨rest, isOther⟩ := longer
    simp only [stateOf, parseLockKey_longer isOther.symm]
    constructor
    · intro nothing rest' isOther'
      rw [← isOther, List.append_cancel_left_eq] at isOther'
      rw [← isOther']
      by_contra another
      rw [if_pos another] at nothing
      cases nothing
    · intro mine
      rw [if_neg (not_not.mpr (mine rest isOther.symm))]
  · obtain ⟨issue, refused⟩ := parseLockKey_notLonger longer id
    simp only [stateOf, refused, true_iff]
    rintro rest rfl
    exact absurd (List.prefix_append _ _) longer

theorem shown_of_scanned (different : otherKey ≠ lock.keyToLock) {reports : List StateReport}
    {participant : Bool × Uuid} {value : Bytes}
    (found : (lock.participantKey otherKey participant, value) ∈
      lock.scanned (lock.stateKeys otherKey reports)) :
    StateReport.shown reports participant ≠ none ∧
      lock.Reached (lock.stateKeys otherKey reports) (lock.participantKey otherKey participant) := by
  obtain ⟨stored, reached⟩ := mem_scanned.mp found
  obtain ⟨owner, state, shows, isEntry⟩ := (mem_stateKeys different reports).mp stored
  have same := participantKey_injective different (congrArg Prod.fst isEntry)
  refine ⟨?_, reached⟩
  rw [same, shows]
  exact Option.some_ne_none state

theorem scanned_of_shown (different : otherKey ≠ lock.keyToLock) {reports : List StateReport}
    {participant : Bool × Uuid} {state : SzymanskisState}
    (shows : StateReport.shown reports participant = some state)
    (reached : lock.Reached (lock.stateKeys otherKey reports) (lock.participantKey otherKey participant)) :
    (lock.participantKey otherKey participant, [state.asU8]) ∈
      lock.scanned (lock.stateKeys otherKey reports) :=
  mem_scanned.mpr ⟨(mem_stateKeys different reports).mpr ⟨participant, state, shows, rfl⟩, reached⟩

theorem own_of_stateOf (different : otherKey ≠ lock.keyToLock) {reports : List StateReport} {myId : Uuid}
    (apart : ∀ id value, (lock.participantKey otherKey (true, id), value) ∈
      lock.scanned (lock.stateKeys otherKey reports) →
        lock.stateOf myId (lock.participantKey otherKey (true, id), value) = none)
    {entry : KeyBuffer × Bytes} (found : entry ∈ lock.scanned (lock.stateKeys otherKey reports))
    {id : Uuid} {state : SzymanskisState} (counts : lock.stateOf myId entry = some (id, state)) :
    id ≠ myId ∧ StateReport.shown reports (false, id) = some state ∧
      entry = (lock.participantKey otherKey (false, id), [state.asU8]) := by
  obtain ⟨⟨onOther, owner⟩, shownState, shows, isEntry⟩ :=
    (mem_stateKeys different reports).mp (mem_scanned.mp found).1
  subst isEntry
  cases onOther with
  | true =>
      rw [apart owner _ found] at counts
      cases counts
  | false =>
      rw [stateOf_own] at counts
      by_cases mine : owner = myId
      · rw [if_neg (not_not.mpr mine)] at counts
        cases counts
      · rw [if_pos mine, Option.some.injEq, Prod.mk.injEq] at counts
        obtain ⟨rfl, rfl⟩ := counts
        exact ⟨mine, shows, rfl⟩

theorem StatesUnmixed.keysApart (different : otherKey ≠ lock.keyToLock) {reports : List StateReport}
    {myId : Uuid} (unmixed : lock.StatesUnmixed otherKey reports myId) :
    lock.KeysApart otherKey reports myId where
  reached := by
    intro id other shows
    obtain ⟨state, isState⟩ := Option.ne_none_iff_exists'.mp shows
    have listed := (unmixed.others id state).mpr ⟨other, isState⟩
    obtain ⟨entry, found, counts⟩ := List.mem_filterMap.mp listed
    obtain ⟨_, _, isEntry⟩ := own_of_stateOf different unmixed.apart found counts
    have reached := (mem_scanned.mp found).2
    rw [isEntry] at reached
    exact reached
  misread := by
    intro rest id longer shows reached
    obtain ⟨state, isState⟩ := Option.ne_none_iff_exists'.mp shows
    have found := scanned_of_shown different isState reached
    exact (stateOf_other_iff myId id _).mp (unmixed.apart id _ found) rest longer

theorem KeysApart.statesUnmixed (different : otherKey ≠ lock.keyToLock) {reports : List StateReport}
    {myId : Uuid} (keys : lock.KeysApart otherKey reports myId) :
    lock.StatesUnmixed otherKey reports myId := by
  have apart : ∀ id value, (lock.participantKey otherKey (true, id), value) ∈
      lock.scanned (lock.stateKeys otherKey reports) →
        lock.stateOf myId (lock.participantKey otherKey (true, id), value) = none := by
    intro id value found
    obtain ⟨shows, reached⟩ := shown_of_scanned different found
    exact (stateOf_other_iff myId id value).mpr fun rest longer => keys.misread rest id longer shows reached
  refine ⟨?_, ?_, apart⟩
  · rw [getCurrentStatesExcludingMine_eq, List.Nodup, List.pairwise_filterMap]
    refine (scanned_nodup _).imp_of_mem ?_
    rintro first second inFirst inSecond distinct state countsFirst _ countsSecond rfl
    have isFirst := (own_of_stateOf different apart inFirst countsFirst).2.2
    have isSecond := (own_of_stateOf different apart inSecond countsSecond).2.2
    exact distinct (isFirst.trans isSecond.symm)
  · intro id state
    rw [getCurrentStatesExcludingMine_eq, List.mem_filterMap]
    constructor
    · rintro ⟨entry, found, counts⟩
      obtain ⟨other, shows, _⟩ := own_of_stateOf different apart found counts
      exact ⟨other, shows⟩
    · rintro ⟨other, shows⟩
      have reached := keys.reached id other (by rw [shows]; exact Option.some_ne_none state)
      refine ⟨_, scanned_of_shown different shows reached, ?_⟩
      rw [stateOf_own, if_pos other]

/-- An instance gets the states of the other instances on its key and of no instance on
another key exactly if the scan reaches the state keys of its own lock and none of the
other lock that it misreads. -/
theorem states_unmixed_iff (lock : LockedKey) (otherKey : Bytes) (different : otherKey ≠ lock.keyToLock)
    (reports : List StateReport) (myId : Uuid) :
    lock.StatesUnmixed otherKey reports myId ↔ lock.KeysApart otherKey reports myId :=
  ⟨StatesUnmixed.keysApart different, KeysApart.statesUnmixed different⟩

/-- An instance on `[1]` that sees another one on `[1]` and none on `[2]`. -/
theorem states_unmixed_two_keys : LockedKey.StatesUnmixed ⟨[], [1], 32⟩ [2]
    [⟨false, 7, .s3DoorIn⟩, ⟨true, 8, .s1Intention⟩] 5 := by
  apply (states_unmixed_iff ⟨[], [1], 32⟩ [2] (by decide) _ 5).mpr
  constructor
  · intro id _ shows
    have isOther : id = 7 := by
      by_contra another
      have distinct : ((false, id) : Bool × Uuid) ≠ (false, 7) := fun same => another (congrArg Prod.snd same)
      apply shows
      simp only [StateReport.shown, List.foldl_cons, List.foldl_nil]
      rw [Function.update_of_ne (by simp), if_neg (by decide), Function.update_of_ne distinct]
    subst isOther
    exact ⟨by decide +kernel, by decide +kernel⟩
  · intro rest id longer
    cases longer

/-- An instance on `[1, 2]` is taken for one on `[1]` with an id that nobody has. -/
theorem states_unmixed_phantom : ¬ ∀ (lock : LockedKey) (otherKey : Bytes),
    otherKey ≠ lock.keyToLock → ∀ (reports : List StateReport) (myId : Uuid),
      lock.StatesUnmixed otherKey reports myId := by
  intro claimed
  have unmixed := claimed ⟨[], [1], 32⟩ [1, 2] (by decide) [⟨true, 7, .s3DoorIn⟩] 5
  have phantom := (unmixed.others (idSpelled [2] 7) .s3DoorIn).mp (by decide +kernel)
  exact absurd phantom.2 (by decide +kernel)

end LockedKey

end TiFs
