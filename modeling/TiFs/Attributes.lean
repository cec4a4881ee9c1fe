import TiFs.HashFsInterface
import TiFs.Library.Table

/-! `inode_set_all_attributes`: the attribute record of an inode is read in one transaction
and written back in another, so that calls keep each other's fields only if none of them
reads the record between the two transactions of another. -/

namespace TiFs

open KeyValue Tables

def getTimeFromTimeOrNow (now : SystemTime) : TimeOrNow → SystemTime
  | .specificTime time => time
  | .now => now

def setIfChanged {T : Type} [DecidableEq T] (changeCnt : Nat) (field : T) : Option T → Nat × T
  | some newValue => if field ≠ newValue then (changeCnt + 1, newValue) else (changeCnt, field)
  | none => (changeCnt, field)

def SetAttributes.update (attributes : SetAttributes) (now : SystemTime) (inoAttr : InoStorageFileAttr) :
    Nat × InoStorageFileAttr :=
  let perm := setIfChanged 0 inoAttr.perm (attributes.mode.map UInt16.toNat)
  let uid := setIfChanged perm.1 inoAttr.uid attributes.uid
  let gid := setIfChanged uid.1 inoAttr.gid attributes.gid
  let lastChange := setIfChanged gid.1 inoAttr.lastChange (some (attributes.ctime.getD now))
  let flags := setIfChanged lastChange.1 inoAttr.flags attributes.flags
  (flags.1, { inoAttr with perm := perm.2, uid := uid.2, gid := gid.2, lastChange := lastChange.2, flags := flags.2 })

inductive SetAttrPhase where
  | putAtime
  | putMtime
  | fetchAttr
  | putAttr (inoAttr : InoStorageFileAttr)
  | returned (result : HashFsResult Unit)
  deriving DecidableEq

structure SetAttrCall where
  ino : StorageIno
  attributes : SetAttributes
  phase : SetAttrPhase

def SetAttrCall.start (ino : StorageIno) (attributes : SetAttributes) : SetAttrCall :=
  ⟨ino, attributes, .putAtime⟩

/-- A time that is not given has no transaction. The size and the times of creation, change
and backup are not looked at. -/
def SetAttrCall.step (now : SystemTime) (call : SetAttrCall) (store : Store) : SetAttrPhase × Store :=
  match call.phase with
  | .putAtime =>
      match call.attributes.atime with
      | some atimeModification => (.putMtime, applyAll store
          [Mutation.put (.inodeX call.ino .accessTime) (getTimeFromTimeOrNow now atimeModification)])
      | none => (.putMtime, store)
  | .putMtime =>
      match call.attributes.mtime with
      | some mtimeModification => (.fetchAttr, applyAll store
          [Mutation.put (.inodeX call.ino .modificationTime) (getTimeFromTimeOrNow now mtimeModification)])
      | none => (.fetchAttr, store)
  | .fetchAttr =>
      match store.lookup (.inodeX call.ino .unixAttributes) with
      | some inoAttr =>
          if 0 < (call.attributes.update now inoAttr).1 then
            (.putAttr (call.attributes.update now inoAttr).2, store)
          else (.returned (.ok ()), store)
      | none =>
          (.returned (.error (.ofFsError (.keyNotFound (some (.inodeX call.ino .unixAttributes))))), store)
  | .putAttr inoAttr =>
      (.returned (.ok ()), applyAll store [Mutation.put (.inodeX call.ino .unixAttributes) inoAttr])
  | .returned result => (.returned result, store)

structure SetAttrSystem where
  store : Store
  calls : List SetAttrCall

inductive SetAttrEvent where
  | advance (call : Nat) (now : SystemTime)

def SetAttrSystem.step (state : SetAttrSystem) : SetAttrEvent → Option SetAttrSystem
  | .advance i now =>
      (state.calls[i]?).map fun call =>
        ⟨(call.step now state.store).2, state.calls.set i { call with phase := (call.step now state.store).1 }⟩

def SetAttrSystem.Step (before : SetAttrSystem) (event : SetAttrEvent) (after : SetAttrSystem) : Prop :=
  before.step event = some after

def SetAttrSystem.begin (store : Store) (ino : StorageIno) (updates : List SetAttributes) : SetAttrSystem :=
  ⟨store, updates.map (SetAttrCall.start ino)⟩

structure SetAttributes.Visible (attributes : SetAttributes) (inoAttr : InoStorageFileAttr) : Prop where
  mode : ∀ mode ∈ attributes.mode, inoAttr.perm = mode.toNat
  uid : ∀ uid ∈ attributes.uid, inoAttr.uid = uid
  gid : ∀ gid ∈ attributes.gid, inoAttr.gid = gid
  flags : ∀ flags ∈ attributes.flags, inoAttr.flags = flags

structure SetAttributes.Disjoint (first second : SetAttributes) : Prop where
  mode : first.mode = none ∨ second.mode = none
  uid : first.uid = none ∨ second.uid = none
  gid : first.gid = none ∨ second.gid = none
  flags : first.flags = none ∨ second.flags = none

def SetAttrPhase.isHolding : SetAttrPhase → Bool
  | .putAttr _ => true
  | _ => false

/-- A call reads the record only while no call has still to write it back. -/
def SetAttrSystem.ReadsAlone (state : SetAttrSystem) : SetAttrEvent → Prop
  | .advance i _ => ∀ call ∈ state.calls[i]?, call.phase = .fetchAttr →
      ∀ other ∈ state.calls, other.phase.isHolding = false

instance (state : SetAttrSystem) : (event : SetAttrEvent) → Decidable (state.ReadsAlone event)
  | .advance i _ => inferInstanceAs (Decidable (∀ call ∈ state.calls[i]?, call.phase = .fetchAttr →
      ∀ other ∈ state.calls, other.phase.isHolding = false))

section Update

variable {T : Type} [DecidableEq T] (changeCnt : Nat) (field : T) (new : Option T)

theorem setIfChanged_snd : (setIfChanged changeCnt field new).2 = new.getD field := by
  cases new with
  | none => rfl
  | some newValue =>
      by_cases changed : field = newValue
      · simp [setIfChanged, changed]
      · simp [setIfChanged, changed]

theorem setIfChanged_fst :
    (setIfChanged changeCnt field new).1 = changeCnt + if new.getD field = field then 0 else 1 := by
  cases new with
  | none => simp [setIfChanged]
  | some newValue =>
      by_cases changed : field = newValue
      · simp [setIfChanged, changed]
      · simp [setIfChanged, changed, Ne.symm changed]

end Update

section Record

variable {attributes other : SetAttributes} {now : SystemTime} {inoAttr : InoStorageFileAttr}

theorem update_snd (attributes : SetAttributes) (now : SystemTime) (inoAttr : InoStorageFileAttr) :
    (attributes.update now inoAttr).2 =
      { inoAttr with
        perm := (attributes.mode.map UInt16.toNat).getD inoAttr.perm
        uid := attributes.uid.getD inoAttr.uid
        gid := attributes.gid.getD inoAttr.gid
        lastChange := attributes.ctime.getD now
        flags := attributes.flags.getD inoAttr.flags } := by
  simp only [SetAttributes.update, setIfChanged_snd, Option.getD_some]

theorem update_unchanged (unchanged : (attributes.update now inoAttr).1 = 0) :
    (attributes.update now inoAttr).2 = inoAttr := by
  rw [update_snd]
  simp only [SetAttributes.update, setIfChanged_fst, Nat.add_eq_zero_iff, ite_eq_left_iff, one_ne_zero,
    imp_false, not_not, true_and, Option.getD_some] at unchanged
  obtain ⟨⟨⟨⟨perm, uid⟩, gid⟩, lastChange⟩, flags⟩ := unchanged
  rw [perm, uid, gid, lastChange, flags]

theorem update_visible (attributes : SetAttributes) (now : SystemTime) (inoAttr : InoStorageFileAttr) :
    attributes.Visible (attributes.update now inoAttr).2 := by
  rw [update_snd]
  constructor
  · intro mode given
    simp [Option.mem_def.mp given]
  · intro uid given
    simp [Option.mem_def.mp given]
  · intro gid given
    simp [Option.mem_def.mp given]
  · intro flags given
    simp [Option.mem_def.mp given]

/-- A call changes none of the fields that only another one gives. -/
theorem SetAttributes.Visible.update (visible : other.Visible inoAttr) (disjoint : attributes.Disjoint other) :
    other.Visible (attributes.update now inoAttr).2 := by
  rw [update_snd]
  constructor
  · intro mode given
    rw [disjoint.mode.resolve_right (Option.ne_none_iff_exists'.mpr ⟨mode, given⟩)]
    exact visible.mode mode given
  · intro uid given
    rw [disjoint.uid.resolve_right (Option.ne_none_iff_exists'.mpr ⟨uid, given⟩)]
    exact visible.uid uid given
  · intro gid given
    rw [disjoint.gid.resolve_right (Option.ne_none_iff_exists'.mpr ⟨gid, given⟩)]
    exact visible.gid gid given
  · intro flags given
    rw [disjoint.flags.resolve_right (Option.ne_none_iff_exists'.mpr ⟨flags, given⟩)]
    exact visible.flags flags given

end Record

inductive AttrMove (call : SetAttrCall) (record : Option InoStorageFileAttr) :
    SetAttrPhase → Option InoStorageFileAttr → Prop
  | timed (phase : SetAttrPhase) (pending : phase = .putMtime ∨ phase = .fetchAttr) :
      AttrMove call record phase record
  | read (now : SystemTime) (inoAttr : InoStorageFileAttr) (current : call.phase = .fetchAttr)
      (stored : record = some inoAttr) :
      AttrMove call record (.putAttr (call.attributes.update now inoAttr).2) record
  | unchanged (now : SystemTime) (inoAttr : InoStorageFileAttr) (stored : record = some inoAttr)
      (same : (call.attributes.update now inoAttr).2 = inoAttr) :
      AttrMove call record (.returned (.ok ())) record
  | missing (issue : HashFsError) : AttrMove call record (.returned (.error issue)) record
  | written (inoAttr : InoStorageFileAttr) (current : call.phase = .putAttr inoAttr) :
      AttrMove call record (.returned (.ok ())) (some inoAttr)
  | idle (result : HashFsResult Unit) (current : call.phase = .returned result) :
      AttrMove call record (.returned result) record

def attrRecord (store : Store) (ino : StorageIno) : Option InoStorageFileAttr :=
  store.lookup (.inodeX ino .unixAttributes)

theorem SetAttrCall.move_of_step (now : SystemTime) (call : SetAttrCall) (store : Store) :
    AttrMove call (attrRecord store call.ino) (call.step now store).1
      (attrRecord (call.step now store).2 call.ino) := by
  have other : ∀ (kind : InoMetadata) (value : kind.Value), kind ≠ .unixAttributes →
      attrRecord (applyAll store [Mutation.put (.inodeX call.ino kind) value]) call.ino =
        attrRecord store call.ino :=
    fun kind value different => lookup_put_of_ne store _ _ _ (by simpa using different.symm)
  unfold SetAttrCall.step
  split
  · split
    · rw [other .accessTime _ (by decide)]
      exact .timed _ (Or.inl rfl)
    · exact .timed _ (Or.inl rfl)
  · split
    · rw [other .modificationTime _ (by decide)]
      exact .timed _ (Or.inr rfl)
    · exact .timed _ (Or.inr rfl)
  · next current =>
      split
      · next inoAttr stored =>
          split
          · exact .read now inoAttr current stored
          · next uncounted =>
              exact .unchanged now inoAttr stored (update_unchanged (Nat.eq_zero_of_not_pos uncounted))
      · exact .missing _
  · next inoAttr current =>
      have isRecord : attrRecord (applyAll store
          [Mutation.put (.inodeX call.ino .unixAttributes) inoAttr]) call.ino = some inoAttr :=
        lookup_put_self store _ _
      rw [isRecord]
      exact .written inoAttr current
  · next result current => exact .idle result current

namespace SetAttrSystem

/-- What calls that read alone keep: a record that is held is made of the stored one, only
one is held at a time, and the fields of the calls that have returned are stored. -/
structure Kept (ino : StorageIno) (updates : List SetAttributes) (state : SetAttrSystem) : Prop where
  inos : ∀ call ∈ state.calls, call.ino = ino
  calls : state.calls.map SetAttrCall.attributes = updates
  held : ∀ (i : Nat) (call : SetAttrCall) (inoAttr : InoStorageFileAttr), state.calls[i]? = some call →
    call.phase = .putAttr inoAttr → ∃ stored now, attrRecord state.store ino = some stored ∧
      inoAttr = (call.attributes.update now stored).2
  alone : ∀ (i j : Nat) (first second : SetAttrCall), state.calls[i]? = some first →
    state.calls[j]? = some second → first.phase.isHolding → second.phase.isHolding → i = j
  visible : ∀ call ∈ state.calls, call.phase = .returned (.ok ()) →
    ∃ stored, attrRecord state.store ino = some stored ∧ call.attributes.Visible stored

section Kept

variable {ino : StorageIno} {updates : List SetAttributes} {state after : SetAttrSystem}

theorem kept_begin (store : Store) (ino : StorageIno) (updates : List SetAttributes) :
    Kept ino updates (begin store ino updates) := by
  have starts : ∀ call ∈ (begin store ino updates).calls, call.ino = ino ∧ call.phase = .putAtime := by
    intro call member
    obtain ⟨attributes, _, rfl⟩ := List.mem_map.mp member
    exact ⟨rfl, rfl⟩
  constructor
  · exact fun call member => (starts call member).1
  · simp only [begin, List.map_map]
    exact List.map_id _
  · intro i call inoAttr found holding
    rw [(starts call (List.mem_of_getElem? found)).2] at holding
    cases holding
  · intro i j first second found _ holding
    rw [(starts first (List.mem_of_getElem? found)).2] at holding
    cases holding
  · intro call member returned
    rw [(starts call member).2] at returned
    cases returned

theorem Kept.disjoint (kept : Kept ino updates state) (apart : updates.Pairwise SetAttributes.Disjoint)
    {i j : Nat} {first second : SetAttrCall} (isFirst : state.calls[i]? = some first)
    (isSecond : state.calls[j]? = some second) (different : i ≠ j) :
    first.attributes.Disjoint second.attributes := by
  have given : ∀ (k : Nat) (call : SetAttrCall), state.calls[k]? = some call →
      updates[k]? = some call.attributes := by
    intro k call found
    rw [← kept.calls, List.getElem?_map, found]
    rfl
  obtain ⟨below, atFirst⟩ := List.getElem?_eq_some_iff.mp (given i first isFirst)
  obtain ⟨inside, atSecond⟩ := List.getElem?_eq_some_iff.mp (given j second isSecond)
  have pairs := List.pairwise_iff_getElem.mp apart
  rw [← atFirst, ← atSecond]
  rcases Nat.lt_or_gt_of_ne different with before | behind
  · exact pairs i j below inside before
  · have turned := pairs j i inside below behind
    exact ⟨turned.mode.symm, turned.uid.symm, turned.gid.symm, turned.flags.symm⟩

theorem Kept.stored_visible (kept : Kept ino updates state) (apart : updates.Pairwise SetAttributes.Disjoint)
    {i : Nat} {call : SetAttrCall} (present : state.calls[i]? = some call) {inoAttr : InoStorageFileAttr}
    (holding : call.phase = .putAttr inoAttr) :
    call.attributes.Visible inoAttr ∧ ∀ (j : Nat) (other : SetAttrCall), state.calls[j]? = some other → i ≠ j →
      other.phase = .returned (.ok ()) → other.attributes.Visible inoAttr := by
  obtain ⟨stored, now, isStored, rfl⟩ := kept.held i call inoAttr present holding
  refine ⟨update_visible _ _ _, ?_⟩
  intro j other found different returned
  obtain ⟨record, isRecord, visible⟩ := kept.visible other (List.mem_of_getElem? found) returned
  rw [isStored] at isRecord
  obtain rfl := Option.some.inj isRecord
  exact visible.update (kept.disjoint apart present found different)

section Moved

variable {i : Nat} {call : SetAttrCall} {phase : SetAttrPhase} {store : Store}
  (kept : Kept ino updates state) (present : state.calls[i]? = some call)

include kept present

theorem Kept.same_calls (phase : SetAttrPhase) :
    (∀ other ∈ state.calls.set i { call with phase := phase }, other.ino = ino) ∧
      (state.calls.set i { call with phase := phase }).map SetAttrCall.attributes = updates := by
  constructor
  · intro other member
    rcases List.mem_or_eq_of_mem_set member with inCalls | rfl
    · exact kept.inos other inCalls
    · exact kept.inos call (List.mem_of_getElem? present)
  · have same : (state.calls.set i { call with phase := phase }).map SetAttrCall.attributes =
        state.calls.map SetAttrCall.attributes := map_set_same present rfl
    exact same.trans kept.calls

theorem Kept.quiet (same : attrRecord store ino = attrRecord state.store ino)
    (notHolding : phase.isHolding = false)
    (visible : phase = .returned (.ok ()) →
      ∃ stored, attrRecord state.store ino = some stored ∧ call.attributes.Visible stored) :
    Kept ino updates ⟨store, state.calls.set i { call with phase := phase }⟩ := by
  obtain ⟨inos, calls⟩ := kept.same_calls present phase
  refine ⟨inos, calls, ?_, ?_, ?_⟩
  · intro j other inoAttr found holding
    rcases getElem?_set_cases found with ⟨rfl, rfl⟩ | ⟨_, earlier⟩
    · rw [show phase = .putAttr inoAttr from holding] at notHolding
      cases notHolding
    · rw [same]
      exact kept.held j other inoAttr earlier holding
  · intro j k first second isFirst isSecond firstHolds secondHolds
    rcases getElem?_set_cases isFirst with ⟨rfl, rfl⟩ | ⟨_, wasFirst⟩
    · rw [show phase.isHolding = true from firstHolds] at notHolding
      cases notHolding
    · rcases getElem?_set_cases isSecond with ⟨rfl, rfl⟩ | ⟨_, wasSecond⟩
      · rw [show phase.isHolding = true from secondHolds] at notHolding
        cases notHolding
      · exact kept.alone j k first second wasFirst wasSecond firstHolds secondHolds
  · intro other member returned
    rw [same]
    rcases List.mem_or_eq_of_mem_set member with inCalls | rfl
    · exact kept.visible other inCalls returned
    · exact visible returned

theorem Kept.read (same : attrRecord store ino = attrRecord state.store ino) (now : SystemTime)
    {inoAttr : InoStorageFileAttr} (stored : attrRecord state.store ino = some inoAttr)
    (readsAlone : ∀ other ∈ state.calls, other.phase.isHolding = false) :
    Kept ino updates ⟨store, state.calls.set i
      { call with phase := .putAttr (call.attributes.update now inoAttr).2 }⟩ := by
  obtain ⟨inos, calls⟩ := kept.same_calls present (.putAttr (call.attributes.update now inoAttr).2)
  refine ⟨inos, calls, ?_, ?_, ?_⟩
  · intro j other record found holding
    rw [same]
    rcases getElem?_set_cases found with ⟨rfl, rfl⟩ | ⟨_, earlier⟩
    · exact ⟨inoAttr, now, stored, (SetAttrPhase.putAttr.inj holding).symm⟩
    · exact kept.held j other record earlier holding
  · have isCall : ∀ (j : Nat) (other : SetAttrCall), (state.calls.set i
        { call with phase := .putAttr (call.attributes.update now inoAttr).2 })[j]? = some other →
        other.phase.isHolding → i = j := by
      intro j other found holding
      rcases getElem?_set_cases found with ⟨same, _⟩ | ⟨_, earlier⟩
      · exact same
      · rw [readsAlone other (List.mem_of_getElem? earlier)] at holding
        cases holding
    intro j k first second isFirst isSecond firstHolds secondHolds
    exact (isCall j first isFirst firstHolds).symm.trans (isCall k second isSecond secondHolds)
  · intro other member returned
    rw [same]
    rcases List.mem_or_eq_of_mem_set member with inCalls | rfl
    · exact kept.visible other inCalls returned
    · cases returned

theorem Kept.written (apart : updates.Pairwise SetAttributes.Disjoint) {inoAttr : InoStorageFileAttr}
    (current : call.phase = .putAttr inoAttr) (isStored : attrRecord store ino = some inoAttr) :
    Kept ino updates ⟨store, state.calls.set i { call with phase := .returned (.ok ()) }⟩ := by
  obtain ⟨inos, calls⟩ := kept.same_calls present (.returned (.ok ()))
  obtain ⟨own, others⟩ := kept.stored_visible apart present current
  -- The call was the only one that held a record.
  have released : ∀ (j : Nat) (other : SetAttrCall),
      (state.calls.set i { call with phase := .returned (.ok ()) })[j]? = some other →
      other.phase.isHolding = false := by
    intro j other found
    rcases getElem?_set_cases found with ⟨_, rfl⟩ | ⟨different, earlier⟩
    · rfl
    · by_contra holding
      exact different (kept.alone i j call other present earlier (by rw [current]; rfl)
        (by simpa using holding))
  refine ⟨inos, calls, ?_, ?_, ?_⟩
  · intro j other record found holding
    have notHolding := released j other found
    rw [holding] at notHolding
    cases notHolding
  · intro j k first second isFirst _ holding
    rw [released j first isFirst] at holding
    cases holding
  · intro other member returned
    refine ⟨inoAttr, isStored, ?_⟩
    obtain ⟨j, found⟩ := List.mem_iff_getElem?.mp member
    rcases getElem?_set_cases found with ⟨_, rfl⟩ | ⟨different, earlier⟩
    · exact own
    · exact others j other earlier different returned

end Moved

theorem Kept.step (apart : updates.Pairwise SetAttributes.Disjoint) {event : SetAttrEvent}
    (kept : Kept ino updates state) (taken : state.Step event after) (may : state.ReadsAlone event) :
    Kept ino updates after := by
  obtain ⟨i, now⟩ := event
  obtain ⟨call, present, rfl⟩ := Option.map_eq_some_iff.mp taken
  have move := call.move_of_step now state.store
  rw [kept.inos call (List.mem_of_getElem? present)] at move
  generalize isAfter : attrRecord (call.step now state.store).2 ino = record at move
  generalize (call.step now state.store).1 = phase at move
  cases move with
  | timed phase pending =>
      refine kept.quiet present isAfter ?_ ?_
      · rcases pending with rfl | rfl <;> rfl
      · rintro rfl
        rcases pending with isTime | isTime <;> cases isTime
  | read now inoAttr current stored => exact kept.read present isAfter now stored (may call present current)
  | unchanged now inoAttr stored same =>
      refine kept.quiet present isAfter rfl fun _ => ⟨inoAttr, stored, ?_⟩
      have visible := update_visible call.attributes now inoAttr
      rw [same] at visible
      exact visible
  | missing issue => exact kept.quiet present isAfter rfl fun returned => by cases returned
  | written inoAttr current => exact kept.written present apart current isAfter
  | idle result current =>
      refine kept.quiet present isAfter rfl fun returned => ?_
      exact kept.visible call (List.mem_of_getElem? present) (current.trans returned)

end Kept

/-- Two calls on one inode that give different fields, neither of which reads the record
while the other has still to write it back: when both have returned, the record has the
fields of both. -/
theorem both_updates_kept (store : Store) (ino : StorageIno) (first second : SetAttributes)
    (disjoint : first.Disjoint second) (last : SetAttrSystem)
    (run : Run SetAttrSystem.Step SetAttrSystem.ReadsAlone (begin store ino [first, second]) last)
    (returned : ∀ call ∈ last.calls, call.phase = .returned (.ok ())) :
    ∃ inoAttr, last.store.lookup (.inodeX ino .unixAttributes) = some inoAttr ∧
      first.Visible inoAttr ∧ second.Visible inoAttr := by
  have apart : [first, second].Pairwise SetAttributes.Disjoint := by
    simpa using disjoint
  have kept : Kept ino [first, second] last := by
    refine Run.invariant (Kept ino [first, second]) ?_ (kept_begin store ino [first, second]) run
    intro before event after kept taken may
    exact kept.step apart taken may
  have all : ∀ attributes ∈ [first, second], ∃ inoAttr, attrRecord last.store ino = some inoAttr ∧
      attributes.Visible inoAttr := by
    intro attributes member
    rw [← kept.calls] at member
    obtain ⟨call, inCalls, rfl⟩ := List.mem_map.mp member
    exact kept.visible call inCalls (returned call inCalls)
  obtain ⟨inoAttr, stored, firstVisible⟩ := all first (by simp)
  obtain ⟨other, alsoStored, secondVisible⟩ := all second (by simp)
  rw [stored] at alsoStored
  obtain rfl := Option.some.inj alsoStored
  exact ⟨inoAttr, stored, firstVisible, secondVisible⟩

def attrStore : Store := applyAll ∅ [Mutation.put (.inodeX 10 .unixAttributes) ⟨420, 0, 0, 0, 0, 0⟩]

def noAttributes : SetAttributes :=
  ⟨none, none, none, none, none, none, none, none, none, none, none⟩

def chmod (mode : StorageFilePermission) : SetAttributes := { noAttributes with mode := some mode }

def chown (uid : Nat) : SetAttributes := { noAttributes with uid := some uid }

theorem chmod_chown_disjoint (mode : StorageFilePermission) (uid : Nat) : (chmod mode).Disjoint (chown uid) :=
  ⟨Or.inr rfl, Or.inl rfl, Or.inl rfl, Or.inl rfl⟩

theorem exists_run (allowed : SetAttrSystem → SetAttrEvent → Prop)
    [∀ state event, Decidable (allowed state event)] (first : SetAttrSystem) (events : List SetAttrEvent)
    (check : SetAttrSystem → Bool)
    (ran : (runAll (restrict allowed SetAttrSystem.step) first events).any check = true) :
    ∃ last, Run SetAttrSystem.Step allowed first last ∧ check last = true :=
  Run.of_restrict (fun _ _ _ taken => taken) events check ran

def allReturned (state : SetAttrSystem) : Bool :=
  state.calls.all fun call => call.phase = .returned (.ok ())

theorem phases_of_allReturned {state : SetAttrSystem} (checked : allReturned state = true) :
    ∀ call ∈ state.calls, call.phase = .returned (.ok ()) :=
  fun call member => of_decide_eq_true (List.all_eq_true.mp checked call member)

/-- One call after the other. -/
theorem both_updates_kept_in_turn :
    ∃ last inoAttr, Run SetAttrSystem.Step SetAttrSystem.ReadsAlone
        (begin attrStore 10 [chmod 384, chown 5]) last ∧
      last.store.lookup (.inodeX 10 .unixAttributes) = some inoAttr ∧
      (chmod 384).Visible inoAttr ∧ (chown 5).Visible inoAttr := by
  obtain ⟨last, run, returned⟩ := exists_run SetAttrSystem.ReadsAlone (begin attrStore 10 [chmod 384, chown 5])
    [.advance 0 1, .advance 0 1, .advance 0 1, .advance 0 1, .advance 1 2, .advance 1 2, .advance 1 2,
      .advance 1 2] allReturned (by decide +kernel)
  obtain ⟨inoAttr, kept⟩ := both_updates_kept attrStore 10 (chmod 384) (chown 5) (chmod_chown_disjoint 384 5)
    last run (phases_of_allReturned returned)
  exact ⟨last, inoAttr, run, kept⟩

/-- A change of the mode and a change of the owner that both read the record first: the one
that is written back first is lost. -/
theorem concurrent_update_lost :
    ¬ ∀ (store : Store) (ino : StorageIno) (first second : SetAttributes), first.Disjoint second →
      ∀ last, Run SetAttrSystem.Step (fun _ _ => True) (begin store ino [first, second]) last →
      (∀ call ∈ last.calls, call.phase = .returned (.ok ())) →
      ∃ inoAttr, last.store.lookup (.inodeX ino .unixAttributes) = some inoAttr ∧
        first.Visible inoAttr ∧ second.Visible inoAttr := by
  intro claim
  obtain ⟨last, run, checked⟩ := exists_run (fun _ _ => True) (begin attrStore 10 [chmod 384, chown 5])
    [.advance 0 1, .advance 0 1, .advance 0 1, .advance 1 1, .advance 1 1, .advance 1 1, .advance 0 1,
      .advance 1 1]
    (fun last => allReturned last && decide (attrRecord last.store 10 = some ⟨420, 5, 0, 0, 0, 1⟩))
    (by decide +kernel)
  obtain ⟨returned, isRecord⟩ := Bool.and_eq_true_iff.mp checked
  obtain ⟨inoAttr, stored, visible, _⟩ := claim attrStore 10 (chmod 384) (chown 5) (chmod_chown_disjoint 384 5)
    last run (phases_of_allReturned returned)
  have isOld := (of_decide_eq_true isRecord).symm.trans stored
  have isMode := visible.mode 384 rfl
  rw [← Option.some.inj isOld] at isMode
  exact absurd isMode (by decide)

end SetAttrSystem

end TiFs
