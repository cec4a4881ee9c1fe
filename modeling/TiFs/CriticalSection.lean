import TiFs.KeyRanges
import TiFs.Library.SortedMap
import TiFs.Library.WaitingRoom

/-! The lock that clients take through the store: each instance shows its state
under a key of its own and polls the states of all others by a scan. A step of an
instance is one store operation with the code behind it. -/

namespace TiFs

open KeyValue WaitingRoom

inductive SzymanskisState where
  | s0Noncritical
  | s1Intention
  | s2WaitingRoom
  | s3DoorIn
  | s4DoorOut
  deriving DecidableEq, Repr

namespace SzymanskisState

def iter : List SzymanskisState :=
  [.s0Noncritical, .s1Intention, .s2WaitingRoom, .s3DoorIn, .s4DoorOut]

/-- The derived order. -/
def rank (state : SzymanskisState) : Nat := iter.idxOf state

def asU8 (state : SzymanskisState) : UInt8 := getByRight iter state

def fromU8 (id : UInt8) : SzymanskisState := (getByLeft iter id).getD .s0Noncritical

@[simp] theorem fromU8_asU8 (state : SzymanskisState) : fromU8 state.asU8 = state := by
  cases state <;> rfl

theorem rank_inj {left right : SzymanskisState} (same : left.rank = right.rank) : left = right := by
  cases left <;> cases right <;> first | rfl | cases same

def isBetween (first last state : SzymanskisState) : Bool :=
  first.rank ≤ state.rank && state.rank ≤ last.rank

end SzymanskisState

open SzymanskisState

inductive SectionCall where
  | idle
  | putIntention
  | pollOpen
  | putDoorIn
  | scanWaiting
  | putWaitingRoom
  | pollDoorOut
  | putDoorOut
  | pollLower
  | pollHigher
  | deleteState
  deriving DecidableEq, Repr

structure SzymanowskiCriticalSection where
  myState : SzymanskisState
  entered : Bool
  call : SectionCall
  deriving DecidableEq, Repr

def SzymanowskiCriticalSection.new : SzymanowskiCriticalSection := ⟨.s0Noncritical, false, .idle⟩

abbrev RawStore := SortedMap KeyBuffer Bytes

instance lawfulOrderLT_keyBuffer : Std.LawfulOrderLT KeyBuffer := inferInstance

structure LockedKey where
  keyScope : Bytes
  keyToLock : Bytes
  hashLen : Nat

namespace LockedKey

variable (lock : LockedKey)

def keyForStateReport (id : Uuid) : KeyBuffer :=
  (ScopedKeyBuilder.new lock.keyScope).keyLockState lock.keyToLock id

def keyRangeStart : KeyBuffer :=
  (ScopedKeyBuilder.new lock.keyScope).keyLockState lock.keyToLock 0

def keyRangeEnd : KeyBuffer :=
  (ScopedKeyBuilder.new lock.keyScope).keyLockState lock.keyToLock (BitVec.allOnes 128)

def parseLockKey (key : KeyBuffer) : Except FsError Uuid := do
  let parser ← KeyParser.start key lock.keyScope lock.hashLen
  parser.parseLockKey lock.keyToLock

def getCurrentStatesExcludingMine (store : RawStore) (myId : Uuid) : List (Uuid × SzymanskisState) :=
  (store.scan lock.keyRangeStart lock.keyRangeEnd maxTikvScanLimit).filterMap fun entry =>
    match lock.parseLockKey entry.1 with
    | .ok id => if id ≠ myId then some (id, fromU8 (entry.2.headD 0)) else none
    | .error _ => none

def changeOwnState (store : RawStore) (myId : Uuid) (state : SzymanskisState) : RawStore :=
  if state = .s0Noncritical then store.delete (lock.keyForStateReport myId)
  else store.put (lock.keyForStateReport myId) [state.asU8]

def advance (store : RawStore) (myId : Uuid) (self : SzymanowskiCriticalSection) :
    RawStore × SzymanowskiCriticalSection :=
  let states := lock.getCurrentStatesExcludingMine store myId
  match self.call with
  | .idle => (store, self)
  | .putIntention =>
      (lock.changeOwnState store myId .s1Intention,
        { self with myState := .s1Intention, call := .pollOpen })
  | .pollOpen =>
      let done := states.all fun state => isBetween .s0Noncritical .s2WaitingRoom state.2
      (store, if done then { self with call := .putDoorIn } else self)
  | .putDoorIn =>
      (lock.changeOwnState store myId .s3DoorIn, { self with myState := .s3DoorIn, call := .scanWaiting })
  | .scanWaiting =>
      let anotherWaiting := states.any fun state => state.2 = .s1Intention
      (store, { self with call := if anotherWaiting then .putWaitingRoom else .putDoorOut })
  | .putWaitingRoom =>
      (lock.changeOwnState store myId .s2WaitingRoom,
        { self with myState := .s2WaitingRoom, call := .pollDoorOut })
  | .pollDoorOut =>
      let done := states.any fun state => state.2 = .s4DoorOut
      (store, if done then { self with call := .putDoorOut } else self)
  | .putDoorOut =>
      (lock.changeOwnState store myId .s4DoorOut, { self with myState := .s4DoorOut, call := .pollLower })
  | .pollLower =>
      let done := states.all fun state =>
        state.1 ≥ myId || isBetween .s0Noncritical .s1Intention state.2
      (store, if done then { self with entered := true, call := .idle } else self)
  | .pollHigher =>
      let done := states.all fun state =>
        state.1 ≤ myId || [SzymanskisState.s0Noncritical, .s1Intention, .s4DoorOut].contains state.2
      (store, if done then { self with call := .deleteState } else self)
  | .deleteState =>
      (lock.changeOwnState store myId .s0Noncritical,
        { self with myState := .s0Noncritical, entered := false, call := .idle })

end LockedKey

structure LockSystem where
  store : RawStore
  sections : Uuid → Option SzymanowskiCriticalSection

inductive LockEvent where
  | new (id : Uuid)
  | enter (id : Uuid)
  | leave (id : Uuid)
  | advance (id : Uuid)
  | putOther (key : LogicalKey) (value : Bytes)
  | deleteOther (key : LogicalKey)

namespace LockSystem

def set (state : LockSystem) (id : Uuid) (self : SzymanowskiCriticalSection) : LockSystem :=
  { state with sections := Function.update state.sections id (some self) }

@[simp] theorem sections_set_self (state : LockSystem) (id : Uuid)
    (self : SzymanowskiCriticalSection) : (state.set id self).sections id = some self :=
  Function.update_self ..

@[simp] theorem sections_set_of_ne (state : LockSystem) {id other : Uuid} (different : other ≠ id)
    (self : SzymanowskiCriticalSection) :
    (state.set id self).sections other = state.sections other :=
  Function.update_of_ne different ..

/-- A call of `enter` on an entered instance returns at once, as does one of `leave` on
an instance that is not. -/
def step (lock : LockedKey) (state : LockSystem) : LockEvent → Option LockSystem
  | .new id =>
      match state.sections id with
      | some _ => none
      | none => some (state.set id .new)
  | .enter id =>
      match state.sections id with
      | some self =>
          if self.call = .idle then
            some (if self.entered then state else state.set id { self with call := .putIntention })
          else none
      | none => none
  | .leave id =>
      match state.sections id with
      | some self =>
          if self.call = .idle then
            some (if self.entered then state.set id { self with call := .pollHigher } else state)
          else none
      | none => none
  | .advance id =>
      match state.sections id with
      | some self =>
          let done := lock.advance state.store id self
          some { state.set id done.2 with store := done.1 }
      | none => none
  | .putOther key value => some { state with store := state.store.put (key.bytes lock.keyScope) value }
  | .deleteOther key => some { state with store := state.store.delete (key.bytes lock.keyScope) }

def Step (lock : LockedKey) (before : LockSystem) (event : LockEvent) (after : LockSystem) : Prop :=
  before.step lock event = some after

end LockSystem

/-- The key is not one of this lock's state keys, nor one of a lock on a longer key. -/
def LockedKey.IsForeign (lock : LockedKey) : LogicalKey → Prop
  | .keyLockState locked _ => ¬ lock.keyToLock <+: locked
  | _ => True

instance (lock : LockedKey) : (key : LogicalKey) → Decidable (lock.IsForeign key)
  | .keyLockState locked _ => inferInstanceAs (Decidable (¬ lock.keyToLock <+: locked))
  | .metaStatic => isTrue trivial
  | .metaMutable => isTrue trivial
  | .inodeX _ _ => isTrue trivial
  | .openedInode _ _ => isTrue trivial
  | .block _ _ => isTrue trivial
  | .blockHash _ _ => isTrue trivial
  | .directoryChild _ _ => isTrue trivial
  | .parentLink _ _ _ => isTrue trivial
  | .hashedBlock _ => isTrue trivial
  | .hashedBlockExists _ => isTrue trivial
  | .namedHashedBlockX _ _ _ => isTrue trivial
  | .pendingDeleteX _ => isTrue trivial
  | .pendingDeleteBlockHash _ => isTrue trivial
  | .pendingDeleteActiveWriter _ _ => isTrue trivial

/-- No scan is cut off, and others write no keys that the scans find. -/
def LockSystem.Unhindered (lock : LockedKey) (state : LockSystem) : LockEvent → Prop
  | .putOther key _ => lock.IsForeign key
  | .deleteOther key => lock.IsForeign key
  | .advance _ => (state.store.range lock.keyRangeStart lock.keyRangeEnd).length ≤ maxTikvScanLimit
  | _ => True

instance (lock : LockedKey) (state : LockSystem) :
    (event : LockEvent) → Decidable (state.Unhindered lock event)
  | .putOther key _ => inferInstanceAs (Decidable (lock.IsForeign key))
  | .deleteOther key => inferInstanceAs (Decidable (lock.IsForeign key))
  | .advance _ => inferInstanceAs (Decidable (_ ≤ maxTikvScanLimit))
  | .new _ => isTrue trivial
  | .enter _ => isTrue trivial
  | .leave _ => isTrue trivial

end TiFs
