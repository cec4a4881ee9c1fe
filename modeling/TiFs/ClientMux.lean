import TiFs.Library.Table
import TiFs.Library.Transaction

/-! `TransactionClientMux`: callers take a client from the slots in turn, replace one whose
transaction cannot be begun, and wait for the announcement of a new one where they find
none. The slots are behind a lock for readers and writers. -/

namespace TiFs

open KeyValue Tables

abbrev Client := Nat

/-- Where a call of `give_one_transaction` is; `i` counts the empty slots that `give_one`
has looked at. -/
inductive MuxPhase where
  | fetchIdx (i : Nat)
  | awaitRead (i idx : Nat)
  | looking (i idx : Nat)
  /-- `channel.changed().await`, with the guard of the read lock still alive. -/
  | awaitNewClient
  | beginning (client : Client) (id : Nat)
  | awaitTake (id : Nat)
  | taking (id : Nat)
  | recreating (id : Nat)
  | awaitPut (id : Nat) (client : Client)
  | putting (id : Nat) (client : Client)
  | sending (client : Client)
  | returned
  deriving DecidableEq, Repr

namespace MuxPhase

def holdsRead : MuxPhase → Bool
  | looking _ _ => true
  | awaitNewClient => true
  | _ => false

def holdsWrite : MuxPhase → Bool
  | taking _ => true
  | putting _ _ => true
  | _ => false

def needsWrite : MuxPhase → Bool
  | awaitTake _ => true
  | recreating _ => true
  | awaitPut _ _ => true
  | _ => false

def emptied : MuxPhase → Option Nat
  | recreating id => some id
  | awaitPut id _ => some id
  | putting id _ => some id
  | _ => none

end MuxPhase

inductive MakeOutcome where
  | succeeded
  | delayed
  | failed
  deriving DecidableEq, Repr

inductive MuxEvent where
  | call
  | advance (caller : Nat)
  | begun (caller : Nat) (succeeded : Bool)
  | made (caller : Nat) (outcome : MakeOutcome)
  deriving DecidableEq, Repr

namespace MuxEvent

def caller : MuxEvent → Option Nat
  | call => none
  | advance caller => some caller
  | begun caller _ => some caller
  | made caller _ => some caller

def recreates : MuxEvent → Bool
  | made _ .failed => false
  | _ => true

end MuxEvent

/-- `version` is that of the watch channel; the receiver that every caller clones has seen
version 0 only. `made` counts the clients. -/
structure TransactionClientMux where
  idx : Nat
  clients : List (Option Client)
  version : Nat
  made : Nat
  callers : List MuxPhase
  deriving DecidableEq, Repr

namespace TransactionClientMux

def new : TransactionClientMux :=
  ⟨0, (List.range 16).map some, 0, 16, []⟩

def canRead (mux : TransactionClientMux) : Bool := mux.callers.all fun caller => !caller.holdsWrite

def canWrite (mux : TransactionClientMux) : Bool :=
  mux.callers.all fun caller => !caller.holdsWrite && !caller.holdsRead

/-- One round of the loop of `give_one`, from the look at the slot on. -/
def look (mux : TransactionClientMux) (i idx : Nat) : MuxPhase :=
  let id := idx % mux.clients.length
  match mux.clients[id]?.join with
  | some client => .beginning client id
  | none =>
      if i + 1 > mux.clients.length then
        if mux.version ≠ 0 then .fetchIdx 0 else .awaitNewClient
      else .fetchIdx (i + 1)

def next (mux : TransactionClientMux) : MuxPhase → Option (MuxPhase × TransactionClientMux)
  | .fetchIdx i => some (.awaitRead i mux.idx, { mux with idx := (mux.idx + 1) % 2 ^ 64 })
  | .awaitRead i idx => if mux.canRead then some (.looking i idx, mux) else none
  | .looking i idx => some (mux.look i idx, mux)
  | .awaitNewClient => if mux.version ≠ 0 then some (.fetchIdx 0, mux) else none
  | .awaitTake id => if mux.canWrite then some (.taking id, mux) else none
  | .taking id =>
      if id ≥ mux.clients.length then some (.fetchIdx 0, mux)
      else
        -- Only the caller that found a client in the slot replaces it.
        some (if (mux.clients[id]?.join).isSome then .recreating id else .fetchIdx 0,
          { mux with clients := mux.clients.set id none })
  | .awaitPut id client => if mux.canWrite then some (.putting id client, mux) else none
  | .putting id client => some (.sending client, { mux with clients := mux.clients.set id (some client) })
  | .sending _ => some (.fetchIdx 0, { mux with version := mux.version + 1 })
  | .beginning _ _ => none
  | .recreating _ => none
  | .returned => none

def begun : MuxPhase → Bool → Option MuxPhase
  | .beginning _ _, true => some .returned
  | .beginning _ id, false => some (.awaitTake id)
  | _, _ => none

def create (mux : TransactionClientMux) : MuxPhase → MakeOutcome → Option (MuxPhase × TransactionClientMux)
  | .recreating id, .succeeded => some (.awaitPut id mux.made, { mux with made := mux.made + 1 })
  | .recreating id, .delayed => some (.recreating id, mux)
  | .recreating _, .failed => some (.returned, mux)
  | _, _ => none

def moveOf (mux : TransactionClientMux) (phase : MuxPhase) :
    MuxEvent → Option (MuxPhase × TransactionClientMux)
  | .call => none
  | .advance _ => mux.next phase
  | .begun _ succeeded => (begun phase succeeded).map fun after => (after, mux)
  | .made _ outcome => mux.create phase outcome

def step (mux : TransactionClientMux) (event : MuxEvent) : Option TransactionClientMux :=
  match event.caller with
  | none => some { mux with callers := mux.callers ++ [.fetchIdx 0] }
  | some caller => do
      let phase ← mux.callers[caller]?
      let (after, shared) ← mux.moveOf phase event
      some { shared with callers := mux.callers.set caller after }

/-- A caller waits for a new client and holds the read lock, another one cannot announce
any without the write lock. -/
def Locked (mux : TransactionClientMux) : Prop :=
  .awaitNewClient ∈ mux.callers ∧ ∃ replacer ∈ mux.callers, replacer.needsWrite = true

/-- A caller that has passed as many empty slots as there are slots finds one more, before
the first new client was announced. -/
def entersWait (mux : TransactionClientMux) : MuxEvent → Bool
  | .advance caller =>
      match mux.callers[caller]? with
      | some (.looking i idx) =>
          (mux.clients[idx % mux.clients.length]?.join).isNone && mux.clients.length ≤ i && mux.version = 0
      | _ => false
  | _ => false

theorem look_waits {mux : TransactionClientMux} {i idx : Nat} :
    mux.look i idx = .awaitNewClient ↔
      (mux.clients[idx % mux.clients.length]?.join).isNone ∧ mux.clients.length ≤ i ∧ mux.version = 0 := by
  simp only [look]
  cases slot : mux.clients[idx % mux.clients.length]?.join with
  | some client => simp only [reduceCtorEq, Option.isNone_some, Bool.false_eq_true, false_and]
  | none =>
      by_cases passed : mux.clients.length ≤ i
      · have more : i + 1 > mux.clients.length := Nat.lt_succ_of_le passed
        by_cases unannounced : mux.version = 0
        · simp only [if_pos more, unannounced, ne_eq, not_true_eq_false, if_false, passed, Option.isNone_none,
            and_self]
        · simp only [if_pos more, unannounced, ne_eq, not_false_eq_true, if_true, reduceCtorEq, and_false]
      · have fewer : ¬ i + 1 > mux.clients.length := fun more => passed (Nat.lt_succ_iff.mp more)
        simp only [if_neg fewer, reduceCtorEq, passed, false_and, and_false]

theorem look_cases (mux : TransactionClientMux) (i idx : Nat) :
    (∃ client id, mux.look i idx = .beginning client id) ∨ (∃ j, mux.look i idx = .fetchIdx j) ∨
      mux.look i idx = .awaitNewClient := by
  unfold look
  dsimp only
  split
  · exact Or.inl ⟨_, _, rfl⟩
  · split
    · split
      · exact Or.inr (Or.inl ⟨_, rfl⟩)
      · exact Or.inr (Or.inr rfl)
    · exact Or.inr (Or.inl ⟨_, rfl⟩)

/-- All that the step of one caller can do: it takes a lock only when it is free, waits only
after a look that finds nothing, and leaves no slot empty that it does not fill again. -/
structure Effect (mux : TransactionClientMux) (phase after : MuxPhase) (shared : TransactionClientMux) : Prop where
  slots : shared.clients.length = mux.clients.length
  write : after.holdsWrite = true → mux.canWrite = true
  read : after.holdsRead = true → mux.canRead = true ∨ phase.holdsRead = true
  waits : after = .awaitNewClient → ∃ i idx, phase = .looking i idx ∧ mux.look i idx = .awaitNewClient
  empties : ∀ id, shared.clients[id]? = some none →
    after.emptied = some id ∨ mux.clients[id]? = some none ∧ phase.emptied ≠ some id

theorem effect_of_same {mux shared : TransactionClientMux} {phase after : MuxPhase}
    (same : shared.clients = mux.clients) (kept : after.emptied = phase.emptied)
    (write : after.holdsWrite = true → mux.canWrite = true)
    (read : after.holdsRead = true → mux.canRead = true ∨ phase.holdsRead = true)
    (waits : after = .awaitNewClient → ∃ i idx, phase = .looking i idx ∧ mux.look i idx = .awaitNewClient) :
    Effect mux phase after shared where
  slots := by rw [same]
  write := write
  read := read
  waits := waits
  empties := by
    intro id empty
    rw [same] at empty
    rw [kept]
    by_cases own : phase.emptied = some id
    · exact Or.inl own
    · exact Or.inr ⟨empty, own⟩

theorem next_effect {mux shared : TransactionClientMux} {phase after : MuxPhase}
    (moved : mux.next phase = some (after, shared)) : Effect mux phase after shared := by
  cases phase with
  | fetchIdx i =>
      obtain ⟨rfl, rfl⟩ := Prod.mk.inj (Option.some.inj moved)
      exact effect_of_same rfl rfl nofun nofun nofun
  | awaitRead i idx =>
      obtain ⟨free, equal⟩ := Option.ite_none_right_eq_some.mp moved
      obtain ⟨rfl, rfl⟩ := Prod.mk.inj (Option.some.inj equal)
      exact effect_of_same rfl rfl nofun (fun _ => Or.inl free) nofun
  | looking i idx =>
      obtain ⟨isAfter, rfl⟩ := Prod.mk.inj (Option.some.inj moved)
      rcases mux.look_cases i idx with ⟨client, id, look⟩ | ⟨j, look⟩ | look
      · rw [← isAfter, look]
        exact effect_of_same rfl rfl nofun nofun nofun
      · rw [← isAfter, look]
        exact effect_of_same rfl rfl nofun nofun nofun
      · rw [← isAfter, look]
        exact effect_of_same rfl rfl nofun (fun _ => Or.inr rfl) (fun _ => ⟨i, idx, rfl, look⟩)
  | awaitNewClient =>
      obtain ⟨_, equal⟩ := Option.ite_none_right_eq_some.mp moved
      obtain ⟨rfl, rfl⟩ := Prod.mk.inj (Option.some.inj equal)
      exact effect_of_same rfl rfl nofun nofun nofun
  | awaitTake id =>
      obtain ⟨free, equal⟩ := Option.ite_none_right_eq_some.mp moved
      obtain ⟨rfl, rfl⟩ := Prod.mk.inj (Option.some.inj equal)
      exact effect_of_same rfl rfl (fun _ => free) nofun nofun
  | taking id =>
      simp only [next] at moved
      split at moved
      · obtain ⟨rfl, rfl⟩ := Prod.mk.inj (Option.some.inj moved)
        exact effect_of_same rfl rfl nofun nofun nofun
      · obtain ⟨rfl, rfl⟩ := Prod.mk.inj (Option.some.inj moved)
        refine ⟨List.length_set, ?_, ?_, ?_, ?_⟩
        · split <;> exact nofun
        · split <;> exact nofun
        · split <;> exact nofun
        · intro other empty
          rw [List.getElem?_set] at empty
          by_cases same : id = other
          · subst same
            cases slot : mux.clients[id]?.join with
            | some client => exact Or.inl rfl
            | none =>
                rw [List.getElem?_eq_getElem (by omega)] at slot ⊢
                exact Or.inr ⟨congrArg some slot, nofun⟩
          · rw [if_neg same] at empty
            exact Or.inr ⟨empty, nofun⟩
  | awaitPut id client =>
      obtain ⟨free, equal⟩ := Option.ite_none_right_eq_some.mp moved
      obtain ⟨rfl, rfl⟩ := Prod.mk.inj (Option.some.inj equal)
      exact effect_of_same rfl rfl (fun _ => free) nofun nofun
  | putting id client =>
      obtain ⟨rfl, rfl⟩ := Prod.mk.inj (Option.some.inj moved)
      refine ⟨List.length_set, nofun, nofun, nofun, ?_⟩
      intro other empty
      rw [List.getElem?_set] at empty
      by_cases same : id = other
      · rw [if_pos same] at empty
        split at empty <;> cases empty
      · rw [if_neg same] at empty
        exact Or.inr ⟨empty, fun own => same (Option.some.inj own)⟩
  | sending client =>
      obtain ⟨rfl, rfl⟩ := Prod.mk.inj (Option.some.inj moved)
      exact effect_of_same rfl rfl nofun nofun nofun
  | beginning client id => cases moved
  | recreating id => cases moved
  | returned => cases moved

theorem moveOf_effect {mux shared : TransactionClientMux} {phase after : MuxPhase} {event : MuxEvent}
    (recreates : event.recreates = true) (moved : mux.moveOf phase event = some (after, shared)) :
    Effect mux phase after shared := by
  cases event with
  | call => cases moved
  | advance caller => exact next_effect moved
  | begun caller succeeded =>
      obtain ⟨_, begun, equal⟩ := Option.map_eq_some_iff.mp moved
      obtain ⟨rfl, rfl⟩ := Prod.mk.inj equal
      cases phase with
      | beginning client id =>
          cases succeeded with
          | true =>
              obtain rfl := Option.some.inj begun
              exact effect_of_same rfl rfl nofun nofun nofun
          | false =>
              obtain rfl := Option.some.inj begun
              exact effect_of_same rfl rfl nofun nofun nofun
      | _ => cases succeeded <;> cases begun
  | made caller outcome =>
      cases phase with
      | recreating id =>
          cases outcome with
          | succeeded =>
              obtain ⟨rfl, rfl⟩ := Prod.mk.inj (Option.some.inj moved)
              exact effect_of_same rfl rfl nofun nofun nofun
          | delayed =>
              obtain ⟨rfl, rfl⟩ := Prod.mk.inj (Option.some.inj moved)
              exact effect_of_same rfl rfl nofun nofun nofun
          | failed => cases recreates
      | _ => cases outcome <;> cases moved

theorem step_cases {mux after : TransactionClientMux} {event : MuxEvent} (recreates : event.recreates = true)
    (stepped : mux.step event = some after) :
    after = { mux with callers := mux.callers ++ [.fetchIdx 0] } ∨
      ∃ caller phase moved shared, mux.callers[caller]? = some phase ∧ Effect mux phase moved shared ∧
        after = { shared with callers := mux.callers.set caller moved } := by
  unfold step at stepped
  split at stepped
  · exact Or.inl (Option.some.inj stepped).symm
  · next caller _ =>
      obtain ⟨phase, present, rest⟩ := Option.bind_eq_some_iff.mp stepped
      obtain ⟨⟨moved, shared⟩, isMove, equal⟩ := Option.bind_eq_some_iff.mp rest
      exact Or.inr ⟨caller, phase, moved, shared, present, moveOf_effect recreates isMove,
        (Option.some.inj equal).symm⟩

theorem canWrite_iff {mux : TransactionClientMux} :
    mux.canWrite = true ↔ ∀ phase ∈ mux.callers, phase.holdsWrite = false ∧ phase.holdsRead = false := by
  simp only [canWrite, List.all_eq_true, Bool.and_eq_true, Bool.not_eq_true']

theorem canRead_iff {mux : TransactionClientMux} :
    mux.canRead = true ↔ ∀ phase ∈ mux.callers, phase.holdsWrite = false := by
  simp only [canRead, List.all_eq_true, Bool.not_eq_true']

/-- The lock excludes, and an empty slot has a caller that is to fill it. -/
structure Sound (mux : TransactionClientMux) : Prop where
  size : 0 < mux.clients.length
  exclusive : ∀ (a b : Nat) (one other : MuxPhase), mux.callers[a]? = some one → mux.callers[b]? = some other →
    a ≠ b → one.holdsWrite = true → other.holdsWrite = false ∧ other.holdsRead = false
  filled : ∀ id, mux.clients[id]? = some none → ∃ phase ∈ mux.callers, phase.emptied = some id

theorem sound_new : Sound new where
  size := by decide
  exclusive := nofun
  filled := by
    intro id empty
    simp only [new, List.getElem?_map, Option.map_eq_some_iff, reduceCtorEq, and_false, exists_false] at empty

theorem Sound.call {mux : TransactionClientMux} (sound : Sound mux) :
    Sound { mux with callers := mux.callers ++ [.fetchIdx 0] } where
  size := sound.size
  exclusive := by
    intro a b one other isOne isOther different holds
    rcases getElem?_concat_cases isOne with ⟨_, rfl⟩ | oldOne
    · cases holds
    · rcases getElem?_concat_cases isOther with ⟨_, rfl⟩ | oldOther
      · exact ⟨rfl, rfl⟩
      · exact sound.exclusive a b one other oldOne oldOther different holds
  filled := by
    intro id empty
    obtain ⟨phase, member, emptied⟩ := sound.filled id empty
    exact ⟨phase, List.mem_append_left _ member, emptied⟩

theorem Sound.move {mux shared : TransactionClientMux} {caller : Nat} {phase moved : MuxPhase} (sound : Sound mux)
    (present : mux.callers[caller]? = some phase) (effect : Effect mux phase moved shared) :
    Sound { shared with callers := mux.callers.set caller moved } where
  size := effect.slots ▸ sound.size
  exclusive := by
    intro a b one other isOne isOther different holds
    rcases getElem?_set_cases isOne with ⟨isCaller, rfl⟩ | ⟨_, oldOne⟩
    · -- The caller got the lock for writing just now: nobody held it.
      rcases getElem?_set_cases isOther with ⟨same, rfl⟩ | ⟨_, oldOther⟩
      · exact absurd (isCaller.symm.trans same) different
      · exact canWrite_iff.mp (effect.write holds) other (List.mem_of_getElem? oldOther)
    · rcases getElem?_set_cases isOther with ⟨isCaller, rfl⟩ | ⟨_, oldOther⟩
      · constructor
        · by_contra writes
          have free := canWrite_iff.mp (effect.write (Bool.eq_true_of_not_eq_false writes)) one
            (List.mem_of_getElem? oldOne)
          exact Bool.false_ne_true (free.1.symm.trans holds)
        · by_contra reads
          rcases effect.read (Bool.eq_true_of_not_eq_false reads) with free | before
          · exact Bool.false_ne_true
              ((canRead_iff.mp free one (List.mem_of_getElem? oldOne)).symm.trans holds)
          · have apart := sound.exclusive a b one phase oldOne (isCaller ▸ present) different holds
            exact Bool.false_ne_true (apart.2.symm.trans before)
      · exact sound.exclusive a b one other oldOne oldOther different holds
  filled := by
    intro id empty
    have bound := (List.getElem?_eq_some_iff.mp present).1
    rcases effect.empties id empty with own | ⟨before, notOwn⟩
    · exact ⟨moved, List.mem_set bound _, own⟩
    · obtain ⟨other, member, emptied⟩ := sound.filled id before
      rcases eq_or_mem_set present member moved with rfl | kept
      · exact absurd emptied notOwn
      · exact ⟨other, kept, emptied⟩

theorem Sound.step {mux after : TransactionClientMux} {event : MuxEvent} (sound : Sound mux)
    (recreates : event.recreates = true) (stepped : mux.step event = some after) : Sound after := by
  rcases step_cases recreates stepped with rfl | ⟨caller, phase, moved, shared, present, effect, rfl⟩
  · exact sound.call
  · exact sound.move present effect

theorem entersWait_iff {mux : TransactionClientMux} {event : MuxEvent} :
    mux.entersWait event = true ↔ ∃ caller i idx, event = .advance caller ∧
      mux.callers[caller]? = some (.looking i idx) ∧ mux.look i idx = .awaitNewClient := by
  cases event with
  | advance caller =>
      simp only [entersWait, MuxEvent.advance.injEq]
      constructor
      · intro enters
        split at enters
        · next i idx present =>
            simp only [Bool.and_eq_true, decide_eq_true_eq] at enters
            exact ⟨caller, i, idx, rfl, present, look_waits.mpr ⟨enters.1.1, enters.1.2, enters.2⟩⟩
        · cases enters
      · rintro ⟨_, i, idx, rfl, present, waits⟩
        obtain ⟨empty, passed, unannounced⟩ := look_waits.mp waits
        simp only [present, empty, passed, unannounced, decide_true, Bool.and_self]
  | call => simp only [entersWait, Bool.false_eq_true, reduceCtorEq, false_and, exists_false]
  | begun => simp only [entersWait, Bool.false_eq_true, reduceCtorEq, false_and, exists_false]
  | made => simp only [entersWait, Bool.false_eq_true, reduceCtorEq, false_and, exists_false]

theorem Sound.locked_of_entersWait {mux after : TransactionClientMux} {event : MuxEvent} (sound : Sound mux)
    (enters : mux.entersWait event = true) (stepped : mux.step event = some after) : after.Locked := by
  obtain ⟨caller, i, idx, rfl, present, waits⟩ := entersWait_iff.mp enters
  have isAfter : after = { mux with callers := mux.callers.set caller .awaitNewClient } := by
    simp only [TransactionClientMux.step, MuxEvent.caller, present, moveOf, next, waits, Option.bind_eq_bind,
      Option.bind_some, Option.some.injEq] at stepped
    exact stepped.symm
  have bound := (List.getElem?_eq_some_iff.mp present).1
  have empty : mux.clients[idx % mux.clients.length]? = some none := by
    have inside := Nat.mod_lt idx sound.size
    have found := (look_waits.mp waits).1
    rw [List.getElem?_eq_getElem inside, Option.join_some, Option.isNone_iff_eq_none] at found
    rw [List.getElem?_eq_getElem inside, found]
  obtain ⟨replacer, member, emptied⟩ := sound.filled _ empty
  obtain ⟨other, isReplacer⟩ := List.mem_iff_getElem?.mp member
  rw [isAfter]
  refine ⟨List.mem_set bound _, replacer, ?_, ?_⟩
  · rcases eq_or_mem_set present member .awaitNewClient with rfl | kept
    · cases emptied
    · exact kept
  · cases replacer with
    | recreating id => rfl
    | awaitPut id client => rfl
    | putting id client =>
        have different : other ≠ caller := by
          rintro rfl
          cases isReplacer.symm.trans present
        have apart := sound.exclusive other caller _ _ isReplacer present different rfl
        cases apart.2
    | _ => cases emptied

/-- In a run that never enters the wait nobody waits for a new client. -/
theorem nobody_waits {mux : TransactionClientMux}
    (run : Run (fun before event after => before.step event = some after)
      (fun before event => event.recreates = true ∧ before.entersWait event = false) new mux) :
    .awaitNewClient ∉ mux.callers := by
  refine Run.invariant (fun mux => .awaitNewClient ∉ mux.callers) ?_ List.not_mem_nil run
  rintro before event after holds stepped ⟨recreates, passes⟩
  unfold step at stepped
  split at stepped
  · obtain rfl := Option.some.inj stepped
    rw [List.mem_append, not_or]
    exact ⟨holds, by decide⟩
  · next caller isCaller =>
      obtain ⟨phase, present, rest⟩ := Option.bind_eq_some_iff.mp stepped
      obtain ⟨⟨moved, shared⟩, isMove, equal⟩ := Option.bind_eq_some_iff.mp rest
      obtain rfl := Option.some.inj equal
      intro waits
      rcases List.mem_or_eq_of_mem_set waits with before | isMoved
      · exact holds before
      · obtain ⟨i, idx, rfl, look⟩ := (moveOf_effect recreates isMove).waits isMoved.symm
        cases event with
        | advance _ =>
            obtain rfl := Option.some.inj isCaller
            exact Bool.false_ne_true (passes.symm.trans
              (entersWait_iff.mpr ⟨_, i, idx, rfl, present, look⟩))
        | call => cases isMove
        | begun _ succeeded => cases succeeded <;> cases isMove
        | made _ outcome => cases outcome <;> cases isMove

/-- As long as clients can be made again, a run that never enters the wait reaches no locked
state, and of its next steps exactly one that enters the wait leads to one. -/
theorem locked_iff_waited (mux : TransactionClientMux)
    (run : Run (fun before event after => before.step event = some after)
      (fun before event => event.recreates = true ∧ before.entersWait event = false) new mux) :
    ¬ mux.Locked ∧
      ∀ event after, event.recreates = true → mux.step event = some after →
        (after.Locked ↔ mux.entersWait event = true) := by
  refine ⟨fun locked => nobody_waits run locked.1, ?_⟩
  intro event after recreates stepped
  constructor
  · intro locked
    by_contra passes
    exact nobody_waits (run.snoc event stepped ⟨recreates, Bool.eq_false_of_not_eq_true passes⟩) locked.1
  · intro enters
    have sound : Sound mux := by
      refine Run.invariant Sound ?_ sound_new run
      intro before event after holds stepped permitted
      exact holds.step permitted.1 stepped
    exact sound.locked_of_entersWait enters stepped

/-- One failed begin: the client is replaced and announced, and the caller gets another one. -/
theorem locked_iff_waited_once :
    ∃ mux, Run (fun before event after => before.step event = some after)
        (fun before event => event.recreates = true ∧ before.entersWait event = false) new mux ∧
      mux.callers = [.returned] ∧ mux.version = 1 ∧ ¬ mux.Locked := by
  have ran : (runAll (restrict (fun before event => event.recreates = true ∧ before.entersWait event = false) step)
      new [.call, .advance 0, .advance 0, .advance 0, .begun 0 false, .advance 0, .advance 0, .made 0 .delayed,
        .made 0 .succeeded, .advance 0, .advance 0, .advance 0, .advance 0, .advance 0, .advance 0,
        .begun 0 true]).any (fun mux => decide (mux.callers = [.returned] ∧ mux.version = 1)) = true := by
    decide +kernel
  obtain ⟨mux, run, reached⟩ := Run.of_restrict (fun _ _ _ taken => taken) _ _ ran
  obtain ⟨done, announced⟩ := of_decide_eq_true reached
  exact ⟨mux, run, done, announced, (locked_iff_waited mux run).1⟩

/-- Each of sixteen callers empties a slot, another one passes all slots, and then the
sixteen have their new clients and want to put them in. -/
def lockingEvents : List MuxEvent :=
  ((List.range 16).flatMap fun caller =>
    [.call, .advance caller, .advance caller, .advance caller, .begun caller false, .advance caller,
      .advance caller]) ++
  .call :: List.replicate 51 (.advance 16) ++ (List.range 16).map fun caller => .made caller .succeeded

/-- Nobody that waits for the lock or for a new client can go on. -/
theorem stuck_of_waiting {mux : TransactionClientMux} (unannounced : mux.version = 0)
    (waiter : .awaitNewClient ∈ mux.callers)
    (blocked : ∀ phase ∈ mux.callers, phase = .awaitNewClient ∨ ∃ id client, phase = .awaitPut id client)
    {event : MuxEvent} (notCall : event ≠ .call) : mux.step event = none := by
  have taken : mux.canWrite = false := by
    by_contra free
    cases (canWrite_iff.mp (Bool.eq_true_of_not_eq_false free) _ waiter).2
  cases isCaller : event.caller with
  | none => cases event <;> first | exact absurd rfl notCall | cases isCaller
  | some caller =>
      simp only [step, isCaller]
      cases present : mux.callers[caller]? with
      | none => rfl
      | some phase =>
          have still : mux.moveOf phase event = none := by
            rcases blocked phase (List.mem_of_getElem? present) with rfl | ⟨id, client, rfl⟩
            · cases event with
              | advance _ => simp only [moveOf, next, unannounced, ne_eq, not_true_eq_false, if_false]
              | _ => rfl
            · cases event with
              | advance _ => simp only [moveOf, next, taken, Bool.false_eq_true, if_false]
              | _ => rfl
          simp only [Option.bind_eq_bind, Option.bind_some, still, Option.bind_none]

/-- All slots are empty, and none of the callers can ever go on: the one that waits for a new
client holds the read lock, and those that have one wait for the write lock. -/
theorem mux_locks_up :
    ∃ mux, Run (fun before event after => before.step event = some after)
        (fun _ event => event.recreates = true) new mux ∧
      mux.Locked ∧ mux.callers.length = 17 ∧ ∀ event, event ≠ .call → mux.step event = none := by
  have ran : (runAll (restrict (fun _ event => event.recreates = true) step) new lockingEvents).any
      (fun mux => decide (mux.version = 0 ∧
        mux.callers = (List.range 16).map (fun id => .awaitPut id (id + 16)) ++ [.awaitNewClient])) = true := by
    decide +kernel
  obtain ⟨mux, run, reached⟩ := Run.of_restrict (fun _ _ _ taken => taken) _ _ ran
  obtain ⟨unannounced, phases⟩ := of_decide_eq_true reached
  have waiter : .awaitNewClient ∈ mux.callers := by
    rw [phases]
    exact List.mem_append_right _ (List.mem_singleton.mpr rfl)
  have replacer : .awaitPut 0 16 ∈ mux.callers := by
    rw [phases]
    exact List.mem_append_left _ (List.mem_map.mpr ⟨0, by decide, rfl⟩)
  refine ⟨mux, run, ⟨waiter, _, replacer, rfl⟩, by rw [phases]; rfl, ?_⟩
  intro event notCall
  refine stuck_of_waiting unannounced waiter ?_ notCall
  intro phase member
  rw [phases, List.mem_append] at member
  rcases member with replaces | waits
  · obtain ⟨id, _, rfl⟩ := List.mem_map.mp replaces
    exact Or.inr ⟨id, id + 16, rfl⟩
  · exact Or.inl (List.mem_singleton.mp waits)

end TransactionClientMux

end TiFs
