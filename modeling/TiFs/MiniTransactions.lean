import TiFs.ErrorReplies
import TiFs.FileHash
import TiFs.Library.CommitLog

/-! The loops around the transactions of the file system: a transaction is started, its body
runs, `finish` commits it or rolls it back and tells if there is another attempt. Any number
of such calls are under way at the same time, over one store that gives each transaction the
snapshot of its start. -/

namespace TiFs

open KeyValue Tables

/-- Of its backoff the number of delays that it still gives. -/
structure SpinningTxn where
  delaysLeft : Nat
  deriving DecidableEq, Repr

namespace SpinningTxn

/-- `decorrelated_jitter_backoff(10, 1000, 200)`. -/
def default : SpinningTxn := ⟨200⟩

def nextDelayDuration : SpinningTxn → Option SpinningTxn
  | ⟨0⟩ => none
  | ⟨left + 1⟩ => some ⟨left⟩

variable {R : Type}

def tryAgain (spin : SpinningTxn) (issue : FsError) : SpinningTxn × Option (Except FsError R) :=
  match spin.nextDelayDuration with
  | some waited => (waited, none)
  | none => (spin, some (.error issue))

/-- `StartedMiniTransaction::finish` and `end_iter_b`. Only a body that succeeded is committed. -/
def finish (spin : SpinningTxn) (result : Except TransactionError R) (commit : Except FsError Unit) :
    SpinningTxn × Option (Except FsError R) :=
  match result with
  | .ok val =>
      match commit with
      | .ok () => (spin, some (.ok val))
      | .error error => spin.tryAgain error
  | .error (.persistentIssue err) => (spin, some (.error err))
  | .error (.temporaryIssue err) => spin.tryAgain err

end SpinningTxn

/-- Whose loop it is: a `FlexibleTransaction` gives up when a transaction cannot be started. -/
inductive SpinningLoop where
  | miniTransaction
  | flexibleTransaction
  deriving DecidableEq, Repr

def SpinningLoop.startFailed {R : Type} (kind : SpinningLoop) (spin : SpinningTxn) (issue : FsError) :
    SpinningTxn × Option (Except FsError R) :=
  match kind with
  | .miniTransaction => spin.tryAgain issue
  | .flexibleTransaction => (spin, some (.error issue))

/-- `started` has the snapshot and its position in the log, `returned` the position of the end. -/
inductive SpinPhase (R : Type) where
  | starting
  | started (snapshot : Db Key.Value) (begun : ℕ)
  | returned (result : Except FsError R) (ended : ℕ)

/-- A call with the transactions it has tried to start and its first position in the log. -/
structure SpinCall (Op R : Type) where
  kind : SpinningLoop
  op : Op
  spin : SpinningTxn
  attempts : ℕ
  since : ℕ
  phase : SpinPhase R

def SpinCall.answer {Op R : Type} (call : SpinCall Op R) : List (Op × R) :=
  match call.phase with
  | .returned (.ok reply) _ => [(call.op, reply)]
  | _ => []

/-- The value that was returned and the position of its end. -/
def SpinCall.returned {Op R : Type} (call : SpinCall Op R) : Option (R × ℕ) :=
  match call.phase with
  | .returned (.ok reply) ended => some (reply, ended)
  | _ => none

theorem SpinCall.phase_of_returned {Op R : Type} {call : SpinCall Op R} {reply : R} {ended : ℕ}
    (returned : call.returned = some (reply, ended)) : call.phase = .returned (.ok reply) ended := by
  rw [SpinCall.returned] at returned
  split at returned
  · next isReturned =>
      obtain ⟨rfl, rfl⟩ := Prod.mk.inj (Option.some.inj returned)
      exact isReturned
  · cases returned

/-- The log is not part of the program. -/
structure SpinSystem (Op R : Type) where
  db : Db Key.Value
  calls : ℕ → Option (SpinCall Op R)
  log : List (Commit Key.Value ℕ Op R)

/-- What the store answers to a commit. An answer may be `lost`: the transaction is committed
and its caller is told an error. -/
inductive CommitOutcome where
  | committed
  | refused (issue : FsError)
  | lost (issue : FsError)
  deriving DecidableEq, Repr

inductive SpinEvent (Op : Type) where
  | call (id : ℕ) (kind : SpinningLoop) (op : Op)
  | start (id : ℕ)
  | startFails (id : ℕ) (issue : FsError)
  | readFails (id : ℕ) (issue : FsError)
  | finish (id : ℕ) (outcome : CommitOutcome)

namespace SpinSystem

variable {Op R : Type}

def initial (db : Db Key.Value) : SpinSystem Op R := ⟨db, fun _ => none, []⟩

def set (state : SpinSystem Op R) (id : ℕ) (call : SpinCall Op R) : SpinSystem Op R :=
  { state with calls := Function.update state.calls id (some call) }

theorem calls_set_self (state : SpinSystem Op R) (id : ℕ) (call : SpinCall Op R) :
    (state.set id call).calls id = some call := by
  simp only [set, Function.update_self]

theorem calls_set_of_ne (state : SpinSystem Op R) {id other : ℕ} (different : other ≠ id)
    (call : SpinCall Op R) : (state.set id call).calls other = state.calls other := by
  simp only [set, Function.update_of_ne different]

def next (state : SpinSystem Op R) (id : ℕ) (call : SpinCall Op R)
    (out : SpinningTxn × Option (Except FsError R)) : SpinSystem Op R :=
  state.set id { call with
    spin := out.1
    phase := match out.2 with
      | none => .starting
      | some result => .returned result state.log.length }

def commit (state : SpinSystem Op R) (entry : Commit Key.Value ℕ Op R) : SpinSystem Op R :=
  { state with db := state.db.commit entry.writes, log := state.log ++ [entry] }

def step (body : Op → Mini R) (state : SpinSystem Op R) : SpinEvent Op → Option (SpinSystem Op R)
  | .call id kind op =>
      match state.calls id with
      | none => some (state.set id ⟨kind, op, .default, 0, state.log.length, .starting⟩)
      | some _ => none
  | .start id =>
      match state.calls id with
      | some ⟨kind, op, spin, attempts, since, .starting⟩ =>
          some (state.set id ⟨kind, op, spin, attempts + 1, since, .started state.db state.log.length⟩)
      | _ => none
  | .startFails id issue =>
      match state.calls id with
      | some ⟨kind, op, spin, attempts, since, .starting⟩ =>
          some (state.next id ⟨kind, op, spin, attempts + 1, since, .starting⟩ (kind.startFailed spin issue))
      | _ => none
  | .readFails id issue =>
      match state.calls id with
      | some ⟨kind, op, spin, attempts, since, .started snapshot begun⟩ =>
          some (state.next id ⟨kind, op, spin, attempts, since, .started snapshot begun⟩
            (spin.finish (.error (.ofFsError issue)) (.ok ())))
      | _ => none
  | .finish id outcome =>
      match state.calls id with
      | some ⟨kind, op, spin, attempts, since, .started snapshot begun⟩ =>
          match body op ⟨snapshot.data, []⟩ with
          | .error issue =>
              some (state.next id ⟨kind, op, spin, attempts, since, .started snapshot begun⟩
                (spin.finish (.error (.ofFsError issue)) (.ok ())))
          | .ok (reply, txn) =>
              let mayCommit := ∀ write ∈ txn.buffer,
                state.db.version write.key = snapshot.version write.key
              let entry : Commit Key.Value ℕ Op R := ⟨id, op, reply, begun, txn.buffer⟩
              let call : SpinCall Op R := ⟨kind, op, spin, attempts, since, .started snapshot begun⟩
              match outcome with
              | .committed =>
                  if mayCommit then some ((state.commit entry).next id call (spin.finish (.ok reply) (.ok ())))
                  else none
              | .refused issue => some (state.next id call (spin.finish (.ok reply) (.error issue)))
              | .lost issue =>
                  if mayCommit then
                    some ((state.commit entry).next id call (spin.finish (.ok reply) (.error issue)))
                  else none
      | _ => none

def Step (body : Op → Mini R) (before : SpinSystem Op R) (event : SpinEvent Op) (after : SpinSystem Op R) :
    Prop :=
  before.step body event = some after

def Answered (_ : SpinSystem Op R) : SpinEvent Op → Prop
  | .finish _ (.lost _) => False
  | _ => True

instance (state : SpinSystem Op R) : (event : SpinEvent Op) → Decidable (state.Answered event)
  | .finish _ (.lost _) => isFalse id
  | .finish _ .committed => isTrue trivial
  | .finish _ (.refused _) => isTrue trivial
  | .call _ _ _ => isTrue trivial
  | .start _ => isTrue trivial
  | .startFails _ _ => isTrue trivial
  | .readFails _ _ => isTrue trivial

/-- What the call was asked and has returned. -/
def answer (state : SpinSystem Op R) (id : ℕ) : List (Op × R) :=
  match state.calls id with
  | some call => call.answer
  | none => []

def commits (state : SpinSystem Op R) (id : ℕ) : List (Op × R) :=
  (state.log.filter fun entry => entry.id = id).map fun entry => (entry.op, entry.reply)

inductive GoesOn (spin : SpinningTxn) : SpinningTxn × Option (Except FsError R) → Prop
  | again (left : ℕ) (isLeft : spin.delaysLeft = left + 1) : GoesOn spin (⟨left⟩, none)
  | ended (issue : FsError) : GoesOn spin (spin, some (.error issue))

theorem goesOn_tryAgain (spin : SpinningTxn) (issue : FsError) :
    GoesOn (R := R) spin (spin.tryAgain issue) := by
  obtain ⟨left⟩ := spin
  cases left with
  | zero => exact .ended issue
  | succ left => exact .again left rfl

theorem goesOn_finish_error (spin : SpinningTxn) (issue : TransactionError) (commit : Except FsError Unit) :
    GoesOn (R := R) spin (spin.finish (.error issue) commit) := by
  cases issue with
  | temporaryIssue issue => exact goesOn_tryAgain spin issue
  | persistentIssue issue => exact .ended issue

theorem goesOn_startFailed (kind : SpinningLoop) (spin : SpinningTxn) (issue : FsError) :
    GoesOn (R := R) spin (kind.startFailed spin issue) := by
  cases kind with
  | miniTransaction => exact goesOn_tryAgain spin issue
  | flexibleTransaction => exact .ended issue

inductive Failing (call : SpinCall Op R) : ℕ → Prop
  | start (isStarting : call.phase = .starting) : Failing call (call.attempts + 1)
  | body (snapshot : Db Key.Value) (begun : ℕ) (isStarted : call.phase = .started snapshot begun) :
      Failing call call.attempts

inductive Took (body : Op → Mini R) (before : SpinSystem Op R) : SpinEvent Op → SpinSystem Op R → Prop
  | called (id : ℕ) (kind : SpinningLoop) (op : Op) (fresh : before.calls id = none) :
      Took body before (.call id kind op)
        (before.set id ⟨kind, op, .default, 0, before.log.length, .starting⟩)
  | started (id : ℕ) (call : SpinCall Op R) (present : before.calls id = some call)
      (isStarting : call.phase = .starting) :
      Took body before (.start id) (before.set id
        { call with attempts := call.attempts + 1, phase := .started before.db before.log.length })
  | failed (event : SpinEvent Op) (id : ℕ) (call : SpinCall Op R) (present : before.calls id = some call)
      (attempts : ℕ) (failing : Failing call attempts) (out : SpinningTxn × Option (Except FsError R))
      (goesOn : GoesOn call.spin out) :
      Took body before event (before.next id { call with attempts := attempts } out)
  | ended (outcome : CommitOutcome) (id : ℕ) (call : SpinCall Op R) (present : before.calls id = some call)
      (snapshot : Db Key.Value) (begun : ℕ) (isStarted : call.phase = .started snapshot begun)
      (reply : R) (txn : Txn Key.Value) (ran : body call.op ⟨snapshot.data, []⟩ = .ok (reply, txn))
      (may : snapshot.MayCommit before.db txn.buffer) (out : SpinningTxn × Option (Except FsError R))
      (isOut : out = (call.spin, some (.ok reply)) ∨ (∃ issue, outcome = .lost issue) ∧ GoesOn call.spin out) :
      Took body before (.finish id outcome)
        ((before.commit ⟨id, call.op, reply, begun, txn.buffer⟩).next id call out)

theorem took_of_step {body : Op → Mini R} {before after : SpinSystem Op R} {event : SpinEvent Op}
    (taken : Step body before event after) : Took body before event after := by
  cases event with
  | call id kind op =>
      dsimp only [Step, step] at taken
      cases present : before.calls id with
      | none =>
          simp only [present, Option.some.injEq] at taken
          exact taken ▸ .called id kind op present
      | some call => simp [present] at taken
  | start id =>
      dsimp only [Step, step] at taken
      split at taken
      · next present => exact Option.some.inj taken ▸ .started id _ present rfl
      · cases taken
  | startFails id issue =>
      dsimp only [Step, step] at taken
      split at taken
      · next present =>
          exact Option.some.inj taken ▸
            .failed _ id _ present _ (.start rfl) _ (goesOn_startFailed _ _ issue)
      · cases taken
  | readFails id issue =>
      dsimp only [Step, step] at taken
      split at taken
      · next snapshot begun present =>
          exact Option.some.inj taken ▸
            .failed _ id _ present _ (.body snapshot begun rfl) _ (goesOn_finish_error _ _ _)
      · cases taken
  | finish id outcome =>
      dsimp only [Step, step] at taken
      split at taken
      · next kind op spin attempts since snapshot begun present =>
          split at taken
          · exact Option.some.inj taken ▸
              .failed _ id _ present _ (.body snapshot begun rfl) _ (goesOn_finish_error _ _ _)
          · next reply txn ran =>
              cases outcome with
              | committed =>
                  simp only [Option.ite_none_right_eq_some, Option.some.injEq] at taken
                  exact taken.2 ▸ .ended .committed id _ present snapshot begun rfl reply txn ran taken.1 _
                    (Or.inl rfl)
              | refused issue =>
                  exact Option.some.inj taken ▸
                    .failed _ id _ present _ (.body snapshot begun rfl) _ (goesOn_tryAgain spin issue)
              | lost issue =>
                  simp only [Option.ite_none_right_eq_some, Option.some.injEq] at taken
                  exact taken.2 ▸ .ended (.lost issue) id _ present snapshot begun rfl reply txn ran taken.1 _
                    (Or.inr ⟨⟨issue, rfl⟩, goesOn_tryAgain spin issue⟩)
      · cases taken

/-- The call as the log and the store have it: the snapshot of a transaction is the store at
its begin, and a value that was returned is in the log, between the begin and the end. -/
structure Sound (first : Store) (log : List (Commit Key.Value ℕ Op R)) (db : Db Key.Value) (id : ℕ)
    (call : SpinCall Op R) : Prop where
  since : call.since ≤ log.length
  attempts : call.attempts + call.spin.delaysLeft ≤
    match call.phase with
    | .starting => 200
    | _ => 201
  begun : ∀ snapshot begun, call.phase = .started snapshot begun → call.since ≤ begun ∧
    begun ≤ log.length ∧ snapshot.data = storeAt first log begun ∧ snapshot.Extends db
  ended : ∀ reply ended, call.phase = .returned (.ok reply) ended → ended ≤ log.length ∧
    ∃ n, ∃ entry : Commit Key.Value ℕ Op R, log[n]? = some entry ∧ entry.id = id ∧ entry.op = call.op ∧
      entry.reply = reply ∧ call.since ≤ entry.begun ∧ entry.begun ≤ n ∧ n < ended

variable {first : Store} {log : List (Commit Key.Value ℕ Op R)} {db : Db Key.Value} {id : ℕ}
  {call : SpinCall Op R}

theorem Sound.commit (sound : Sound first log db id call) (entry : Commit Key.Value ℕ Op R) :
    Sound first (log ++ [entry]) (db.commit entry.writes) id call := by
  have longer : log.length ≤ (log ++ [entry]).length := by simp
  constructor
  · exact sound.since.trans longer
  · exact sound.attempts
  · intro snapshot begun isStarted
    obtain ⟨since, within, isStart, extended⟩ := sound.begun snapshot begun isStarted
    refine ⟨since, within.trans longer, ?_, extended.commit entry.writes⟩
    rw [storeAt_append_of_le [entry] within]
    exact isStart
  · intro reply ended isReturned
    obtain ⟨within, n, earlier, listed, found⟩ := sound.ended reply ended isReturned
    refine ⟨within.trans longer, n, earlier, ?_, found⟩
    rw [List.getElem?_append_left (List.getElem?_eq_some_iff.mp listed).1]
    exact listed

theorem Sound.goesOn (sound : Sound first log db id call) {attempts : ℕ} (failing : Failing call attempts)
    {out : SpinningTxn × Option (Except FsError R)} (goesOn : GoesOn call.spin out) (ended : ℕ) :
    Sound first log db id { call with
      attempts := attempts
      spin := out.1
      phase := match out.2 with
        | none => .starting
        | some result => .returned result ended } := by
  have tried : attempts + call.spin.delaysLeft ≤ 201 := by
    have bound := sound.attempts
    cases failing with
    | start isStarting =>
        rw [isStarting] at bound
        exact Nat.succ_add _ _ ▸ Nat.succ_le_succ bound
    | body snapshot begun isStarted =>
        rw [isStarted] at bound
        exact bound
  cases goesOn with
  | again left isLeft =>
      refine ⟨sound.since, ?_, nofun, nofun⟩
      change attempts + left ≤ 200
      omega
  | ended issue => exact ⟨sound.since, tried, nofun, nofun⟩

structure Valid (body : Op → Mini R) (first : Store) (state : SpinSystem Op R) : Prop where
  logged : Logged body first state.log state.db
  sound : ∀ id call, state.calls id = some call → Sound first state.log state.db id call

theorem valid_initial (body : Op → Mini R) (db : Db Key.Value) : Valid body db.data (initial db) where
  logged := .nil db rfl
  sound := nofun

theorem Valid.set {body : Op → Mini R} {state : SpinSystem Op R} (valid : Valid body first state) {id : ℕ}
    {call : SpinCall Op R} (sound : Sound first state.log state.db id call) :
    Valid body first (state.set id call) where
  logged := valid.logged
  sound := by
    intro other found present
    by_cases same : other = id
    · subst same
      rw [calls_set_self] at present
      exact Option.some.inj present ▸ sound
    · rw [calls_set_of_ne _ same] at present
      exact valid.sound other found present

theorem Valid.step {body : Op → Mini R} {before after : SpinSystem Op R} {event : SpinEvent Op}
    (valid : Valid body first before) (took : Took body before event after) : Valid body first after := by
  cases took with
  | called id kind op fresh => exact valid.set ⟨le_rfl, le_rfl, nofun, nofun⟩
  | started id call present isStarting =>
      have sound := valid.sound id call present
      have bound := sound.attempts
      rw [isStarting] at bound
      refine valid.set ⟨sound.since, Nat.succ_add _ _ ▸ Nat.succ_le_succ bound, ?_, nofun⟩
      intro snapshot begun isStarted
      obtain ⟨rfl, rfl⟩ := SpinPhase.started.inj isStarted
      exact ⟨sound.since, le_rfl, valid.logged.data, Db.extends_self _⟩
  | failed event id call present attempts failing out goesOn =>
      exact valid.set ((valid.sound id call present).goesOn failing goesOn _)
  | ended outcome id call present snapshot begun isStarted reply txn ran may out isOut =>
      have sound := valid.sound id call present
      obtain ⟨since, within, isStart, extended⟩ := sound.begun snapshot begun isStarted
      let entry : Commit Key.Value ℕ Op R := ⟨id, call.op, reply, begun, txn.buffer⟩
      have committed : Valid body first (before.commit entry) := by
        constructor
        · exact valid.logged.snoc entry snapshot txn within isStart ran rfl extended may
        · intro other found listed
          exact (valid.sound other found listed).commit entry
      rcases isOut with rfl | ⟨_, goesOn⟩
      · refine committed.set ⟨(sound.commit entry).since, ?_, nofun, ?_⟩
        · have bound := sound.attempts
          rw [isStarted] at bound
          exact bound
        · intro value ended isReturned
          obtain ⟨isValue, rfl⟩ := SpinPhase.returned.inj isReturned
          obtain rfl := Except.ok.inj isValue
          refine ⟨le_rfl, before.log.length, entry, ?_, rfl, rfl, rfl, since, within, ?_⟩
          · rw [SpinSystem.commit, List.getElem?_append_right le_rfl, Nat.sub_self]
            rfl
          · simp [SpinSystem.commit]
      · exact committed.set ((sound.commit entry).goesOn (.body snapshot begun isStarted) goesOn _)

theorem valid_of_run {body : Op → Mini R} {db : Db Key.Value}
    {allowed : SpinSystem Op R → SpinEvent Op → Prop} {state : SpinSystem Op R}
    (run : Run (Step body) allowed (initial db) state) : Valid body db.data state := by
  have preserved : ∀ before event after, Valid body db.data before → Step body before event after →
      allowed before event → Valid body db.data after := by
    intro before event after valid taken _
    exact valid.step (took_of_step taken)
  exact Run.invariant (Valid body db.data) preserved (valid_initial body db) run

theorem answer_set_self (state : SpinSystem Op R) (id : ℕ) (call : SpinCall Op R) :
    (state.set id call).answer id = call.answer := by
  rw [SpinSystem.answer, calls_set_self]

theorem answer_set_of_ne (state : SpinSystem Op R) {id other : ℕ} (different : other ≠ id)
    (call : SpinCall Op R) : (state.set id call).answer other = state.answer other := by
  rw [SpinSystem.answer, calls_set_of_ne state different, SpinSystem.answer]

theorem answer_of_some {state : SpinSystem Op R} {id : ℕ} {call : SpinCall Op R}
    (present : state.calls id = some call) : state.answer id = call.answer := by
  rw [SpinSystem.answer, present]

theorem Failing.answer {call : SpinCall Op R} {attempts : ℕ} (failing : Failing call attempts) :
    call.answer = [] := by
  cases failing with
  | start isStarting => rw [SpinCall.answer, isStarting]
  | body snapshot begun isStarted => rw [SpinCall.answer, isStarted]

theorem answers_set {state : SpinSystem Op R} {id : ℕ} {call : SpinCall Op R}
    (same : call.answer = state.answer id) (other : ℕ) :
    (state.set id call).answer other = state.answer other := by
  by_cases own : other = id
  · rw [own, answer_set_self, same]
  · exact answer_set_of_ne state own call

theorem commits_commit (state : SpinSystem Op R) (entry : Commit Key.Value ℕ Op R) (id : ℕ) :
    (state.commit entry).commits id =
      state.commits id ++ if entry.id = id then [(entry.op, entry.reply)] else [] := by
  rw [SpinSystem.commits, SpinSystem.commit, List.filter_append, List.map_append, SpinSystem.commits]
  by_cases own : entry.id = id
  · simp [own]
  · simp [own]

theorem answers_step {body : Op → Mini R} {before after : SpinSystem Op R} {event : SpinEvent Op}
    (recorded : ∀ id, before.commits id = before.answer id) (took : Took body before event after)
    (answered : before.Answered event) (other : ℕ) : after.commits other = after.answer other := by
  cases took with
  | called id kind op fresh =>
      have unanswered : before.answer id = [] := by rw [SpinSystem.answer, fresh]
      rw [answers_set]
      · exact recorded other
      · exact unanswered.symm
  | started id call present isStarting =>
      have unanswered := (Failing.start isStarting).answer
      rw [← answer_of_some present] at unanswered
      rw [answers_set]
      · exact recorded other
      · exact unanswered.symm
  | failed event id call present attempts failing out goesOn =>
      have unanswered := failing.answer
      rw [← answer_of_some present] at unanswered
      rw [SpinSystem.next, answers_set]
      · exact recorded other
      · cases goesOn with
        | again left isLeft => exact unanswered.symm
        | ended issue => exact unanswered.symm
  | ended outcome id call present snapshot begun isStarted reply txn ran may out isOut =>
      have isOut : out = (call.spin, some (.ok reply)) := by
        refine isOut.resolve_right fun lost => ?_
        obtain ⟨⟨issue, rfl⟩, _⟩ := lost
        exact answered
      subst isOut
      have unanswered := (Failing.body snapshot begun isStarted).answer
      rw [← answer_of_some present] at unanswered
      change (before.commit _).commits other = _
      rw [commits_commit, recorded other, SpinSystem.next]
      by_cases own : id = other
      · subst own
        rw [if_pos rfl, unanswered, answer_set_self]
        rfl
      · rw [if_neg own, List.append_nil, answer_set_of_ne _ (Ne.symm own)]
        rfl

/-- A call that returned a value has committed once, with that value; no other call has
committed. What the log wrote is what the store holds, and no call starts more than 201
transactions. -/
theorem committed_exactly_once (body : Op → Mini R) (db : Db Key.Value) {state : SpinSystem Op R}
    (run : Run (Step body) Answered (initial db) state) :
    (∀ id, state.commits id = state.answer id) ∧
      state.db.data = applyAll db.data (state.log.flatMap Commit.writes) ∧
        ∀ id call, state.calls id = some call → call.attempts ≤ 201 := by
  have preserved : ∀ before event after, (∀ id, SpinSystem.commits before id = before.answer id) →
      Step body before event after → before.Answered event → ∀ id, after.commits id = after.answer id := by
    intro before event after recorded taken answered
    exact answers_step recorded (took_of_step taken) answered
  have valid := valid_of_run run
  refine ⟨Run.invariant (fun state => ∀ id, state.commits id = state.answer id) preserved (fun _ => rfl) run,
    ?_, ?_⟩
  · rw [valid.logged.data, storeAt_length]
  · intro id call present
    have bound := (valid.sound id call present).attempts
    split at bound <;> omega

theorem exists_run (body : Op → Mini R) (db : Db Key.Value)
    (events : List (SpinEvent Op)) (check : SpinSystem Op R → Bool)
    (ran : (runAll (restrict Answered (step body)) (initial db) events).any check = true) :
    ∃ last, Run (Step body) Answered (initial db) last ∧ check last = true :=
  Run.of_restrict (fun _ _ _ taken => taken) events check ran

/-- Two reservations begin at the same time; the one that is refused is tried again, and a
third one cannot be started. -/
theorem committed_exactly_once_conflict :
    ∃ state : SpinSystem Nat StorageIno,
      Run (Step (metaMutableReserveNewInos (paddingConfig 2 (by decide)))) Answered
        (initial ⟨∅, fun _ => 0⟩) state ∧
      state.commits 0 = [(1, 1)] ∧ state.commits 1 = [(7, 10)] ∧ state.commits 2 = [] := by
  obtain ⟨state, run, checked⟩ := exists_run
    (metaMutableReserveNewInos (paddingConfig 2 (by decide))) ⟨∅, fun _ => 0⟩
    [.call 0 .miniTransaction 1, .call 1 .miniTransaction 7, .call 2 .flexibleTransaction 1, .start 0, .start 1,
     .finish 0 .committed, .finish 1 (.refused (.keyError "conflict")), .startFails 2 (.keyError "unreachable"),
     .start 1, .finish 1 .committed]
    (fun state => decide (state.answer 0 = [(1, 1)] ∧ state.answer 1 = [(7, 10)] ∧ state.answer 2 = []))
    (by decide +kernel)
  rw [decide_eq_true_eq] at checked
  have once := (committed_exactly_once _ _ run).1
  refine ⟨state, run, ?_⟩
  rw [once, once, once]
  exact checked

end SpinSystem

end TiFs
