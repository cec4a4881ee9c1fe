import TiFs.FileHandle

/-! Whether a write that fails after it was acknowledged is reported. The results of
the tasks stay with the handle until a FUSE call takes them out, and each call that
does so answers for the errors among them, except for a read. -/

namespace TiFs

open KeyValue Tables

inductive FuseReturn where
  | write (task : Nat) (result : Except FsError Nat)
  | flush (result : Except FsError Unit)
  | read
  deriving DecidableEq

namespace FuseReturn

def isFlush : FuseReturn → Bool
  | .flush _ => true
  | _ => false

def isError : FuseReturn → Bool
  | .write _ (.error _) => true
  | .flush (.error _) => true
  | _ => false

end FuseReturn

theorem firstError_eq_none {results : List (Except FsError Nat)} :
    firstError results = none ↔ ∀ result ∈ results, ∃ n, result = .ok n := by
  induction results with
  | nil => simp [firstError]
  | cons head tail ih =>
      cases head with
      | ok n => simp [firstError, ih]
      | error issue => simp [firstError]

namespace FileHandler

def fuseReturn (before after : FileHandler) : Option FuseReturn :=
  if before.isFree then none
  else match after.fuse with
    | .returned (some (.wrote result)) => some (.write (before.tasks.length - 1) result)
    | .returned (some (.flushed result)) => some (.flush result)
    | .returned (some (.read _ _ _)) => some .read
    | _ => none

/-- What a read takes out holds no error. -/
def ReadsNoError (state : FileHandler) : HandleEvent → Prop
  | .readReady => ∀ results ∈ state.waitFinishAll, firstError results = none
  | _ => True

instance (state : FileHandler) : (event : HandleEvent) → Decidable (state.ReadsNoError event)
  | .readReady => by unfold ReadsNoError; infer_instance
  | .write _ _ => isTrue trivial
  | .pushed _ => isTrue trivial
  | .enter _ => isTrue trivial
  | .finish _ _ => isTrue trivial
  | .flush => isTrue trivial
  | .flushReady => isTrue trivial
  | .flushed => isTrue trivial
  | .read _ _ => isTrue trivial
  | .readDone _ => isTrue trivial

structure Answers (before after : FileHandler) : Prop where
  kept : ∀ k result, before.result k = some result → after.result k = some result
  drained : ∀ k ∈ before.inProgress, k ∈ after.inProgress ∨ (∃ n, before.result k = some (.ok n)) ∨
    ∃ reply, before.fuseReturn after = some reply ∧ reply.isError ∧
      ∀ j result, reply = .write j result → before.result k = some result
  flushed : ∀ reply, before.fuseReturn after = some reply → reply.isFlush → after.inProgress = []

section Answers

variable {cfg : TiFsConfig} {before after : FileHandler}

theorem fuseReturn_of_free (free : before.isFree) : before.fuseReturn after = none := if_pos free

theorem fuseReturn_of_same (same : after.fuse = before.fuse) : before.fuseReturn after = none := by
  rw [fuseReturn, same]
  unfold isFree
  cases before.fuse <;> rfl

theorem Answers.of_none (kept : ∀ k result, before.result k = some result → after.result k = some result)
    (listed : ∀ k ∈ before.inProgress, k ∈ after.inProgress)
    (isNone : before.fuseReturn after = none) : before.Answers after where
  kept := kept
  drained := fun k member => Or.inl (listed k member)
  flushed := by
    rw [isNone]
    intro reply isReply
    cases isReply

theorem result_spawn (state : FileHandler) (data : WriteTaskData) (flush : Bool) (k : Nat)
    (result : Except FsError Nat) (isResult : state.result k = some result) :
    (state.spawn data flush).result k = some result := by
  obtain ⟨task, present, finished⟩ := Option.bind_eq_some_iff.mp isResult
  rw [FileHandler.result, spawn, List.getElem?_append_left (List.getElem?_eq_some_iff.mp present).1, present]
  exact finished

theorem result_set (state : FileHandler) {k : Nat} {task : SpinTask} (present : state.tasks[k]? = some task)
    (unfinished : task.phase.result = none) (next : SpinTask) (j : Nat) (result : Except FsError Nat)
    (isResult : state.result j = some result) :
    ((state.tasks.set k next)[j]?).bind (fun task => task.phase.result) = some result := by
  have different : k ≠ j := by
    rintro rfl
    rw [FileHandler.result, present, Option.bind_some, unfinished] at isResult
    cases isResult
  rw [List.getElem?_set_ne different]
  exact isResult

theorem ok_of_waitFinishAll {state : FileHandler} {results : List (Except FsError Nat)}
    (waited : state.waitFinishAll = some results) (noError : firstError results = none) {k : Nat}
    (member : k ∈ state.inProgress) : ∃ n, state.result k = some (.ok n) := by
  have finished := waitFinishAll_eq_some waited
  rw [waitFinishAll, if_pos finished] at waited
  obtain rfl := Option.some.inj waited
  obtain ⟨result, isResult⟩ := Option.isSome_iff_exists.mp (finished k member)
  have listed : result ∈ state.results ++ state.inProgress.filterMap state.result :=
    List.mem_append_right _ (List.mem_filterMap.mpr ⟨k, member, isResult⟩)
  obtain ⟨n, rfl⟩ := firstError_eq_none.mp noError result listed
  exact ⟨n, isResult⟩

theorem pushed_returns {done : Nat} (taken : before.Step cfg (.pushed done) after) (drained : before.results = []) :
    ∃ reply, after.fuse = .returned (some (.wrote reply)) ∧
      ∀ k ∈ before.inProgress, k ∈ after.inProgress ∨
        ∃ result, before.result k = some result ∧ ∀ issue, result = .error issue → reply = .error issue := by
  unfold Step step at taken
  simp only at taken
  split at taken
  · next size pushing =>
      split at taken
      · split at taken
        · next listed =>
            obtain ⟨result, isResult, rfl⟩ := Option.map_eq_some_iff.mp taken
            rw [drained, List.nil_append]
            cases result with
            | error issue =>
                refine ⟨.error issue, rfl, ?_⟩
                intro k member
                by_cases same : k = done
                · exact Or.inr ⟨_, same ▸ isResult, fun other isIssue => isIssue⟩
                · exact Or.inl ((List.mem_erase_of_ne same).mpr member)
            | ok n =>
                refine ⟨.ok size, rfl, ?_⟩
                intro k member
                by_cases same : k = done
                · refine Or.inr ⟨_, same ▸ isResult, ?_⟩
                  intro issue isIssue
                  cases isIssue
                · exact Or.inl ((List.mem_erase_of_ne same).mpr member)
        · cases taken
      · obtain rfl := Option.some.inj taken
        rw [drained]
        exact ⟨.ok size, rfl, fun k member => Or.inl member⟩
  · cases taken

theorem flushReady_returns (taken : before.Step cfg .flushReady after) :
    (∃ issue, after.fuse = .returned (some (.flushed (.error issue)))) ∨
      after.fuse = .flushing before.tasks.length ∧ ∀ k ∈ before.inProgress, ∃ n, before.result k = some (.ok n) := by
  unfold Step step at taken
  simp only at taken
  split at taken
  · next waiting =>
      obtain ⟨results, waited, rfl⟩ := Option.map_eq_some_iff.mp taken
      cases first : firstError results with
      | some issue => exact Or.inl ⟨issue, rfl⟩
      | none => exact Or.inr ⟨rfl, fun k member => ok_of_waitFinishAll waited first member⟩
  · cases taken

theorem readReady_results (taken : before.Step cfg .readReady after) :
    ∃ results, before.waitFinishAll = some results := by
  unfold Step step at taken
  simp only at taken
  split at taken
  · obtain ⟨results, waited, _⟩ := Option.map_eq_some_iff.mp taken
    exact ⟨results, waited⟩
  · cases taken

theorem fuseReturn_of_busy (after : FileHandler) {call : FuseCall} (busy : before.fuse = call)
    (notFree : ∀ reply, call ≠ .returned reply) : before.fuseReturn after = match after.fuse with
      | .returned (some (.wrote result)) => some (.write (before.tasks.length - 1) result)
      | .returned (some (.flushed result)) => some (.flush result)
      | .returned (some (.read _ _ _)) => some .read
      | _ => none := by
  apply if_neg
  intro free
  obtain ⟨reply, isFree⟩ := isFree_iff.mp free
  exact notFree reply (busy.symm.trans isFree)

theorem Answers.of_step (tracked : before.Tracked) (drained : before.results = []) {event : HandleEvent}
    (taken : before.Step cfg event after) (noError : before.ReadsNoError event) : before.Answers after := by
  cases effect_of_step taken with
  | wrote start data free =>
      exact .of_none (result_spawn before _ _) (fun k member => List.mem_append_left _ member)
        (fuseReturn_of_free free)
  | pushed done size inProgress reply pushing removed =>
      have returned := fuseReturn_of_busy
        { before with inProgress := inProgress, results := [], fuse := .returned (some (.wrote reply)) }
        pushing (by simp)
      obtain ⟨_, isReply, answered⟩ := pushed_returns taken drained
      cases isReply
      refine ⟨fun k result isResult => isResult, ?_, ?_⟩
      · intro k member
        rcases answered k member with stays | ⟨result, isResult, reported⟩
        · exact Or.inl stays
        · cases result with
          | ok n => exact Or.inr (Or.inl ⟨n, isResult⟩)
          | error issue =>
              obtain rfl := reported issue rfl
              refine Or.inr (Or.inr ⟨_, returned, rfl, ?_⟩)
              intro j result isWrite
              cases isWrite
              exact isResult
      · intro answer isAnswer isFlush
        rw [returned] at isAnswer
        cases isAnswer
        cases isFlush
  | entered k task present attempting =>
      have unfinished : task.phase.result = none := by
        rw [attempting]
        rfl
      rcases enter_cases cfg before k task with ⟨isAfter, _⟩ | ⟨isAfter, _⟩
      · rw [isAfter]
        exact .of_none (result_set before present unfinished _) (fun k member => member) (fuseReturn_of_same rfl)
      · rw [isAfter]
        exact .of_none (result_set before present unfinished _) (fun k member => member) (fuseReturn_of_same rfl)
  | finished k call task handed outcome present writing made =>
      have unfinished : task.phase.result = none := by
        rw [writing]
        rfl
      exact .of_none (result_set before present unfinished _) (fun k member => member) (fuseReturn_of_same rfl)
  | flushBegan free =>
      exact .of_none (fun k result isResult => isResult) (fun k member => member) (fuseReturn_of_free free)
  | flushFailed issue waiting all =>
      refine ⟨fun k result isResult => isResult, ?_, fun _ _ _ => rfl⟩
      intro k member
      refine Or.inr (Or.inr ⟨.flush (.error issue), fuseReturn_of_busy _ waiting (by simp), rfl, ?_⟩)
      intro j result isWrite
      cases isWrite
  | flushSpawned waiting all =>
      refine ⟨result_spawn before _ _, ?_, fun _ _ _ => rfl⟩
      intro k member
      rcases flushReady_returns taken with ⟨issue, isFlushed⟩ | ⟨_, succeeded⟩
      · cases isFlushed
      · exact Or.inr (Or.inl (succeeded k member))
  | flushed k result flushing isResult =>
      have empty := (tracked.flushing k flushing).1
      refine ⟨fun k result isResult => isResult, ?_, fun _ _ _ => empty⟩
      intro j member
      exact Or.inl member
  | readBegan start size free =>
      exact .of_none (fun k result isResult => isResult) (fun k member => member) (fuseReturn_of_free free)
  | readReady start size waiting all =>
      refine ⟨fun k result isResult => isResult, ?_, fun _ _ _ => rfl⟩
      intro k member
      obtain ⟨results, waited⟩ := readReady_results taken
      exact Or.inr (Or.inl (ok_of_waitFinishAll waited (noError results waited) member))
  | readDone start size result reading =>
      have returned := fuseReturn_of_busy
        { before with fuse := .returned (some (.read start size result)) } reading (by simp)
      refine ⟨fun k result isResult => isResult, fun k member => Or.inl member, ?_⟩
      intro answer isAnswer isFlush
      rw [returned] at isAnswer
      cases isAnswer
      cases isFlush

theorem results_step (drained : before.results = []) {event : HandleEvent}
    (taken : before.Step cfg event after) : after.results = [] := by
  cases effect_of_step taken with
  | entered k task present attempting =>
      rcases enter_cases cfg before k task with ⟨isAfter, _⟩ | ⟨isAfter, _⟩
      · rw [isAfter]
        exact drained
      · rw [isAfter]
        exact drained
  | pushed done size inProgress reply pushing removed => rfl
  | flushFailed issue waiting all => rfl
  | flushSpawned waiting all => rfl
  | readReady start size waiting all => rfl
  | _ => exact drained

def NewestListed (state : FileHandler) : Prop :=
  ∀ size, state.fuse = .pushing size → ∃ k ∈ state.inProgress, k + 1 = state.tasks.length

theorem NewestListed.step (newest : before.NewestListed) {event : HandleEvent}
    (taken : before.Step cfg event after) : after.NewestListed := by
  intro size pushing
  cases effect_of_step taken with
  | wrote start data free =>
      exact ⟨before.tasks.length, List.mem_append_right _ List.mem_cons_self, by simp [spawn]⟩
  | entered k task present attempting =>
      rcases enter_cases cfg before k task with ⟨isAfter, _⟩ | ⟨isAfter, _⟩
      · rw [isAfter] at pushing ⊢
        simpa using newest size pushing
      · rw [isAfter] at pushing ⊢
        simpa using newest size pushing
  | finished k call task handed outcome present writing made => simpa using newest size pushing
  | _ => cases pushing

theorem fuseReturn_write {k : Nat} {result : Except FsError Nat}
    (returned : before.fuseReturn after = some (.write k result)) :
    before.isFree = false ∧ after.fuse = .returned (some (.wrote result)) ∧ k = before.tasks.length - 1 := by
  unfold fuseReturn at returned
  split at returned
  · cases returned
  · next notFree =>
      split at returned
      · next isWrote =>
          cases returned
          exact ⟨Bool.eq_false_of_not_eq_true notFree, isWrote, rfl⟩
      · cases returned
      · cases returned
      · cases returned

theorem write_of_fuseReturn {event : HandleEvent} (taken : before.Step cfg event after) {k : Nat}
    {result : Except FsError Nat} (newest : before.NewestListed)
    (returned : before.fuseReturn after = some (.write k result)) : k ∈ before.inProgress := by
  obtain ⟨notFree, isWrote, isTask⟩ := fuseReturn_write returned
  have busy : before.fuse ≠ .returned (some (.wrote result)) := by
    intro isFuse
    rw [isFree_iff.mpr ⟨_, isFuse⟩] at notFree
    cases notFree
  cases effect_of_step taken with
  | pushed done size inProgress reply pushing removed =>
      obtain ⟨task, listed, isNewest⟩ := newest size pushing
      rw [isTask, ← isNewest]
      exact listed
  | entered j task present attempting =>
      rcases enter_cases cfg before j task with ⟨isAfter, _⟩ | ⟨isAfter, _⟩
      · rw [isAfter] at isWrote
        exact absurd isWrote busy
      · rw [isAfter] at isWrote
        exact absurd isWrote busy
  | finished j call task handed outcome present writing made => exact absurd isWrote busy
  | _ => cases isWrote

/-- What has become of the task of a write, after the calls that have returned since. -/
inductive Accounted (state : FileHandler) (k : Nat) (later : List FuseReturn) : Prop
  | pending (listed : k ∈ state.inProgress) (noFlush : ∀ reply ∈ later, reply.isFlush = false)
  | succeeded (n : Nat) (isOk : state.result k = some (.ok n))
  | reported (front : List FuseReturn) (reply : FuseReturn) (back : List FuseReturn)
      (split : later = front ++ reply :: back) (noFlush : ∀ other ∈ front, other.isFlush = false)
      (isError : reply.isError)

theorem Accounted.step (answers : before.Answers after) {k : Nat} {later : List FuseReturn}
    (accounted : before.Accounted k later) :
    after.Accounted k (later ++ (before.fuseReturn after).toList) := by
  cases accounted with
  | succeeded n isOk => exact .succeeded n (answers.kept k _ isOk)
  | reported front reply back split noFlush isError =>
      refine .reported front reply (back ++ (before.fuseReturn after).toList) ?_ noFlush isError
      rw [split, List.append_assoc, List.cons_append]
  | pending listed noFlush =>
      rcases answers.drained k listed with stays | ⟨n, isOk⟩ | ⟨reply, isReply, isError, _⟩
      · refine .pending stays ?_
        intro reply member
        rcases List.mem_append.mp member with earlier | new
        · exact noFlush reply earlier
        · have isReply := Option.mem_toList.mp new
          cases isFlush : reply.isFlush with
          | false => rfl
          | true =>
              rw [answers.flushed reply isReply isFlush] at stays
              cases stays
      · exact .succeeded n (answers.kept k _ isOk)
      · rw [isReply]
        exact .reported later reply [] rfl noFlush isError

end Answers

end FileHandler

structure HandleHistory where
  handle : FileHandler
  returned : List FuseReturn

namespace HandleHistory

def begin : HandleHistory := ⟨.new, []⟩

def step (cfg : TiFsConfig) (state : HandleHistory) (event : HandleEvent) : Option HandleHistory :=
  (state.handle.step cfg event).map fun handle =>
    ⟨handle, state.returned ++ (state.handle.fuseReturn handle).toList⟩

def Step (cfg : TiFsConfig) (before : HandleHistory) (event : HandleEvent) (after : HandleHistory) : Prop :=
  before.step cfg event = some after

def ReadsNoError (state : HandleHistory) (event : HandleEvent) : Prop := state.handle.ReadsNoError event

instance (state : HandleHistory) (event : HandleEvent) : Decidable (state.ReadsNoError event) :=
  inferInstanceAs (Decidable (state.handle.ReadsNoError event))

/-- If the task of a write has failed, then the write was not acknowledged but has
returned this very failure, or a later write before the next flush or that flush has
returned an error. -/
def ErrorsReported (state : HandleHistory) : Prop :=
  ∀ front k own middle result back issue,
    state.returned = front ++ .write k own :: (middle ++ .flush result :: back) →
    (∀ reply ∈ middle, reply.isFlush = false) → state.handle.result k = some (.error issue) →
      own = .error issue ∨ ∃ reply ∈ middle ++ [.flush result], reply.isError

structure Accounts (state : HandleHistory) : Prop where
  tracked : state.handle.Tracked
  drained : state.handle.results = []
  newest : state.handle.NewestListed
  writes : ∀ front k own later, state.returned = front ++ .write k own :: later →
    state.handle.result k = some own ∨ state.handle.Accounted k later

theorem accounts_begin : begin.Accounts where
  tracked := FileHandler.tracked_new
  drained := rfl
  newest := by
    intro size pushing
    cases pushing
  writes := by
    intro front k own later isSplit
    simp [begin] at isSplit

variable {cfg : TiFsConfig}

theorem Accounts.step {before after : HandleHistory} (accounts : before.Accounts) {event : HandleEvent}
    (taken : before.Step cfg event after) (noError : before.ReadsNoError event) : after.Accounts := by
  obtain ⟨handle, stepped, rfl⟩ := Option.map_eq_some_iff.mp taken
  have answers := FileHandler.Answers.of_step accounts.tracked accounts.drained stepped noError
  have stay : ∀ front k own later, before.returned = front ++ .write k own :: later →
      handle.result k = some own ∨
        handle.Accounted k (later ++ (before.handle.fuseReturn handle).toList) := by
    intro front k own later isSplit
    exact (accounts.writes front k own later isSplit).imp (answers.kept k own)
      fun accounted => accounted.step answers
  refine ⟨accounts.tracked.step stepped, FileHandler.results_step accounts.drained stepped,
    accounts.newest.step stepped, ?_⟩
  intro front k own later isSplit
  cases returned : before.handle.fuseReturn handle with
  | none =>
      rw [returned] at isSplit stay
      rw [Option.toList_none, List.append_nil] at isSplit
      have kept := stay front k own later isSplit
      rw [Option.toList_none, List.append_nil] at kept
      exact kept
  | some reply =>
      rw [returned] at isSplit stay
      rw [Option.toList_some] at isSplit
      rcases List.eq_nil_or_concat later with rfl | ⟨earlier, last, rfl⟩
      · -- the write that has just returned
        obtain ⟨_, isLast⟩ := List.append_inj' isSplit rfl
        obtain rfl := (List.cons.inj isLast).1
        have listed := FileHandler.write_of_fuseReturn stepped accounts.newest returned
        rcases answers.drained k listed with stays | ⟨n, isOk⟩ | ⟨answer, isAnswer, _, isOwn⟩
        · exact Or.inr (.pending stays (by simp))
        · exact Or.inr (.succeeded n (answers.kept k _ isOk))
        · rw [returned] at isAnswer
          exact Or.inl (answers.kept k own (isOwn k own (Option.some.inj isAnswer).symm))
      · rw [List.concat_eq_append] at isSplit ⊢
        rw [← List.cons_append, ← List.append_assoc] at isSplit
        obtain ⟨isEarlier, isLast⟩ := List.append_inj' isSplit rfl
        have kept := stay front k own earlier isEarlier
        rw [Option.toList_some, isLast] at kept
        exact kept

/-- What has been accounted for has been reported when the next flush returns. -/
theorem errorsReported_of_accounts {state : HandleHistory} (accounts : state.Accounts) : state.ErrorsReported := by
  intro front k own middle result back issue isSplit noFlush failed
  rcases accounts.writes front k own _ isSplit with isOwn | accounted
  · rw [failed] at isOwn
    exact Or.inl (Option.some.inj isOwn).symm
  right
  cases accounted with
  | pending listed none =>
      have notFlush := none (.flush result) (by simp)
      cases notFlush
  | succeeded n isOk =>
      rw [failed] at isOk
      cases isOk
  | reported before reply after split noFlushBefore isError =>
      rcases List.append_eq_append_iff.mp split with ⟨extra, isBefore, isRest⟩ | ⟨extra, isMiddle, isRest⟩
      · cases extra with
        | nil =>
            obtain rfl := (List.cons.inj isRest).1
            exact ⟨_, List.mem_append_right _ List.mem_cons_self, isError⟩
        | cons first more =>
            obtain rfl := (List.cons.inj isRest).1
            have notFlush := noFlushBefore (.flush result) (by simp [isBefore])
            cases notFlush
      · cases extra with
        | nil =>
            obtain rfl := (List.cons.inj isRest).1
            exact ⟨_, List.mem_append_right _ List.mem_cons_self, isError⟩
        | cons first more =>
            obtain rfl := (List.cons.inj isRest).1
            exact ⟨reply, by simp [isMiddle], isError⟩

theorem exists_run (cfg : TiFsConfig) (allowed : HandleHistory → HandleEvent → Prop)
    [∀ state event, Decidable (allowed state event)] (events : List HandleEvent) (check : HandleHistory → Bool)
    (ran : (runAll (restrict allowed (step cfg)) begin events).any check = true) :
    ∃ last, Run (Step cfg) allowed begin last ∧ check last = true :=
  Run.of_restrict (fun _ _ _ taken => taken) events check ran

/-- As long as no read takes out an error, the failure of a write is returned by itself,
by a later write or by the next flush, whatever the limit of the handle. -/
theorem errors_reported (cfg : TiFsConfig) (state : HandleHistory)
    (run : Run (Step cfg) ReadsNoError begin state) : state.ErrorsReported := by
  apply errorsReported_of_accounts
  refine run.invariant Accounts ?_ accounts_begin
  intro before event after accounts taken noError
  exact accounts.step taken noError

def pipeConfig (limit : Nat) : TiFsConfig :=
  { paddingConfig 2 Nat.two_pos with writeInProgressLimit := limit }

/-- A write fails after its acknowledgement, the next write returns its error, and the flush is clean. -/
theorem errors_reported_next_write : ∃ state, Run (Step (pipeConfig 2)) ReadsNoError begin state ∧
    state.handle.result 0 = some (.error (.inodeNotFound 5)) ∧
    state.returned = [.write 0 (.ok 1), .write 1 (.error (.inodeNotFound 5)), .flush (.ok ())] ∧
    state.ErrorsReported := by
  obtain ⟨state, run, check⟩ := exists_run (pipeConfig 2) ReadsNoError
    [.write 0 [1], .pushed 0, .enter 0, .finish 0 (.error (.inodeNotFound 5)), .write 1 [2], .pushed 0, .enter 1,
      .finish 1 (.ok true), .flush, .flushReady, .enter 2, .flushed]
    (fun state => decide (state.handle.result 0 = some (.error (.inodeNotFound 5))) &&
      decide (state.returned = [.write 0 (.ok 1), .write 1 (.error (.inodeNotFound 5)), .flush (.ok ())]))
    (by decide +kernel)
  simp only [Bool.and_eq_true, decide_eq_true_eq] at check
  exact ⟨state, run, check.1, check.2, errors_reported (pipeConfig 2) state run⟩

/-- A write fails after its acknowledgement, a read takes its error out, and the flush returns `Ok`. -/
theorem errors_reported_not_past_read : ¬ ∀ (cfg : TiFsConfig) (state : HandleHistory),
    Run (Step cfg) (fun _ _ => True) begin state → state.ErrorsReported := by
  intro claimed
  obtain ⟨state, run, check⟩ := exists_run (pipeConfig 2) (fun _ _ => True)
    [.write 0 [1], .pushed 0, .enter 0, .finish 0 (.error (.inodeNotFound 5)), .read 0 1, .readReady,
      .readDone (.ok []), .flush, .flushReady, .enter 1, .flushed]
    (fun state => decide (state.handle.result 0 = some (.error (.inodeNotFound 5))) &&
      decide (state.returned = [.write 0 (.ok 1), .read, .flush (.ok ())]))
    (by decide +kernel)
  simp only [Bool.and_eq_true, decide_eq_true_eq] at check
  obtain ⟨failed, returned⟩ := check
  rcases claimed (pipeConfig 2) state run [] 0 (.ok 1) [.read] (.ok ()) [] _ returned
    (by simp [FuseReturn.isFlush]) failed with isOwn | ⟨reply, member, isError⟩
  · cases isOwn
  simp only [List.cons_append, List.nil_append, List.mem_cons, List.not_mem_nil, or_false] at member
  rcases member with rfl | rfl
  · cases isError
  · cases isError

end HandleHistory

end TiFs
