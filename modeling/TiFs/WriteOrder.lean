import TiFs.FlushedWrites

/-! The order in which the writes of a handle reach the accumulator and `hb_write_data`:
how many tasks of acknowledged writes may still have to enter is up to the limit of the
`AsyncParallelPipeStage`, and the scheduler picks the one that enters next. -/

namespace TiFs

open KeyValue Tables

def HandleEvent.entering : HandleEvent → Option Nat
  | .enter k => some k
  | _ => none

namespace FileHandler

/-- The tasks that enter, in that order; they are numbered as their FUSE calls were issued. -/
def enteredTasks (events : List HandleEvent) : List Nat := events.filterMap HandleEvent.entering

/-- The jobs that came into the accumulator, in that order: those it has handed to calls
of `hb_write_data` and those that are still there. -/
def pushedJobs (state : FileHandler) : List WriteTaskData :=
  state.calls.flatMap HandedCall.jobs ++ state.writeAccumulator

def ownOf (state : FileHandler) (k : Nat) : List WriteTaskData :=
  ((state.tasks[k]?).map SpinTask.own).getD []

def pushers (state : FileHandler) (events : List HandleEvent) : List Nat :=
  (enteredTasks events).filter fun k => state.ownOf k ≠ []

/-- The jobs are those of the FUSE calls in the order in which these were issued. -/
structure InIssueOrder (state : FileHandler) (events : List HandleEvent) : Prop where
  jobs : state.pushedJobs = (state.pushers events).flatMap state.ownOf
  order : (state.pushers events).Pairwise (· ≤ ·)

structure Recorded (state : FileHandler) (entered : List Nat) : Prop where
  jobs : state.pushedJobs = entered.flatMap state.ownOf
  known : ∀ k ∈ entered, k < state.tasks.length

theorem recorded_new : new.Recorded [] := ⟨rfl, fun _ member => absurd member List.not_mem_nil⟩

section Recorded

variable {cfg : TiFsConfig} {state after : FileHandler} {entered : List Nat}

theorem ownOf_eq {k : Nat} {task : SpinTask} (present : state.tasks[k]? = some task) :
    state.ownOf k = task.own := by
  rw [ownOf, present]
  rfl

theorem ownOf_set {k : Nat} {task next : SpinTask} (present : state.tasks[k]? = some task)
    (same : next.data = task.data) (sameTasks : after.tasks = state.tasks.set k next) (j : Nat) :
    after.ownOf j = state.ownOf j := by
  rw [ownOf, ownOf, ← List.getElem?_map, ← List.getElem?_map, sameTasks, owns_set present next same]
  rfl

theorem Recorded.kept (recorded : state.Recorded entered) (jobs : after.pushedJobs = state.pushedJobs)
    (owns : ∀ k < state.tasks.length, after.ownOf k = state.ownOf k)
    (length : state.tasks.length ≤ after.tasks.length) : after.Recorded entered := by
  constructor
  · rw [jobs, recorded.jobs]
    apply List.flatMap_congr
    intro k member
    exact (owns k (recorded.known k member)).symm
  · intro k member
    exact Nat.lt_of_lt_of_le (recorded.known k member) length

theorem enter_pushedJobs (cfg : TiFsConfig) (state : FileHandler) (k : Nat) (task : SpinTask) :
    (state.enter cfg k task).pushedJobs = state.pushedJobs ++ task.own := by
  rcases enter_cases cfg state k task with ⟨isAfter, _⟩ | ⟨isAfter, _⟩
  · rw [isAfter]
    simp only [pushedJobs, List.append_assoc]
  · rw [isAfter]
    simp [pushedJobs]

theorem Recorded.enter (recorded : state.Recorded entered) {k : Nat} {task : SpinTask}
    (present : state.tasks[k]? = some task) : (state.enter cfg k task).Recorded (entered ++ [k]) := by
  have bound := (List.getElem?_eq_some_iff.mp present).1
  obtain ⟨phase, sameTasks⟩ := enter_tasks cfg state k task
  have sameData : ({ task with phase := phase } : SpinTask).data = task.data := rfl
  have owns := ownOf_set present sameData sameTasks
  constructor
  · rw [enter_pushedJobs, recorded.jobs, List.flatMap_append, List.flatMap_cons, List.flatMap_nil,
      List.append_nil, owns k, ownOf_eq present]
    congr 1
    apply List.flatMap_congr
    intro j _
    exact (owns j).symm
  · intro j member
    rw [sameTasks, List.length_set]
    rcases List.mem_append.mp member with earlier | isLast
    · exact recorded.known j earlier
    · rw [List.mem_singleton.mp isLast]
      exact bound

theorem Recorded.spawn (recorded : state.Recorded entered) {task : SpinTask}
    (tasks : after.tasks = state.tasks ++ [task]) (jobs : after.pushedJobs = state.pushedJobs) :
    after.Recorded entered := by
  refine recorded.kept jobs ?_ (by rw [tasks]; simp)
  intro k bound
  rw [ownOf, ownOf, tasks, List.getElem?_append_left bound]

theorem Recorded.silent {event : HandleEvent} (none : event.entering = none)
    (recorded : after.Recorded entered) : after.Recorded (entered ++ event.entering.toList) := by
  rw [none, Option.toList_none, List.append_nil]
  exact recorded

theorem Recorded.step (recorded : state.Recorded entered) {event : HandleEvent}
    (taken : state.Step cfg event after) : after.Recorded (entered ++ event.entering.toList) := by
  cases effect_of_step taken with
  | entered k task present attempting => exact recorded.enter present
  | wrote start data free =>
      apply Recorded.silent rfl
      exact recorded.spawn rfl rfl
  | flushSpawned waiting all =>
      apply Recorded.silent rfl
      exact recorded.spawn rfl rfl
  | finished k c task call outcome present writing made =>
      apply Recorded.silent rfl
      refine recorded.kept ?_ ?_ (by simp)
      · simp only [pushedJobs, List.flatMap_def]
        have sameJobs : ({ call with outcome := some outcome } : HandedCall).jobs = call.jobs := rfl
        rw [map_set_same made sameJobs]
      · intro j _
        exact ownOf_set present (task.respond_kept outcome).1 rfl j
  | _ =>
      apply Recorded.silent rfl
      exact recorded.kept rfl (fun _ _ => rfl) le_rfl

theorem entered_invariant (holds : FileHandler → List Nat → Prop)
    (preserved : ∀ before entered event after, holds before entered → Step cfg before event after →
      holds after (entered ++ event.entering.toList))
    {events : List HandleEvent} (initial : holds state entered)
    (ran : runAll (FileHandler.step cfg) state events = some after) :
    holds after (entered ++ enteredTasks events) := by
  induction events generalizing state entered with
  | nil =>
      obtain rfl := Option.some.inj ran
      rw [enteredTasks, List.filterMap_nil, List.append_nil]
      exact initial
  | cons event rest ih =>
      simp only [runAll] at ran
      split at ran
      · next middle taken =>
          have whole : enteredTasks (event :: rest) = event.entering.toList ++ enteredTasks rest := by
            cases entering : event.entering with
            | none => simp [enteredTasks, entering]
            | some k => simp [enteredTasks, entering]
          rw [whole, ← List.append_assoc]
          exact ih (preserved _ _ event _ initial taken) ran
      · cases ran

theorem flatMap_pushers (events : List HandleEvent) :
    (state.pushers events).flatMap state.ownOf = (enteredTasks events).flatMap state.ownOf := by
  unfold pushers
  induction enteredTasks events with
  | nil => rfl
  | cons k rest ih =>
      by_cases empty : state.ownOf k = []
      · rw [List.filter_cons_of_neg (by simpa using empty), List.flatMap_cons, empty, List.nil_append]
        exact ih
      · rw [List.filter_cons_of_pos (by simpa using empty), List.flatMap_cons, List.flatMap_cons, ih]

end Recorded

def OneInProgress (state : FileHandler) : Prop :=
  state.inProgress = [] ∨ ∃ size, state.fuse = .pushing size ∧
    state.inProgress = [state.tasks.length - 1]

/-- Tasks have entered one after the other. -/
structure Sequential (state : FileHandler) (entered : List Nat) : Prop where
  tracked : state.Tracked
  one : state.OneInProgress
  recorded : state.Recorded entered
  order : entered.Pairwise (· ≤ ·)

section Sequential

variable {cfg : TiFsConfig} {state after : FileHandler} {entered : List Nat}

theorem sequential_new : new.Sequential [] :=
  ⟨tracked_new, Or.inl rfl, recorded_new, List.Pairwise.nil⟩

theorem Sequential.last (sequential : state.Sequential entered) {k : Nat} {task : SpinTask}
    (present : state.tasks[k]? = some task) (unfinished : task.phase.result = none) :
    k + 1 = state.tasks.length := by
  have bound := (List.getElem?_eq_some_iff.mp present).1
  rcases sequential.tracked.progress k task present unfinished with listed | isFlushing
  · rcases sequential.one with none | ⟨_, _, single⟩
    · rw [none] at listed
      cases listed
    · rw [single, List.mem_singleton] at listed
      omega
  · obtain ⟨_, _, _, _, isLast, _⟩ := sequential.tracked.flushing k isFlushing
    exact isLast

theorem Sequential.enter_last (sequential : state.Sequential entered) {k : Nat} {task : SpinTask}
    (present : state.tasks[k]? = some task) (attempting : task.phase = .attempt) :
    (entered ++ [k]).Pairwise (· ≤ ·) := by
  have isLast := sequential.last present (by rw [attempting]; rfl)
  rw [List.pairwise_append]
  refine ⟨sequential.order, List.pairwise_singleton _ _, ?_⟩
  intro j member other isOther
  rw [List.mem_singleton.mp isOther]
  have known := sequential.recorded.known j member
  omega

theorem free_inProgress (one : state.OneInProgress) (notPushing : ∀ size, state.fuse ≠ .pushing size) :
    state.inProgress = [] := by
  rcases one with none | ⟨size, pushing, _⟩
  · exact none
  · exact absurd pushing (notPushing size)

/-- With a limit of at most one, a write is acknowledged when its task has ended. -/
theorem OneInProgress.pushed (limit : cfg.writeInProgressLimit ≤ 1) (one : state.OneInProgress)
    {done : Nat} (taken : state.Step cfg (.pushed done) after) : after.inProgress = [] := by
  unfold Step FileHandler.step at taken
  simp only at taken
  split at taken
  · next size pushing =>
      split at taken
      · split at taken
        · next listed =>
            obtain ⟨result, _, rfl⟩ := Option.map_eq_some_iff.mp taken
            rcases one with none | ⟨_, _, single⟩
            · rw [none] at listed
              cases listed
            · rw [single] at listed ⊢
              rw [List.mem_singleton.mp listed]
              simp
        · cases taken
      · next below =>
          rcases one with none | ⟨_, _, single⟩
          · obtain rfl := Option.some.inj taken
            exact none
          · rw [single] at below
            simp only [List.length_singleton] at below
            omega
  · cases taken

theorem oneInProgress_step (limit : cfg.writeInProgressLimit ≤ 1) (one : state.OneInProgress)
    {event : HandleEvent} (taken : state.Step cfg event after) : after.OneInProgress := by
  cases effect_of_step taken with
  | wrote start data free =>
      obtain ⟨reply, isFree⟩ := isFree_iff.mp free
      have none := free_inProgress one (by rw [isFree]; simp)
      exact Or.inr ⟨data.length, rfl, by simp [none, spawn]⟩
  | pushed done size inProgress reply pushing removed => exact Or.inl (one.pushed limit taken)
  | entered k task present attempting =>
      rcases enter_cases cfg state k task with ⟨isAfter, _⟩ | ⟨isAfter, _⟩
      · rw [isAfter]
        simpa [OneInProgress] using one
      · rw [isAfter]
        simpa [OneInProgress] using one
  | finished k c task call outcome present writing made => simpa [OneInProgress] using one
  | flushBegan free =>
      obtain ⟨reply, isFree⟩ := isFree_iff.mp free
      have none := free_inProgress one (by rw [isFree]; simp)
      exact Or.inl none
  | flushFailed issue waiting all => exact Or.inl rfl
  | flushSpawned waiting all => exact Or.inl rfl
  | flushed k result flushing isResult =>
      have none := free_inProgress one (by rw [flushing]; simp)
      exact Or.inl none
  | readBegan start size free =>
      obtain ⟨reply, isFree⟩ := isFree_iff.mp free
      have none := free_inProgress one (by rw [isFree]; simp)
      exact Or.inl none
  | readReady start size waiting all => exact Or.inl rfl
  | readDone start size result reading =>
      have none := free_inProgress one (by rw [reading]; simp)
      exact Or.inl none

theorem Sequential.step (limit : cfg.writeInProgressLimit ≤ 1) (sequential : state.Sequential entered)
    {event : HandleEvent} (taken : state.Step cfg event after) :
    after.Sequential (entered ++ event.entering.toList) := by
  refine ⟨sequential.tracked.step taken, oneInProgress_step limit sequential.one taken,
    sequential.recorded.step taken, ?_⟩
  cases effect_of_step taken with
  | entered k task present attempting => exact sequential.enter_last present attempting
  | _ =>
      rw [HandleEvent.entering, Option.toList_none, List.append_nil]
      · exact sequential.order
      · simp

end Sequential

def secondFirst : List HandleEvent :=
  [.write 0 [1], .pushed 0, .write 0 [2], .enter 1, .enter 0]

theorem secondFirst_run {cfg : TiFsConfig} (limit : 1 < cfg.writeInProgressLimit) :
    ∃ state, runAll (step cfg) new secondFirst = some state ∧ ¬ state.InIssueOrder secondFirst := by
  let first : SpinTask := ⟨⟨[1], 0⟩, false, 0, .attempt⟩
  let second : SpinTask := ⟨⟨[2], 0⟩, false, 0, .attempt⟩
  let both : FileHandler := ⟨[], [first, second], [0, 1], [], [], .pushing 1⟩
  let middle := both.enter cfg 1 second
  let last := middle.enter cfg 0 first
  have below : ¬ 1 ≥ cfg.writeInProgressLimit := by omega
  have issued : runAll (step cfg) new secondFirst = runAll (step cfg) both [.enter 1, .enter 0] := by
    simp [runAll, secondFirst, step, new, isFree, spawn, firstError, below, both, first, second]
  obtain ⟨phase, inMiddle⟩ := enter_tasks cfg both 1 second
  obtain ⟨other, inLast⟩ := enter_tasks cfg middle 0 first
  have waiting : middle.tasks[0]? = some first := by
    rw [inMiddle]
    rfl
  have enterFirst : middle.step cfg (.enter 0) = some last := by
    simp only [step, waiting]
    rfl
  have ran : runAll (step cfg) both [.enter 1, .enter 0] = some last := by
    simp only [runAll, enterFirst, show both.step cfg (.enter 1) = some middle from rfl]
  refine ⟨last, issued.trans ran, ?_⟩
  intro inOrder
  have isTasks : last.tasks = [{ first with phase := other }, { second with phase := phase }] := by
    rw [inLast, inMiddle]
    rfl
  have isPushers : last.pushers secondFirst = [1, 0] := by
    have entered : enteredTasks secondFirst = [1, 0] := rfl
    simp [pushers, entered, ownOf, isTasks, SpinTask.own, first, second]
  have sorted := inOrder.order
  rw [isPushers] at sorted
  revert sorted
  decide

/-- Along every run the jobs of a handle come into the accumulator and to `hb_write_data`
in the order of their FUSE calls, exactly if at most one task may be in progress. -/
theorem writes_in_issue_order_iff (cfg : TiFsConfig) :
    (∀ events state, runAll (step cfg) new events = some state → state.InIssueOrder events) ↔
      cfg.writeInProgressLimit ≤ 1 := by
  constructor
  · intro inOrder
    by_contra exceeds
    obtain ⟨state, ran, outOfOrder⟩ := secondFirst_run (Nat.lt_of_not_le exceeds)
    exact outOfOrder (inOrder secondFirst state ran)
  · intro limit events state ran
    have sequential : state.Sequential (enteredTasks events) :=
      entered_invariant (fun state entered => state.Sequential entered)
        (fun _ _ _ _ holds taken => holds.step limit taken) sequential_new ran
    constructor
    · rw [flatMap_pushers]
      exact sequential.recorded.jobs
    · exact sequential.order.filter _

/-- With a limit of two the byte of the first of two writes is handed over last. -/
theorem second_write_handed_first :
    ¬ ∀ (cfg : TiFsConfig) (events : List HandleEvent) (state : FileHandler),
      runAll (step cfg) new events = some state → state.InIssueOrder events := by
  intro inOrder
  let cfg : TiFsConfig := { paddingConfig 2 (by decide) with writeInProgressLimit := 2 }
  obtain ⟨state, ran, outOfOrder⟩ := secondFirst_run (show 1 < cfg.writeInProgressLimit by decide)
  exact outOfOrder (inOrder cfg secondFirst state ran)

end FileHandler

end TiFs
