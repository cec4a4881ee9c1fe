import TiFs.FileHandle

/-! Whether the data of all writes on a handle has reached `hb_write_data` when a
flush returns. An attempt takes everything that is accumulated with it, and if it
fails the retry has only its own data. -/

namespace TiFs

open KeyValue Tables

/-- Errors after which `spin` runs its closure again. -/
def FsError.isRetried (otherErrorCount : Nat) : FsError → Bool
  | .keyError _ => true
  | .unknownError _ => otherErrorCount < 3
  | _ => false

def HandedCall.kept (call : HandedCall) : List WriteTaskData :=
  match call.outcome with
  | some (.error _) => []
  | _ => call.jobs

def HandedCall.written (call : HandedCall) : List WriteTaskData :=
  match call.outcome with
  | some (.ok _) => call.jobs
  | _ => []

namespace FileHandler

def accepted (state : FileHandler) : List WriteTaskData := state.tasks.flatMap SpinTask.own

/-- What was handed to calls that returned `Ok`, in the order of the calls. -/
def written (state : FileHandler) : List WriteTaskData := state.calls.flatMap HandedCall.written

def isFlushed (state : FileHandler) : Bool :=
  match state.fuse with
  | .returned (some (.flushed (.ok ()))) => true
  | _ => false

/-- Attempts fail only with errors after which they are made again. -/
def Retried (state : FileHandler) : HandleEvent → Prop
  | .finish k (.error issue) =>
      ∀ task ∈ state.tasks[k]?, issue.isRetried task.otherErrorCount = true
  | _ => True

/-- Tasks enter in the order of their FUSE calls, and an attempt that fails had
taken nothing but the data of its own call, with no later task entered since. -/
def TakesOwn (state : FileHandler) : HandleEvent → Prop
  | .enter k => ∀ j < k, ∀ task ∈ state.tasks[j]?, task.phase.isAttempt = false
  | .finish k (.error _) =>
      (∀ task ∈ state.tasks[k]?, ∀ c ∈ task.phase.call, ∀ call ∈ state.calls[c]?,
        call.jobs = task.own) ∧
      ∀ j < state.tasks.length, k < j → ∀ task ∈ state.tasks[j]?, task.phase.isAttempt = true
  | _ => True

instance (state : FileHandler) : (event : HandleEvent) → Decidable (state.Retried event)
  | .finish k (.error issue) => by unfold Retried; infer_instance
  | .finish _ (.ok _) => isTrue trivial
  | .write _ _ => isTrue trivial
  | .pushed _ => isTrue trivial
  | .enter _ => isTrue trivial
  | .flush => isTrue trivial
  | .flushReady => isTrue trivial
  | .flushed => isTrue trivial
  | .read _ _ => isTrue trivial
  | .readReady => isTrue trivial
  | .readDone _ => isTrue trivial

instance (state : FileHandler) : (event : HandleEvent) → Decidable (state.TakesOwn event)
  | .finish k (.error _) => by unfold TakesOwn; infer_instance
  | .enter k => by unfold TakesOwn; infer_instance
  | .finish _ (.ok _) => isTrue trivial
  | .write _ _ => isTrue trivial
  | .pushed _ => isTrue trivial
  | .flush => isTrue trivial
  | .flushReady => isTrue trivial
  | .flushed => isTrue trivial
  | .read _ _ => isTrue trivial
  | .readReady => isTrue trivial
  | .readDone _ => isTrue trivial

def owns (state : FileHandler) : List (List WriteTaskData) := state.tasks.map SpinTask.own

def kept (state : FileHandler) : List (List WriteTaskData) := state.calls.map HandedCall.kept

/-- The first tasks have entered, and their data is with the calls and in the
accumulator, in order. Behind a call that a task waits for there is only the data
of later tasks. -/
structure EnteredInOrder (state : FileHandler) (n : Nat) : Prop where
  bound : n ≤ state.tasks.length
  entered : ∀ (j : Nat) (task : SpinTask), state.tasks[j]? = some task →
    (task.phase = .attempt ↔ n ≤ j)
  jobs : state.kept.flatten ++ state.writeAccumulator = (state.owns.take n).flatten
  writing : ∀ (j c : Nat) (task : SpinTask), state.tasks[j]? = some task → task.phase = .writing c →
    ∃ call, state.calls[c]? = some call ∧ call.outcome = none ∧ call.jobs ≠ [] ∧
      (state.kept.drop (c + 1)).flatten ++ state.writeAccumulator =
        ((state.owns.take n).drop (j + 1)).flatten
  alone : ∀ (j k c : Nat) (one other : SpinTask), state.tasks[j]? = some one →
    state.tasks[k]? = some other → one.phase = .writing c → other.phase = .writing c → j = k

theorem enteredInOrder_new : new.EnteredInOrder 0 := by
  constructor
  · exact le_rfl
  · intro j task present
    cases present
  · rfl
  · intro j c task present
    cases present
  · intro j k c one other present
    cases present

section Entered

variable {cfg : TiFsConfig} {state : FileHandler} {n : Nat}

theorem own_of_data {task next : SpinTask} (same : next.data = task.data) : next.own = task.own := by
  rw [SpinTask.own, SpinTask.own, same]

theorem owns_set {k : Nat} {task : SpinTask} (present : state.tasks[k]? = some task) (next : SpinTask)
    (same : next.data = task.data) : (state.tasks.set k next).map SpinTask.own = state.owns :=
  map_set_same present (own_of_data same)

theorem kept_set {c : Nat} {call : HandedCall} (made : state.calls[c]? = some call)
    (next : HandedCall) (same : next.kept = call.kept) :
    (state.calls.set c next).map HandedCall.kept = state.kept :=
  map_set_same made same

theorem owns_getElem? {k : Nat} {task : SpinTask} (present : state.tasks[k]? = some task) :
    state.owns[k]? = some task.own := by
  rw [owns, List.getElem?_map, present]
  rfl

theorem flatten_take_succ {k : Nat} {task : SpinTask} (present : state.tasks[k]? = some task)
    {j : Nat} (before : j ≤ k) :
    ((state.owns.take (k + 1)).drop j).flatten = ((state.owns.take k).drop j).flatten ++ task.own := by
  have isOwn := owns_getElem? present
  have bound := (List.getElem?_eq_some_iff.mp isOwn).1
  rw [List.take_add_one, isOwn, Option.toList_some, List.drop_append_of_le_length, List.flatten_append]
  · simp
  · rw [List.length_take]
    omega

theorem EnteredInOrder.spawn (order : state.EnteredInOrder n) (data : WriteTaskData) (flush : Bool)
    (inProgress : List Nat) (results : List (Except FsError Nat)) (fuse : FuseCall) :
    EnteredInOrder { state.spawn data flush with
      inProgress := inProgress, results := results, fuse := fuse } n := by
  have sameOwns : ((state.tasks ++ [(⟨data, flush, 0, .attempt⟩ : SpinTask)]).map SpinTask.own).take n =
      state.owns.take n := by
    rw [List.map_append, List.take_append_of_le_length]
    · rfl
    · rw [List.length_map]
      exact order.bound
  have old : ∀ (j c : Nat) (task : SpinTask),
      (state.tasks ++ [(⟨data, flush, 0, .attempt⟩ : SpinTask)])[j]? = some task →
      task.phase = .writing c → state.tasks[j]? = some task := by
    intro j c task present writing
    rcases getElem?_concat_cases present with ⟨_, rfl⟩ | earlier
    · cases writing
    · exact earlier
  constructor
  · simp only [FileHandler.spawn, List.length_append, List.length_singleton]
    exact Nat.le_succ_of_le order.bound
  · intro j task present
    rcases getElem?_concat_cases present with ⟨rfl, rfl⟩ | earlier
    · simpa using order.bound
    · exact order.entered j task earlier
  · simp only [FileHandler.spawn, owns, sameOwns]
    exact order.jobs
  · intro j c task present writing
    simp only [FileHandler.spawn, owns, sameOwns]
    exact order.writing j c task (old j c task present writing) writing
  · intro j k c one other isOne isOther oneWriting otherWriting
    exact order.alone j k c one other (old j c one isOne oneWriting) (old k c other isOther otherWriting)
      oneWriting otherWriting

/-- In order, only the first task that has not entered may enter. -/
theorem EnteredInOrder.next (order : state.EnteredInOrder n) {k : Nat} {task : SpinTask}
    (present : state.tasks[k]? = some task) (attempting : task.phase = .attempt)
    (inOrder : ∀ j < k, ∀ task ∈ state.tasks[j]?, task.phase.isAttempt = false) : n = k := by
  have notBehind := (order.entered k task present).mp attempting
  by_contra different
  have earlier : n < k := by omega
  have bound := (List.getElem?_eq_some_iff.mp present).1
  have isTask : state.tasks[n]? = some (state.tasks[n]) := List.getElem?_eq_getElem (by omega)
  have isAttempt := (order.entered n _ isTask).mpr le_rfl
  have entered := inOrder n earlier _ isTask
  rw [isAttempt] at entered
  cases entered

theorem EnteredInOrder.accumulate (order : state.EnteredInOrder n) {task : SpinTask}
    (present : state.tasks[n]? = some task) (result : Except FsError Nat) :
    EnteredInOrder { state with
      writeAccumulator := state.writeAccumulator ++ task.own
      tasks := state.tasks.set n { task with phase := .finished result } } (n + 1) := by
  have bound := (List.getElem?_eq_some_iff.mp present).1
  have sameOwns := owns_set present { task with phase := .finished result } rfl
  have old : ∀ (j c : Nat) (other : SpinTask),
      (state.tasks.set n { task with phase := .finished result })[j]? = some other →
      other.phase = .writing c → state.tasks[j]? = some other := by
    intro j c other found writing
    rcases getElem?_set_cases found with ⟨_, rfl⟩ | ⟨_, earlier⟩
    · cases writing
    · exact earlier
  constructor
  · rw [List.length_set]
    exact bound
  · intro j other found
    rcases getElem?_set_cases found with ⟨rfl, rfl⟩ | ⟨different, earlier⟩
    · simp
    · rw [order.entered j other earlier]
      omega
  · have joined := flatten_take_succ present (Nat.zero_le n)
    rw [List.drop_zero, List.drop_zero, ← order.jobs] at joined
    unfold owns kept
    rw [sameOwns, joined, List.append_assoc]
    rfl
  · intro j c other found writing
    have earlier := old j c other found writing
    have entered : j < n := by
      by_contra notEntered
      rw [(order.entered j other earlier).mpr (by omega)] at writing
      cases writing
    obtain ⟨call, made, unanswered, nonempty, behind⟩ := order.writing j c other earlier writing
    refine ⟨call, made, unanswered, nonempty, ?_⟩
    unfold owns kept
    rw [sameOwns, flatten_take_succ present (by omega), ← behind, List.append_assoc]
    rfl
  · intro j k c one other isOne isOther oneWriting otherWriting
    exact order.alone j k c one other (old j c one isOne oneWriting) (old k c other isOther otherWriting)
      oneWriting otherWriting

theorem EnteredInOrder.take (order : state.EnteredInOrder n) {task : SpinTask}
    (present : state.tasks[n]? = some task) (something : state.writeAccumulator ++ task.own ≠ []) :
    EnteredInOrder { state with
      writeAccumulator := []
      tasks := state.tasks.set n { task with phase := .writing state.calls.length }
      calls := state.calls ++ [⟨state.writeAccumulator ++ task.own, none⟩] } (n + 1) := by
  have bound := (List.getElem?_eq_some_iff.mp present).1
  have sameOwns := owns_set present { task with phase := .writing state.calls.length } rfl
  have keptNow : (state.calls ++ [(⟨state.writeAccumulator ++ task.own, none⟩ : HandedCall)]).map
      HandedCall.kept = state.kept ++ [state.writeAccumulator ++ task.own] := by
    rw [List.map_append]
    rfl
  have keptLength : state.kept.length = state.calls.length := List.length_map _
  have old : ∀ (j c : Nat) (other : SpinTask),
      (state.tasks.set n { task with phase := .writing state.calls.length })[j]? = some other →
      other.phase = .writing c →
      j = n ∧ c = state.calls.length ∨ j < n ∧ c < state.calls.length ∧ state.tasks[j]? = some other := by
    intro j c other found writing
    rcases getElem?_set_cases found with ⟨rfl, rfl⟩ | ⟨_, earlier⟩
    · exact Or.inl ⟨rfl, (TaskPhase.writing.inj writing).symm⟩
    · obtain ⟨call, made, _⟩ := order.writing j c other earlier writing
      refine Or.inr ⟨?_, (List.getElem?_eq_some_iff.mp made).1, earlier⟩
      by_contra notEntered
      rw [(order.entered j other earlier).mpr (by omega)] at writing
      cases writing
  constructor
  · rw [List.length_set]
    exact bound
  · intro j other found
    rcases getElem?_set_cases found with ⟨rfl, rfl⟩ | ⟨different, earlier⟩
    · simp
    · rw [order.entered j other earlier]
      omega
  · have joined := flatten_take_succ present (Nat.zero_le n)
    rw [List.drop_zero, List.drop_zero, ← order.jobs] at joined
    unfold owns kept
    rw [sameOwns, joined, keptNow]
    simp
  · intro j c other found writing
    rcases old j c other found writing with ⟨rfl, rfl⟩ | ⟨entered, known, earlier⟩
    · refine ⟨_, List.getElem?_concat_length, rfl, something, ?_⟩
      unfold owns kept
      rw [sameOwns, keptNow, List.drop_eq_nil_of_le (by simp [keptLength]),
        List.drop_eq_nil_of_le (by rw [List.length_take]; omega)]
      rfl
    · obtain ⟨call, made, unanswered, nonempty, behind⟩ := order.writing j c other earlier writing
      refine ⟨call, ?_, unanswered, nonempty, ?_⟩
      · rw [List.getElem?_append_left known]
        exact made
      · unfold owns kept
        rw [sameOwns, flatten_take_succ present (by omega), ← behind, keptNow,
          List.drop_append_of_le_length (by omega)]
        simp
  · intro j k c one other isOne isOther oneWriting otherWriting
    rcases old j c one isOne oneWriting with ⟨rfl, isNew⟩ | ⟨_, known, wasOne⟩
    · rcases old k c other isOther otherWriting with ⟨rfl, _⟩ | ⟨_, known, _⟩
      · rfl
      · omega
    · rcases old k c other isOther otherWriting with ⟨rfl, isNew⟩ | ⟨_, _, wasOther⟩
      · omega
      · exact order.alone j k c one other wasOne wasOther oneWriting otherWriting

theorem EnteredInOrder.succeed (order : state.EnteredInOrder n) {k c : Nat} {task : SpinTask}
    {call : HandedCall} (present : state.tasks[k]? = some task) (writing : task.phase = .writing c)
    (made : state.calls[c]? = some call) (modified : Bool) :
    EnteredInOrder { state with
      tasks := state.tasks.set k (task.respond (.ok modified))
      calls := state.calls.set c { call with outcome := some (.ok modified) } } n := by
  have sameOwns := owns_set present (task.respond (.ok modified)) rfl
  obtain ⟨_, isCall, unanswered, _⟩ := order.writing k c task present writing
  rw [made] at isCall
  obtain rfl := Option.some.inj isCall
  have sameKept := kept_set made { call with outcome := some (.ok modified) }
    (by simp only [HandedCall.kept, unanswered])
  have old : ∀ (j d : Nat) (other : SpinTask),
      (state.tasks.set k (task.respond (.ok modified)))[j]? = some other → other.phase = .writing d →
      k ≠ j ∧ state.tasks[j]? = some other := by
    intro j d other found isWriting
    rcases getElem?_set_cases found with ⟨_, rfl⟩ | ⟨different, earlier⟩
    · cases isWriting
    · exact ⟨different, earlier⟩
  constructor
  · rw [List.length_set]
    exact order.bound
  · intro j other found
    rcases getElem?_set_cases found with ⟨rfl, rfl⟩ | ⟨_, earlier⟩
    · have entered := order.entered k task present
      rw [writing] at entered
      simp only [reduceCtorEq, false_iff] at entered
      simp only [SpinTask.respond, reduceCtorEq, false_iff]
      exact entered
    · exact order.entered j other earlier
  · unfold owns kept
    rw [sameOwns, sameKept]
    exact order.jobs
  · intro j d other found isWriting
    obtain ⟨different, earlier⟩ := old j d other found isWriting
    obtain ⟨another, isMade, isOpen, nonempty, behind⟩ := order.writing j d other earlier isWriting
    refine ⟨another, ?_, isOpen, nonempty, ?_⟩
    · have otherCall : c ≠ d := by
        intro same
        rw [same] at writing
        exact different (order.alone k j d task other present earlier writing isWriting)
      rw [List.getElem?_set_ne otherCall]
      exact isMade
    · unfold owns kept
      rw [sameOwns, sameKept]
      exact behind
  · intro j l d one other isOne isOther oneWriting otherWriting
    exact order.alone j l d one other (old j d one isOne oneWriting).2 (old l d other isOther otherWriting).2
      oneWriting otherWriting

theorem EnteredInOrder.fail (order : state.EnteredInOrder (n + 1)) {c : Nat} {task next : SpinTask}
    {call : HandedCall} (present : state.tasks[n]? = some task) (writing : task.phase = .writing c)
    (made : state.calls[c]? = some call) (own : call.jobs = task.own) (issue : FsError)
    (again : next.phase = .attempt) (sameData : next.data = task.data) :
    EnteredInOrder { state with
      tasks := state.tasks.set n next
      calls := state.calls.set c { call with outcome := some (.error issue) } } n := by
  have sameOwns := owns_set present next sameData
  obtain ⟨_, isCall, unanswered, nonempty, behind⟩ := order.writing n c task present writing
  rw [made] at isCall
  obtain rfl := Option.some.inj isCall
  have inCalls := (List.getElem?_eq_some_iff.mp made).1
  have inKept : c < state.kept.length := by
    rw [kept, List.length_map]
    exact inCalls
  have isKept : state.kept[c]? = some task.own := by
    rw [kept, List.getElem?_map, made, ← own, Option.map_some, HandedCall.kept, unanswered]
  -- Nothing comes behind the data of the call.
  have noTail : (state.owns.take (n + 1)).drop (n + 1) = [] := by
    apply List.drop_eq_nil_of_le
    rw [List.length_take]
    omega
  rw [noTail, List.flatten_nil] at behind
  obtain ⟨noneBehind, empty⟩ := List.append_eq_nil_iff.mp behind
  have keptNow : (state.calls.set c { call with outcome := some (.error issue) }).map HandedCall.kept =
      state.kept.set c [] := by
    rw [List.map_set]
    rfl
  -- What is left behind an earlier place of the calls is what was there without the data of the call.
  have without : ∀ d ≤ c, (state.kept.drop d).flatten =
      ((state.kept.set c []).drop d).flatten ++ task.own := by
    intro d before
    have split : state.kept = state.kept.take c ++ task.own :: state.kept.drop (c + 1) := by
      have whole := List.take_append_drop c state.kept
      rw [List.drop_eq_getElem_cons inKept] at whole
      have isOwn := (List.getElem?_eq_some_iff.mp isKept).2
      rw [isOwn] at whole
      exact whole.symm
    have length : (state.kept.take c).length = c := by
      rw [List.length_take]
      omega
    have cleared : state.kept.set c [] = state.kept.take c ++ [] :: state.kept.drop (c + 1) := by
      rw [List.set_eq_take_append_cons_drop, if_pos inKept]
    rw [cleared]
    nth_rewrite 1 [split]
    rw [List.drop_append_of_le_length (by omega), List.drop_append_of_le_length (by omega)]
    simp [noneBehind]
  have old : ∀ (j d : Nat) (other : SpinTask), (state.tasks.set n next)[j]? = some other →
      other.phase = .writing d → j < n ∧ state.tasks[j]? = some other := by
    intro j d other found isWriting
    rcases getElem?_set_cases found with ⟨_, rfl⟩ | ⟨different, earlier⟩
    · rw [again] at isWriting
      cases isWriting
    · refine ⟨?_, earlier⟩
      by_contra notEntered
      rw [(order.entered j other earlier).mpr (by omega)] at isWriting
      cases isWriting
  constructor
  · rw [List.length_set]
    have bound := order.bound
    omega
  · intro j other found
    rcases getElem?_set_cases found with ⟨rfl, rfl⟩ | ⟨different, earlier⟩
    · simp [again]
    · rw [order.entered j other earlier]
      omega
  · have all := order.jobs
    have joined := flatten_take_succ present (Nat.zero_le n)
    rw [List.drop_zero, List.drop_zero] at joined
    have cut := without 0 (Nat.zero_le c)
    rw [List.drop_zero, List.drop_zero] at cut
    rw [joined, cut, empty, List.append_nil] at all
    unfold owns kept
    simp only [sameOwns, keptNow, empty, List.append_nil]
    exact List.append_cancel_right all
  · intro j d other found isWriting
    obtain ⟨entered, earlier⟩ := old j d other found isWriting
    obtain ⟨another, isMade, isOpen, isNonempty, rest⟩ := order.writing j d other earlier isWriting
    have different : c ≠ d := by
      intro same
      rw [same] at writing
      have isTask := order.alone n j d task other present earlier writing isWriting
      omega
    have before : d < c := by
      by_contra notBefore
      have later : c + 1 ≤ d := by omega
      have isJobs : (state.kept.drop (c + 1))[d - (c + 1)]? = some another.jobs := by
        rw [List.getElem?_drop, Nat.add_sub_cancel' later, kept, List.getElem?_map, isMade,
          Option.map_some, HandedCall.kept, isOpen]
      have noJobs := List.flatten_eq_nil_iff.mp noneBehind _ (List.mem_of_getElem? isJobs)
      exact isNonempty noJobs
    refine ⟨another, ?_, isOpen, isNonempty, ?_⟩
    · rw [List.getElem?_set_ne different]
      exact isMade
    · rw [flatten_take_succ present (by omega), without (d + 1) (by omega), empty, List.append_nil]
        at rest
      unfold owns kept
      simp only [sameOwns, keptNow, empty, List.append_nil]
      exact List.append_cancel_right rest
  · intro j l d one other isOne isOther oneWriting otherWriting
    exact order.alone j l d one other (old j d one isOne oneWriting).2 (old l d other isOther otherWriting).2
      oneWriting otherWriting

theorem EnteredInOrder.fuse (order : state.EnteredInOrder n) (inProgress : List Nat)
    (results : List (Except FsError Nat)) (fuse : FuseCall) :
    EnteredInOrder { state with inProgress := inProgress, results := results, fuse := fuse } n :=
  ⟨order.bound, order.entered, order.jobs, order.writing, order.alone⟩

theorem respond_retried {task : SpinTask} {issue : FsError}
    (retried : issue.isRetried task.otherErrorCount = true) :
    (task.respond (.error issue)).phase = .attempt := by
  cases issue with
  | keyError msg => rfl
  | unknownError msg =>
      simp only [FsError.isRetried, decide_eq_true_eq] at retried
      simp only [SpinTask.respond]
      rw [if_neg (by omega)]
  | _ => cases retried

theorem EnteredInOrder.step (order : state.EnteredInOrder n) {event : HandleEvent} {after : FileHandler}
    (taken : state.Step cfg event after) (retried : state.Retried event)
    (takesOwn : state.TakesOwn event) : ∃ m, after.EnteredInOrder m := by
  cases effect_of_step taken with
  | wrote start data free => exact ⟨n, order.spawn ⟨data, start⟩ false _ _ _⟩
  | pushed done size inProgress reply pushing removed => exact ⟨n, order.fuse _ _ _⟩
  | entered k task present attempting =>
      obtain rfl := order.next present attempting takesOwn
      rcases enter_cases cfg state n task with ⟨isAfter, _⟩ | ⟨isAfter, something⟩
      · rw [isAfter]
        exact ⟨n + 1, order.accumulate present _⟩
      · rw [isAfter]
        exact ⟨n + 1, order.take present something⟩
  | finished k c task call outcome present writing made =>
      cases outcome with
      | ok modified => exact ⟨n, order.succeed present writing made modified⟩
      | error issue =>
          have own := takesOwn.1 task present c (by rw [writing]; rfl) call made
          have isEntered : k < n := by
            by_contra notEntered
            rw [(order.entered k task present).mpr (by omega)] at writing
            cases writing
          have isLast : n = k + 1 := by
            by_contra notLast
            have bound := order.bound
            have isTask : state.tasks[n - 1]? = some (state.tasks[n - 1]) :=
              List.getElem?_eq_getElem (by omega)
            have waits := takesOwn.2 (n - 1) (by omega) (by omega) _ isTask
            have notWaiting := (not_congr (order.entered (n - 1) _ isTask)).mpr (by omega)
            cases phase : (state.tasks[n - 1]).phase with
            | attempt => exact notWaiting phase
            | writing c => rw [phase] at waits; cases waits
            | finished result => rw [phase] at waits; cases waits
          subst isLast
          exact ⟨k, order.fail present writing made own issue
            (respond_retried (retried task present)) (task.respond_kept _).1⟩
  | flushBegan free => exact ⟨n, order.fuse _ _ _⟩
  | flushFailed issue waiting all => exact ⟨n, order.fuse _ _ _⟩
  | flushSpawned waiting all => exact ⟨n, order.spawn ⟨[], 0⟩ true _ _ _⟩
  | flushed k result flushing isResult => exact ⟨n, order.fuse _ _ _⟩
  | readBegan start size free => exact ⟨n, order.fuse _ _ _⟩
  | readReady start size waiting all => exact ⟨n, order.fuse _ _ _⟩
  | readDone start size result reading => exact ⟨n, order.fuse _ _ _⟩

/-- Once every task is finished, all data is with calls that have returned `Ok` or in the accumulator. -/
theorem EnteredInOrder.settled (order : state.EnteredInOrder n) (tracked : state.Tracked)
    (finished : ∀ task ∈ state.tasks, task.phase.result.isSome) :
    state.written ++ state.writeAccumulator = state.accepted := by
  have all : n = state.tasks.length := by
    by_contra different
    have bound := order.bound
    have isTask : state.tasks[n]? = some (state.tasks[n]) := List.getElem?_eq_getElem (by omega)
    have done := finished _ (List.mem_of_getElem? isTask)
    rw [(order.entered n _ isTask).mpr le_rfl] at done
    cases done
  have answered : ∀ call ∈ state.calls, call.written = call.kept := by
    intro call member
    obtain ⟨c, made⟩ := List.mem_iff_getElem?.mp member
    unfold HandedCall.written HandedCall.kept
    cases outcome : call.outcome with
    | some returned =>
        cases returned with
        | ok modified => rfl
        | error issue => rfl
    | none =>
        obtain ⟨k, task, present, writing⟩ := tracked.owned c call made outcome
        have done := finished task (List.mem_of_getElem? present)
        rw [writing] at done
        cases done
  have jobs := order.jobs
  rw [List.take_of_length_le (by rw [owns, List.length_map, all])] at jobs
  rw [written, accepted, List.flatMap_def, List.flatMap_def, List.map_congr_left answered]
  exact jobs

end Entered

theorem exists_run (cfg : TiFsConfig) (allowed : FileHandler → HandleEvent → Prop)
    [∀ state event, Decidable (allowed state event)] (events : List HandleEvent)
    (check : FileHandler → Bool)
    (ran : (runAll (restrict allowed (step cfg)) new events).any check = true) :
    ∃ last, Run (Step cfg) allowed new last ∧ check last = true :=
  Run.of_restrict (fun _ _ _ taken => taken) events check ran

/-- When a flush has returned `Ok`, all accepted writes were handed, in order, to calls
that returned `Ok`, if no attempt fails with the data of another write. -/
theorem flushed_writes_handed (cfg : TiFsConfig) (state : FileHandler)
    (run : Run (Step cfg) (fun before event => before.Retried event ∧ before.TakesOwn event) new state)
    (isFlushed : state.fuse = .returned (some (.flushed (.ok ())))) :
    state.written = state.accepted := by
  have invariant : state.Tracked ∧ ∃ n, state.EnteredInOrder n := by
    refine run.invariant (fun state => state.Tracked ∧ ∃ n, state.EnteredInOrder n) ?_
      ⟨tracked_new, 0, enteredInOrder_new⟩
    intro before event after holds taken allowed
    obtain ⟨tracked, n, order⟩ := holds
    exact ⟨tracked.step taken, order.step taken allowed.1 allowed.2⟩
  obtain ⟨tracked, n, order⟩ := invariant
  obtain ⟨empty, finished⟩ := tracked.flushed isFlushed
  have settled := order.settled tracked finished
  rw [empty, List.append_nil] at settled
  exact settled

theorem isFlushed_eq {state : FileHandler} (check : state.isFlushed = true) :
    state.fuse = .returned (some (.flushed (.ok ()))) := by
  unfold isFlushed at check
  split at check
  · next isFuse => exact isFuse
  · cases check

/-- The first attempt of a write fails, the second one succeeds, and a flush returns. -/
theorem flushed_writes_handed_retried :
    ∃ state, Run (Step (paddingConfig 2 (by decide)))
      (fun before event => before.Retried event ∧ before.TakesOwn event) new state ∧
      state.fuse = .returned (some (.flushed (.ok ()))) ∧ state.accepted = [⟨[1], 0⟩] ∧
      state.written = state.accepted := by
  obtain ⟨state, run, check⟩ := exists_run (paddingConfig 2 (by decide))
    (fun before event => before.Retried event ∧ before.TakesOwn event)
    [.write 0 [1], .enter 0, .finish 0 (.error (.keyError "")), .enter 0, .finish 0 (.ok true), .pushed 0,
      .flush, .flushReady, .enter 1, .flushed]
    (fun state => state.isFlushed && decide (state.accepted = [⟨[1], 0⟩])) (by decide +kernel)
  simp only [Bool.and_eq_true, decide_eq_true_eq] at check
  have isFlushed := isFlushed_eq check.1
  exact ⟨state, run, isFlushed, check.2, flushed_writes_handed _ state run isFlushed⟩

/-- A write is left in the accumulator, the first attempt of the flush takes it and fails,
and the second one finds nothing to write. -/
theorem flush_loses_accumulated :
    ¬ ∀ (cfg : TiFsConfig) (state : FileHandler), Run (Step cfg) Retried new state →
      state.fuse = .returned (some (.flushed (.ok ()))) → state.written = state.accepted := by
  intro holds
  let cfg : TiFsConfig :=
    { paddingConfig 2 (by decide) with writeInProgressLimit := 1, writeAccumulatorFlushThreshold := 10 }
  obtain ⟨state, run, check⟩ := exists_run cfg Retried
    [.write 0 [1], .enter 0, .pushed 0, .flush, .flushReady, .enter 1,
      .finish 1 (.error (.keyError "")), .enter 1, .flushed]
    (fun state => state.isFlushed && decide (state.written ≠ state.accepted)) (by decide +kernel)
  simp only [Bool.and_eq_true, decide_eq_true_eq] at check
  exact check.2 (holds cfg state run (isFlushed_eq check.1))

end FileHandler

end TiFs
