import TiFs.WriteCall

/-! A file handle: FUSE writes become tasks that put their data into the write
accumulator and, when enough of it is there, hand everything to `hb_write_data`.
The retry loop around a task runs it again with the task's own data only. -/

namespace TiFs

open Tables

inductive TaskPhase where
  | attempt
  | writing (call : Nat)
  | finished (result : Except FsError Nat)

/-- The future `spin(write)` of one FUSE write or, without data, of a flush. -/
structure SpinTask where
  data : WriteTaskData
  flush : Bool
  otherErrorCount : Nat
  phase : TaskPhase

structure HandedCall where
  jobs : List WriteTaskData
  outcome : Option (Except FsError Bool)

inductive FuseReply where
  | wrote (result : Except FsError Nat)
  | flushed (result : Except FsError Unit)
  | read (start size : Nat) (result : Except FsError Bytes)

/-- The FUSE call on the handle: they are made one after the other. -/
inductive FuseCall where
  | returned (reply : Option FuseReply)
  | pushing (size : Nat)
  | flushWaiting
  | flushing (task : Nat)
  | readWaiting (start size : Nat)
  | reading (start size : Nat)

/-- The tasks in the order of their FUSE calls; `inProgress` and `results` are
those of the handle's `AsyncParallelPipeStage`. -/
structure FileHandler where
  writeAccumulator : List WriteTaskData
  tasks : List SpinTask
  inProgress : List Nat
  results : List (Except FsError Nat)
  calls : List HandedCall
  fuse : FuseCall

def writeDataLen (jobs : List WriteTaskData) : Nat := (jobs.map fun job => job.data.length).sum

def SpinTask.own (task : SpinTask) : List WriteTaskData :=
  if task.data.data.length > 0 then [task.data] else []

def TaskPhase.isAttempt : TaskPhase → Bool
  | .attempt => true
  | _ => false

def TaskPhase.call : TaskPhase → Option Nat
  | .writing call => some call
  | _ => none

def TaskPhase.result : TaskPhase → Option (Except FsError Nat)
  | .finished result => some result
  | _ => none

/-- What the retry loop makes of the end of an attempt. -/
def SpinTask.respond (task : SpinTask) : Except FsError Bool → SpinTask
  | .ok _ => { task with phase := .finished (.ok task.data.data.length) }
  | .error (.keyError _) => { task with phase := .attempt }
  | .error (.unknownError msg) =>
      if task.otherErrorCount ≥ 3 then { task with phase := .finished (.error (.unknownError msg)) }
      else { task with otherErrorCount := task.otherErrorCount + 1, phase := .attempt }
  | .error issue => { task with phase := .finished (.error issue) }

theorem SpinTask.respond_kept (task : SpinTask) (outcome : Except FsError Bool) :
    (task.respond outcome).data = task.data ∧ (task.respond outcome).flush = task.flush := by
  unfold respond
  split
  · exact ⟨rfl, rfl⟩
  · exact ⟨rfl, rfl⟩
  · split
    · exact ⟨rfl, rfl⟩
    · exact ⟨rfl, rfl⟩
  · exact ⟨rfl, rfl⟩

def firstError : List (Except FsError Nat) → Option FsError
  | [] => none
  | .error issue :: _ => some issue
  | .ok _ :: rest => firstError rest

inductive HandleEvent where
  | write (start : Nat) (data : Bytes)
  | pushed (done : Nat)
  | enter (task : Nat)
  | finish (task : Nat) (outcome : Except FsError Bool)
  | flush
  | flushReady
  | flushed
  | read (start size : Nat)
  | readReady
  | readDone (result : Except FsError Bytes)

namespace FileHandler

def new : FileHandler := ⟨[], [], [], [], [], .returned none⟩

def spawn (state : FileHandler) (data : WriteTaskData) (flush : Bool) : FileHandler :=
  { state with tasks := state.tasks ++ [⟨data, flush, 0, .attempt⟩] }

/-- `Txn::write` under the lock of the accumulator. -/
def enter (cfg : TiFsConfig) (state : FileHandler) (k : Nat) (task : SpinTask) : FileHandler :=
  let accumulated := state.writeAccumulator ++ task.own
  let finished : SpinTask := { task with phase := .finished (.ok task.data.data.length) }
  if task.flush ∨ writeDataLen accumulated > cfg.writeAccumulatorFlushThreshold then
    if accumulated.length > 0 then
      { state with
        writeAccumulator := []
        tasks := state.tasks.set k { task with phase := .writing state.calls.length }
        calls := state.calls ++ [⟨accumulated, none⟩] }
    else { state with writeAccumulator := [], tasks := state.tasks.set k finished }
  else { state with writeAccumulator := accumulated, tasks := state.tasks.set k finished }

def result (state : FileHandler) (k : Nat) : Option (Except FsError Nat) :=
  (state.tasks[k]?).bind fun task => task.phase.result

/-- `wait_finish_all`: the results of all tasks in progress, once they are there. -/
def waitFinishAll (state : FileHandler) : Option (List (Except FsError Nat)) :=
  if ∀ k ∈ state.inProgress, (state.result k).isSome then
    some (state.results ++ state.inProgress.filterMap state.result)
  else none

def isFree (state : FileHandler) : Bool :=
  match state.fuse with
  | .returned _ => true
  | _ => false

def step (cfg : TiFsConfig) (state : FileHandler) : HandleEvent → Option FileHandler
  | .write start data =>
      if state.isFree then
        some { state.spawn ⟨data, start⟩ false with
          inProgress := state.inProgress ++ [state.tasks.length], fuse := .pushing data.length }
      else none
  | .pushed done =>
      match state.fuse with
      | .pushing size =>
          let reply (results : List (Except FsError Nat)) : FuseCall :=
            match firstError results with
            | some issue => .returned (some (.wrote (.error issue)))
            | none => .returned (some (.wrote (.ok size)))
          if state.inProgress.length ≥ cfg.writeInProgressLimit then
            if done ∈ state.inProgress then
              (state.result done).map fun result => { state with
                inProgress := state.inProgress.erase done
                results := []
                fuse := reply (state.results ++ [result]) }
            else none
          else some { state with results := [], fuse := reply state.results }
      | _ => none
  | .enter k =>
      match state.tasks[k]? with
      | some task =>
          match task.phase with
          | .attempt => some (state.enter cfg k task)
          | _ => none
      | none => none
  | .finish k outcome =>
      match state.tasks[k]? with
      | some task =>
          match task.phase with
          | .writing call => (state.calls[call]?).map fun handed => { state with
              tasks := state.tasks.set k (task.respond outcome)
              calls := state.calls.set call { handed with outcome := some outcome } }
          | _ => none
      | none => none
  | .flush => if state.isFree then some { state with fuse := .flushWaiting } else none
  | .flushReady =>
      match state.fuse with
      | .flushWaiting => state.waitFinishAll.map fun results =>
          match firstError results with
          | some issue => { state with
              inProgress := []
              results := []
              fuse := .returned (some (.flushed (.error issue))) }
          | none => { state.spawn ⟨[], 0⟩ true with
              inProgress := []
              results := []
              fuse := .flushing state.tasks.length }
      | _ => none
  | .flushed =>
      match state.fuse with
      | .flushing k => (state.result k).map fun result =>
          { state with fuse := .returned (some (.flushed (result.map fun _ => ()))) }
      | _ => none
  | .read start size => if state.isFree then some { state with fuse := .readWaiting start size } else none
  | .readReady =>
      match state.fuse with
      | .readWaiting start size => state.waitFinishAll.map fun _ =>
          { state with inProgress := [], results := [], fuse := .reading start size }
      | _ => none
  | .readDone result =>
      match state.fuse with
      | .reading start size => some { state with fuse := .returned (some (.read start size result)) }
      | _ => none

def Step (cfg : TiFsConfig) (before : FileHandler) (event : HandleEvent) (after : FileHandler) : Prop :=
  before.step cfg event = some after

inductive Effect (cfg : TiFsConfig) (state : FileHandler) : HandleEvent → FileHandler → Prop
  | wrote (start : Nat) (data : Bytes) (free : state.isFree) :
      Effect cfg state (.write start data) { state.spawn ⟨data, start⟩ false with
        inProgress := state.inProgress ++ [state.tasks.length], fuse := .pushing data.length }
  | pushed (done size : Nat) (inProgress : List Nat) (reply : Except FsError Nat)
      (pushing : state.fuse = .pushing size)
      (removed : ∀ k ∈ state.inProgress, k ∈ inProgress ∨ (state.result k).isSome) :
      Effect cfg state (.pushed done) { state with
        inProgress := inProgress, results := [], fuse := .returned (some (.wrote reply)) }
  | entered (k : Nat) (task : SpinTask) (present : state.tasks[k]? = some task)
      (attempting : task.phase = .attempt) : Effect cfg state (.enter k) (state.enter cfg k task)
  | finished (k call : Nat) (task : SpinTask) (handed : HandedCall) (outcome : Except FsError Bool)
      (present : state.tasks[k]? = some task) (writing : task.phase = .writing call)
      (made : state.calls[call]? = some handed) :
      Effect cfg state (.finish k outcome) { state with
        tasks := state.tasks.set k (task.respond outcome)
        calls := state.calls.set call { handed with outcome := some outcome } }
  | flushBegan (free : state.isFree) : Effect cfg state .flush { state with fuse := .flushWaiting }
  | flushFailed (issue : FsError) (waiting : state.fuse = .flushWaiting)
      (all : ∀ k ∈ state.inProgress, (state.result k).isSome) :
      Effect cfg state .flushReady { state with
        inProgress := [], results := [], fuse := .returned (some (.flushed (.error issue))) }
  | flushSpawned (waiting : state.fuse = .flushWaiting)
      (all : ∀ k ∈ state.inProgress, (state.result k).isSome) :
      Effect cfg state .flushReady { state.spawn ⟨[], 0⟩ true with
        inProgress := [], results := [], fuse := .flushing state.tasks.length }
  | flushed (k : Nat) (result : Except FsError Nat) (flushing : state.fuse = .flushing k)
      (isResult : state.result k = some result) :
      Effect cfg state .flushed
        { state with fuse := .returned (some (.flushed (result.map fun _ => ()))) }
  | readBegan (start size : Nat) (free : state.isFree) :
      Effect cfg state (.read start size) { state with fuse := .readWaiting start size }
  | readReady (start size : Nat) (waiting : state.fuse = .readWaiting start size)
      (all : ∀ k ∈ state.inProgress, (state.result k).isSome) :
      Effect cfg state .readReady
        { state with inProgress := [], results := [], fuse := .reading start size }
  | readDone (start size : Nat) (result : Except FsError Bytes)
      (reading : state.fuse = .reading start size) :
      Effect cfg state (.readDone result)
        { state with fuse := .returned (some (.read start size result)) }

theorem waitFinishAll_eq_some {state : FileHandler} {results : List (Except FsError Nat)}
    (waited : state.waitFinishAll = some results) :
    ∀ k ∈ state.inProgress, (state.result k).isSome := by
  unfold waitFinishAll at waited
  split at waited
  · next all => exact all
  · cases waited

theorem effect_of_step {cfg : TiFsConfig} {before after : FileHandler} {event : HandleEvent}
    (taken : before.Step cfg event after) : before.Effect cfg event after := by
  unfold Step step at taken
  cases event with
  | write start data =>
      simp only at taken
      split at taken
      · next free =>
          obtain rfl := Option.some.inj taken
          exact .wrote start data free
      · cases taken
  | pushed done =>
      simp only at taken
      split at taken
      · next size pushing =>
          have replied : ∀ results : List (Except FsError Nat), ∃ reply,
              (match firstError results with
                | some issue => FuseCall.returned (some (.wrote (.error issue)))
                | none => .returned (some (.wrote (.ok size)))) = .returned (some (.wrote reply)) := by
            intro results
            cases firstError results with
            | none => exact ⟨_, rfl⟩
            | some issue => exact ⟨_, rfl⟩
          split at taken
          · split at taken
            · next listed =>
                obtain ⟨result, isResult, rfl⟩ := Option.map_eq_some_iff.mp taken
                obtain ⟨reply, isReply⟩ := replied (before.results ++ [result])
                rw [isReply]
                refine .pushed done size _ reply pushing ?_
                intro k member
                by_cases same : k = done
                · right
                  rw [same, isResult]
                  rfl
                · exact Or.inl ((List.mem_erase_of_ne same).mpr member)
            · cases taken
          · obtain rfl := Option.some.inj taken
            obtain ⟨reply, isReply⟩ := replied before.results
            rw [isReply]
            exact .pushed done size _ reply pushing fun k member => Or.inl member
      · cases taken
  | enter k =>
      simp only at taken
      split at taken
      · next task present =>
          split at taken
          · next attempting =>
              obtain rfl := Option.some.inj taken
              exact .entered k task present attempting
          · cases taken
      · cases taken
  | finish k outcome =>
      simp only at taken
      split at taken
      · next task present =>
          split at taken
          · next call writing =>
              obtain ⟨handed, made, rfl⟩ := Option.map_eq_some_iff.mp taken
              exact .finished k call task handed outcome present writing made
          · cases taken
      · cases taken
  | flush =>
      simp only at taken
      split at taken
      · next free =>
          obtain rfl := Option.some.inj taken
          exact .flushBegan free
      · cases taken
  | flushReady =>
      simp only at taken
      split at taken
      · next waiting =>
          obtain ⟨results, waited, rfl⟩ := Option.map_eq_some_iff.mp taken
          have all := waitFinishAll_eq_some waited
          cases firstError results with
          | none => exact .flushSpawned waiting all
          | some issue => exact .flushFailed issue waiting all
      · cases taken
  | flushed =>
      simp only at taken
      split at taken
      · next k flushing =>
          obtain ⟨result, isResult, rfl⟩ := Option.map_eq_some_iff.mp taken
          exact .flushed k result flushing isResult
      · cases taken
  | read start size =>
      simp only at taken
      split at taken
      · next free =>
          obtain rfl := Option.some.inj taken
          exact .readBegan start size free
      · cases taken
  | readReady =>
      simp only at taken
      split at taken
      · next start size waiting =>
          obtain ⟨results, waited, rfl⟩ := Option.map_eq_some_iff.mp taken
          exact .readReady start size waiting (waitFinishAll_eq_some waited)
      · cases taken
  | readDone result =>
      simp only at taken
      split at taken
      · next start size reading =>
          obtain rfl := Option.some.inj taken
          exact .readDone start size result reading
      · cases taken

/-- An attempt leaves what it accumulated, or it hands all of it to a new call. -/
theorem enter_cases (cfg : TiFsConfig) (state : FileHandler) (k : Nat) (task : SpinTask) :
    (state.enter cfg k task = { state with
        writeAccumulator := state.writeAccumulator ++ task.own
        tasks := state.tasks.set k { task with phase := .finished (.ok task.data.data.length) } } ∧
      (task.flush → state.writeAccumulator ++ task.own = [])) ∨
    state.enter cfg k task = { state with
        writeAccumulator := []
        tasks := state.tasks.set k { task with phase := .writing state.calls.length }
        calls := state.calls ++ [⟨state.writeAccumulator ++ task.own, none⟩] } ∧
      state.writeAccumulator ++ task.own ≠ [] := by
  unfold enter
  by_cases takes : task.flush ∨
      writeDataLen (state.writeAccumulator ++ task.own) > cfg.writeAccumulatorFlushThreshold
  · rw [if_pos takes]
    by_cases some : (state.writeAccumulator ++ task.own).length > 0
    · rw [if_pos some]
      exact Or.inr ⟨rfl, List.ne_nil_of_length_pos some⟩
    · rw [if_neg some]
      have none : state.writeAccumulator ++ task.own = [] := List.eq_nil_of_length_eq_zero (by omega)
      exact Or.inl ⟨by rw [none], fun _ => none⟩
  · rw [if_neg takes]
    exact Or.inl ⟨rfl, fun isFlush => absurd (Or.inl isFlush) takes⟩

theorem enter_tasks (cfg : TiFsConfig) (state : FileHandler) (k : Nat) (task : SpinTask) :
    ∃ phase, (state.enter cfg k task).tasks = state.tasks.set k { task with phase := phase } := by
  rcases enter_cases cfg state k task with ⟨isAfter, _⟩ | ⟨isAfter, _⟩
  · exact ⟨_, by rw [isAfter]⟩
  · exact ⟨_, by rw [isAfter]⟩

/-- Which tasks are still running, in any state of the handle. -/
structure Tracked (state : FileHandler) : Prop where
  progress : ∀ (k : Nat) (task : SpinTask), state.tasks[k]? = some task → task.phase.result = none →
    k ∈ state.inProgress ∨ state.fuse = .flushing k
  owned : ∀ (c : Nat) (call : HandedCall), state.calls[c]? = some call → call.outcome = none →
    ∃ (k : Nat) (task : SpinTask), state.tasks[k]? = some task ∧ task.phase = .writing c
  flushing : ∀ k, state.fuse = .flushing k → state.inProgress = [] ∧
    ∃ task, state.tasks[k]? = some task ∧ task.flush ∧ k + 1 = state.tasks.length ∧
      (task.phase ≠ .attempt → state.writeAccumulator = [])
  flushed : state.fuse = .returned (some (.flushed (.ok ()))) → state.writeAccumulator = [] ∧
    ∀ task ∈ state.tasks, task.phase.result.isSome
  reading : ∀ start size, state.fuse = .reading start size →
    ∀ task ∈ state.tasks, task.phase.result.isSome

theorem tracked_new : new.Tracked := by
  constructor
  · intro k task present
    cases present
  · intro c call made
    cases made
  · intro k isFlushing
    cases isFlushing
  · intro isFlushed
    cases isFlushed
  · intro start size isReading
    cases isReading

section Tracked

variable {cfg : TiFsConfig} {state : FileHandler}

/-- With all tasks in progress finished, all tasks are, but for a flush. -/
theorem Tracked.all_finished (tracked : state.Tracked)
    (all : ∀ k ∈ state.inProgress, (state.result k).isSome)
    (noFlush : ∀ k, state.fuse = .flushing k → (state.result k).isSome) :
    ∀ task ∈ state.tasks, task.phase.result.isSome := by
  intro task member
  obtain ⟨k, present⟩ := List.mem_iff_getElem?.mp member
  have isResult : state.result k = task.phase.result := by
    rw [result, present, Option.bind_some]
  cases unfinished : task.phase.result with
  | some result => rfl
  | none =>
      rw [unfinished] at isResult
      rcases tracked.progress k task present unfinished with listed | isFlushing
      · have finished := all k listed
        rw [isResult] at finished
        cases finished
      · have finished := noFlush k isFlushing
        rw [isResult] at finished
        cases finished

/-- A task that runs is the one of the flush, or no FUSE call relies on its end. -/
theorem Tracked.running (tracked : state.Tracked) {k : Nat} {task : SpinTask}
    (present : state.tasks[k]? = some task) (unfinished : task.phase.result = none) :
    state.fuse ≠ .returned (some (.flushed (.ok ()))) ∧ (∀ start size, state.fuse ≠ .reading start size) ∧
      ∀ j, state.fuse = .flushing j → j = k := by
  have member := List.mem_of_getElem? present
  refine ⟨?_, ?_, ?_⟩
  · intro isFlushed
    have finished := (tracked.flushed isFlushed).2 task member
    rw [unfinished] at finished
    cases finished
  · intro start size isReading
    have finished := tracked.reading start size isReading task member
    rw [unfinished] at finished
    cases finished
  · intro j isFlushing
    rcases tracked.progress k task present unfinished with listed | same
    · rw [(tracked.flushing j isFlushing).1] at listed
      cases listed
    · rw [isFlushing] at same
      exact FuseCall.flushing.inj same

theorem Tracked.moved (tracked : state.Tracked) {k : Nat} {task : SpinTask}
    (present : state.tasks[k]? = some task) (unfinished : task.phase.result = none) (next : SpinTask)
    (sameFlush : next.flush = task.flush) {accumulator : List WriteTaskData} {calls : List HandedCall}
    (taken : state.fuse = .flushing k → accumulator = [])
    (owned : ∀ (c : Nat) (call : HandedCall), calls[c]? = some call → call.outcome = none →
      next.phase = .writing c ∨ ∃ other, state.calls[c]? = some other ∧ other.outcome = none ∧ task.phase ≠ .writing c) :
    Tracked { state with
      writeAccumulator := accumulator, tasks := state.tasks.set k next, calls := calls } := by
  have bound := (List.getElem?_eq_some_iff.mp present).1
  obtain ⟨notFlushed, notReading, isFlushed⟩ := tracked.running present unfinished
  constructor
  · intro j other found running
    rcases getElem?_set_cases found with ⟨rfl, _⟩ | ⟨_, earlier⟩
    · exact tracked.progress k task present unfinished
    · exact tracked.progress j other earlier running
  · intro c call made unanswered
    rcases owned c call made unanswered with isNext | ⟨other, wasMade, wasOpen, notOwner⟩
    · exact ⟨k, next, List.getElem?_set_self bound, isNext⟩
    · obtain ⟨j, owner, isOwner, isWriting⟩ := tracked.owned c other wasMade wasOpen
      have different : k ≠ j := by
        intro same
        rw [← same, present] at isOwner
        obtain rfl := Option.some.inj isOwner
        exact notOwner isWriting
      exact ⟨j, owner, by rw [List.getElem?_set_ne different]; exact isOwner, isWriting⟩
  · intro j isFlushing
    obtain rfl := isFlushed j isFlushing
    obtain ⟨none, flushTask, isTask, isFlush, isLast, _⟩ := tracked.flushing j isFlushing
    rw [present] at isTask
    obtain rfl := Option.some.inj isTask
    exact ⟨none, next, List.getElem?_set_self bound, by rw [sameFlush]; exact isFlush,
      by simpa using isLast, fun _ => taken isFlushing⟩
  · exact fun isReturned => absurd isReturned notFlushed
  · exact fun start size isReading => absurd isReading (notReading start size)

theorem Tracked.fuse (tracked : state.Tracked) {inProgress : List Nat}
    {results : List (Except FsError Nat)} {fuse : FuseCall}
    (progress : ∀ k task, state.tasks[k]? = some task → task.phase.result = none → k ∈ inProgress)
    (notFlushing : ∀ k, fuse ≠ .flushing k)
    (flushed : fuse = .returned (some (.flushed (.ok ()))) → state.writeAccumulator = [])
    (finished : (fuse = .returned (some (.flushed (.ok ()))) ∨ ∃ start size, fuse = .reading start size) →
      ∀ task ∈ state.tasks, task.phase.result.isSome) :
    Tracked { state with inProgress := inProgress, results := results, fuse := fuse } := by
  constructor
  · exact fun k task present running => Or.inl (progress k task present running)
  · exact tracked.owned
  · exact fun k isFlushing => absurd isFlushing (notFlushing k)
  · exact fun isFlushed => ⟨flushed isFlushed, finished (Or.inl isFlushed)⟩
  · exact fun start size isReading => finished (Or.inr ⟨start, size, isReading⟩)

theorem Tracked.fuse_finished (tracked : state.Tracked) {inProgress : List Nat}
    {results : List (Except FsError Nat)} {fuse : FuseCall}
    (finished : ∀ task ∈ state.tasks, task.phase.result.isSome) (notFlushing : ∀ k, fuse ≠ .flushing k)
    (flushed : fuse = .returned (some (.flushed (.ok ()))) → state.writeAccumulator = []) :
    Tracked { state with inProgress := inProgress, results := results, fuse := fuse } := by
  refine tracked.fuse ?_ notFlushing flushed fun _ => finished
  intro k task present running
  have isSome := finished task (List.mem_of_getElem? present)
  rw [running] at isSome
  cases isSome

theorem isFree_iff : state.isFree = true ↔ ∃ reply, state.fuse = .returned reply := by
  unfold isFree
  cases fuse : state.fuse with
  | returned reply => simp
  | _ => simp

theorem Tracked.listed (tracked : state.Tracked) (notFlushing : ∀ k, state.fuse ≠ .flushing k) {k : Nat}
    {task : SpinTask} (present : state.tasks[k]? = some task) (unfinished : task.phase.result = none) :
    k ∈ state.inProgress :=
  (tracked.progress k task present unfinished).resolve_right (notFlushing k)

theorem Tracked.owned_append (tracked : state.Tracked) (new : SpinTask) {c : Nat} {call : HandedCall}
    (made : state.calls[c]? = some call) (unanswered : call.outcome = none) :
    ∃ (k : Nat) (task : SpinTask), (state.tasks ++ [new])[k]? = some task ∧
      task.phase = .writing c := by
  obtain ⟨k, task, present, writing⟩ := tracked.owned c call made unanswered
  refine ⟨k, task, ?_, writing⟩
  rw [List.getElem?_append_left (List.getElem?_eq_some_iff.mp present).1]
  exact present

theorem Tracked.step (tracked : state.Tracked) {event : HandleEvent} {after : FileHandler}
    (taken : state.Step cfg event after) : after.Tracked := by
  cases effect_of_step taken with
  | wrote start data free =>
      obtain ⟨reply, isFree⟩ := isFree_iff.mp free
      constructor
      · intro k task present running
        left
        rcases getElem?_concat_cases present with ⟨rfl, _⟩ | earlier
        · simp
        · exact List.mem_append_left _
            (tracked.listed (by rw [isFree]; exact fun _ same => by cases same) earlier running)
      · exact fun c call made unanswered => tracked.owned_append _ made unanswered
      · intro k isFlushing
        cases isFlushing
      · intro isFlushed
        cases isFlushed
      · intro start size isReading
        cases isReading
  | pushed done size inProgress reply pushing removed =>
      refine tracked.fuse ?_ (by simp) (by simp) (by simp)
      intro k task present running
      rcases removed k (tracked.listed (by simp [pushing]) present running) with kept | finished
      · exact kept
      · rw [result, present, Option.bind_some, running] at finished
        cases finished
  | entered k task present attempting =>
      have unfinished : task.phase.result = none := by
        rw [attempting]
        rfl
      rcases enter_cases cfg state k task with ⟨isAfter, takes⟩ | ⟨isAfter, _⟩
      · rw [isAfter]
        refine tracked.moved present unfinished
          { task with phase := .finished (.ok task.data.data.length) } rfl ?_
          fun c call made unanswered => Or.inr ⟨call, made, unanswered, by rw [attempting]; simp⟩
        intro isFlushing
        obtain ⟨_, flushTask, isTask, isFlush, _⟩ := tracked.flushing k isFlushing
        rw [present] at isTask
        obtain rfl := Option.some.inj isTask
        exact takes isFlush
      · rw [isAfter]
        refine tracked.moved present unfinished
          { task with phase := .writing state.calls.length } rfl (fun _ => rfl) ?_
        intro c call made unanswered
        rcases getElem?_concat_cases made with ⟨rfl, _⟩ | earlier
        · exact Or.inl rfl
        · exact Or.inr ⟨call, earlier, unanswered, by rw [attempting]; simp⟩
  | finished k call task handed outcome present writing made =>
      have unfinished : task.phase.result = none := by
        rw [writing]
        rfl
      refine tracked.moved present unfinished _ (task.respond_kept outcome).2 ?_ ?_
      · intro isFlushing
        obtain ⟨_, flushTask, isTask, _, _, emptied⟩ := tracked.flushing k isFlushing
        rw [present] at isTask
        obtain rfl := Option.some.inj isTask
        exact emptied (by rw [writing]; simp)
      · intro c other found unanswered
        rcases getElem?_set_cases found with ⟨rfl, rfl⟩ | ⟨different, earlier⟩
        · cases unanswered
        · refine Or.inr ⟨other, earlier, unanswered, ?_⟩
          rw [writing]
          intro same
          exact different (TaskPhase.writing.inj same)
  | flushBegan free =>
      obtain ⟨reply, isFree⟩ := isFree_iff.mp free
      exact tracked.fuse (fun k task present running => tracked.listed (by simp [isFree]) present running)
        (by simp) (by simp) (by simp)
  | flushFailed issue waiting all =>
      exact tracked.fuse_finished (tracked.all_finished all (by simp [waiting])) (by simp) (by simp)
  | flushSpawned waiting all =>
      have finished := tracked.all_finished all (by simp [waiting])
      constructor
      · intro k task present running
        right
        rcases getElem?_concat_cases present with ⟨rfl, _⟩ | earlier
        · rfl
        · have isSome := finished task (List.mem_of_getElem? earlier)
          rw [running] at isSome
          cases isSome
      · exact fun c call made unanswered => tracked.owned_append _ made unanswered
      · intro k isFlushing
        obtain rfl := FuseCall.flushing.inj isFlushing
        exact ⟨rfl, _, List.getElem?_concat_length, rfl, by simp [spawn], by simp⟩
      · intro isFlushed
        cases isFlushed
      · intro start size isReading
        cases isReading
  | flushed k result flushing isResult =>
      obtain ⟨none, task, present, _, _, emptied⟩ := tracked.flushing k flushing
      have finished := tracked.all_finished (by rw [none]; simp) fun j isFlushing => by
        rw [flushing] at isFlushing
        obtain rfl := FuseCall.flushing.inj isFlushing
        rw [isResult]
        rfl
      refine tracked.fuse_finished finished (by simp) fun _ => emptied ?_
      intro attempting
      rw [FileHandler.result, present, Option.bind_some, attempting] at isResult
      cases isResult
  | readBegan start size free =>
      obtain ⟨reply, isFree⟩ := isFree_iff.mp free
      exact tracked.fuse (fun k task present running => tracked.listed (by simp [isFree]) present running)
        (by simp) (by simp) (by simp)
  | readReady start size waiting all =>
      exact tracked.fuse_finished (tracked.all_finished all (by simp [waiting])) (by simp) (by simp)
  | readDone start size result reading =>
      exact tracked.fuse (fun k task present running => tracked.listed (by simp [reading]) present running)
        (by simp) (by simp) (by simp)

end Tracked

end FileHandler

end TiFs
