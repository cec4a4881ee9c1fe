import Mathlib.Data.List.Perm.Basic
import Mathlib.Data.Multiset.AddSub
import TiFs.Library.Table
import TiFs.Library.Transaction

/-! `AsyncParallelPipeStage`: futures are spawned as they are pushed, their results are kept
in the order in which they are seen, and a push waits for one of them at the limit. -/

namespace TiFs

open KeyValue Tables

structure Spawned (A : Type) where
  output : A
  completed : Bool
  deriving DecidableEq, Repr

inductive PipeCall where
  | push
  | waitFinishAll
  | getResultsSoFar
  deriving DecidableEq, Repr

/-- The calls are made one after the other; `awaitAll` has the futures that it took and has
not yet waited for. -/
inductive PipePhase (A : Type) where
  | returned (last : Option PipeCall)
  | awaitNext
  | awaitAll (taken : List (Spawned A))
  deriving DecidableEq, Repr

/-- Beside the fields of the source: which call is being made, the outputs of all futures that
were pushed, and those that were handed out. -/
structure AsyncParallelPipeStage (A : Type) where
  inProgressLimit : Nat
  inProgress : List (Spawned A)
  results : List A
  total : Nat
  phase : PipePhase A
  pushed : List A
  handedOut : List A
  deriving DecidableEq, Repr

inductive PipeEvent (A : Type) where
  | push (output : A)
  | waitFinishAll
  | getResultsSoFar
  | complete (future : Nat)
  | next (future : Nat)
  | finished

namespace AsyncParallelPipeStage

variable {A : Type}

def new (inProgressLimit : Nat) : AsyncParallelPipeStage A :=
  ⟨inProgressLimit, [], [], 0, .returned none, [], []⟩

def taken (stage : AsyncParallelPipeStage A) : List (Spawned A) :=
  match stage.phase with
  | .awaitAll taken => taken
  | _ => []

def push (stage : AsyncParallelPipeStage A) (output : A) : AsyncParallelPipeStage A :=
  let inProgress := stage.inProgress ++ [⟨output, false⟩]
  { stage with
    total := stage.total + 1
    inProgress := inProgress
    pushed := stage.pushed ++ [output]
    phase := if inProgress.length ≥ stage.inProgressLimit then .awaitNext else .returned (some .push) }

def waitFinishAll (stage : AsyncParallelPipeStage A) : AsyncParallelPipeStage A :=
  { stage with inProgress := [], phase := .awaitAll stage.inProgress }

def getResultsSoFar (stage : AsyncParallelPipeStage A) : AsyncParallelPipeStage A :=
  { stage with
    results := []
    handedOut := stage.handedOut ++ stage.results
    phase := .returned (some .getResultsSoFar) }

def complete (tasks : List (Spawned A)) (future : Nat) : Option (List (Spawned A)) := do
  let task ← tasks[future]?
  some (tasks.set future { task with completed := true })

/-- The first completed future, which can be any of them, and the others. -/
def takeCompleted (tasks : List (Spawned A)) (future : Nat) : Option (A × List (Spawned A)) := do
  let task ← tasks[future]?
  if task.completed then some (task.output, tasks.eraseIdx future) else none

def step (stage : AsyncParallelPipeStage A) (event : PipeEvent A) : Option (AsyncParallelPipeStage A) :=
  match stage.phase, event with
  | .returned _, .push output => some (stage.push output)
  | .returned _, .waitFinishAll => some stage.waitFinishAll
  | .returned _, .getResultsSoFar => some stage.getResultsSoFar
  | .awaitNext, .next future => do
      let (done, rest) ← takeCompleted stage.inProgress future
      some { stage with inProgress := rest, results := stage.results ++ [done], phase := .returned (some .push) }
  | .awaitAll taken, .next future => do
      let (done, rest) ← takeCompleted taken future
      some { stage with results := stage.results ++ [done], phase := .awaitAll rest }
  | .awaitAll [], .finished => some { stage with phase := .returned (some .waitFinishAll) }
  | .awaitAll taken, .complete future => do
      let taken ← complete taken future
      some { stage with phase := .awaitAll taken }
  | _, .complete future => do
      let inProgress ← complete stage.inProgress future
      some { stage with inProgress := inProgress }
  | _, _ => none

def outputs (tasks : List (Spawned A)) : Multiset A := (tasks.map Spawned.output : List A)

theorem outputs_complete {tasks after : List (Spawned A)} {future : Nat}
    (isAfter : complete tasks future = some after) :
    outputs after = outputs tasks ∧ after.length = tasks.length := by
  obtain ⟨task, present, equal⟩ := Option.bind_eq_some_iff.mp isAfter
  obtain rfl := Option.some.inj equal
  have same : (tasks.set future { task with completed := true }).map Spawned.output =
      tasks.map Spawned.output := map_set_same present rfl
  exact ⟨congrArg Multiset.ofList same, List.length_set⟩

theorem outputs_takeCompleted {tasks rest : List (Spawned A)} {future : Nat} {done : A}
    (isTaken : takeCompleted tasks future = some (done, rest)) :
    outputs tasks = done ::ₘ outputs rest ∧ tasks.length = rest.length + 1 := by
  obtain ⟨task, present, found⟩ := Option.bind_eq_some_iff.mp isTaken
  obtain ⟨_, equal⟩ := Option.ite_none_right_eq_some.mp found
  obtain ⟨rfl, rfl⟩ := Prod.mk.inj (Option.some.inj equal)
  obtain ⟨bound, rfl⟩ := List.getElem?_eq_some_iff.mp present
  constructor
  · have permuted := (List.getElem_cons_eraseIdx_perm bound).map Spawned.output
    rw [outputs, outputs, Multiset.cons_coe]
    exact (Multiset.coe_eq_coe.mpr permuted).symm
  · have removed := List.length_eraseIdx_add_one bound
    exact removed.symm

theorem taken_of_returned {stage : AsyncParallelPipeStage A} {last : Option PipeCall}
    (isIdle : stage.phase = .returned last) : stage.taken = [] := by
  rw [taken, isIdle]

theorem taken_of_awaitNext {stage : AsyncParallelPipeStage A} (isWaiting : stage.phase = .awaitNext) :
    stage.taken = [] := by
  rw [taken, isWaiting]

theorem taken_of_awaitAll {stage : AsyncParallelPipeStage A} {tasks : List (Spawned A)}
    (isWaiting : stage.phase = .awaitAll tasks) : stage.taken = tasks := by
  rw [taken, isWaiting]

/-- Every output is in one place, and how many futures there can be in each phase. -/
structure Accounted (stage : AsyncParallelPipeStage A) : Prop where
  conserved : (stage.handedOut : Multiset A) + stage.results + outputs stage.inProgress + outputs stage.taken =
    stage.pushed
  counted : stage.total = stage.pushed.length
  idle : ∀ last, stage.phase = .returned last → stage.inProgress.length ≤ max stage.inProgressLimit 1 - 1
  full : stage.phase = .awaitNext → stage.inProgress.length ≤ max stage.inProgressLimit 1
  emptied : ∀ taken, stage.phase = .awaitAll taken → stage.inProgress = []
  finished : stage.phase = .returned (some .waitFinishAll) → stage.inProgress = []

theorem accounted_new (inProgressLimit : Nat) : Accounted (new inProgressLimit : AsyncParallelPipeStage A) where
  conserved := rfl
  counted := rfl
  idle := fun _ _ => Nat.zero_le _
  full := nofun
  emptied := nofun
  finished := nofun

theorem Accounted.push {stage : AsyncParallelPipeStage A} (accounted : Accounted stage) {last : Option PipeCall}
    (isIdle : stage.phase = .returned last) (output : A) : Accounted (stage.push output) := by
  have room := accounted.idle last isIdle
  have nothing := taken_of_returned isIdle
  have length : (stage.inProgress ++ [(⟨output, false⟩ : Spawned A)]).length = stage.inProgress.length + 1 :=
    List.length_append
  have conserved := accounted.conserved
  have phase : (stage.push output).phase = .awaitNext ∨
      (stage.push output).phase = .returned (some .push) ∧ stage.inProgress.length + 1 < stage.inProgressLimit := by
    simp only [AsyncParallelPipeStage.push, length]
    by_cases limit : stage.inProgress.length + 1 ≥ stage.inProgressLimit
    · exact Or.inl (if_pos limit)
    · exact Or.inr ⟨if_neg limit, by omega⟩
  have isProgress : (stage.push output).inProgress.length = stage.inProgress.length + 1 := length
  refine ⟨?_, ?_, ?_, ?_, ?_, ?_⟩
  · have still : (stage.push output).taken = [] := by
      rcases phase with waits | ⟨returns, _⟩
      · exact taken_of_awaitNext waits
      · exact taken_of_returned returns
    rw [nothing] at conserved
    rw [still]
    simp only [AsyncParallelPipeStage.push, outputs, List.map_append, List.map_cons, List.map_nil] at conserved ⊢
    rw [← Multiset.coe_add, ← Multiset.coe_add, ← conserved]
    ac_rfl
  · simp only [AsyncParallelPipeStage.push, List.length_append, List.length_singleton, accounted.counted]
  · intro later returns
    rw [isProgress]
    rcases phase with waits | ⟨_, below⟩
    · cases waits.symm.trans returns
    · change _ ≤ max stage.inProgressLimit 1 - 1
      omega
  · intro _
    rw [isProgress]
    change _ ≤ max stage.inProgressLimit 1
    omega
  · intro tasks waits
    rcases phase with other | ⟨other, _⟩
    · cases other.symm.trans waits
    · cases other.symm.trans waits
  · intro returns
    rcases phase with other | ⟨other, _⟩
    · cases other.symm.trans returns
    · cases other.symm.trans returns

theorem Accounted.waitFinishAll {stage : AsyncParallelPipeStage A} (accounted : Accounted stage)
    {last : Option PipeCall} (isIdle : stage.phase = .returned last) : Accounted stage.waitFinishAll where
  conserved := by
    have conserved := accounted.conserved
    rw [taken_of_returned isIdle] at conserved
    simp only [AsyncParallelPipeStage.waitFinishAll, taken]
    rw [← conserved]
    ac_rfl
  counted := accounted.counted
  idle := nofun
  full := nofun
  emptied := fun _ _ => rfl
  finished := nofun

theorem Accounted.getResultsSoFar {stage : AsyncParallelPipeStage A} (accounted : Accounted stage)
    {last : Option PipeCall} (isIdle : stage.phase = .returned last) : Accounted stage.getResultsSoFar where
  conserved := by
    have conserved := accounted.conserved
    rw [taken_of_returned isIdle] at conserved
    simp only [AsyncParallelPipeStage.getResultsSoFar, taken, ← Multiset.coe_add, Multiset.coe_nil, add_zero]
    exact conserved
  counted := accounted.counted
  idle := fun _ _ => accounted.idle last isIdle
  full := nofun
  emptied := nofun
  finished := nofun

theorem Accounted.pushNext {stage : AsyncParallelPipeStage A} (accounted : Accounted stage)
    (isWaiting : stage.phase = .awaitNext) {future : Nat} {done : A} {rest : List (Spawned A)}
    (isTaken : takeCompleted stage.inProgress future = some (done, rest)) :
    Accounted { stage with
      inProgress := rest, results := stage.results ++ [done], phase := .returned (some .push) } := by
  obtain ⟨moved, length⟩ := outputs_takeCompleted isTaken
  have conserved := accounted.conserved
  have room := accounted.full isWaiting
  rw [taken_of_awaitNext isWaiting, moved] at conserved
  refine ⟨?_, accounted.counted, ?_, nofun, nofun, nofun⟩
  · rw [← conserved]
    simp only [taken, ← Multiset.coe_add, ← Multiset.singleton_add, ← Multiset.coe_singleton]
    ac_rfl
  · intro _ _
    dsimp only
    omega

theorem Accounted.allNext {stage : AsyncParallelPipeStage A} (accounted : Accounted stage)
    {tasks : List (Spawned A)} (isWaiting : stage.phase = .awaitAll tasks) {future : Nat} {done : A}
    {rest : List (Spawned A)} (isTaken : takeCompleted tasks future = some (done, rest)) :
    Accounted { stage with results := stage.results ++ [done], phase := .awaitAll rest } := by
  obtain ⟨moved, _⟩ := outputs_takeCompleted isTaken
  have conserved := accounted.conserved
  rw [taken_of_awaitAll isWaiting, moved] at conserved
  refine ⟨?_, accounted.counted, nofun, nofun, fun _ _ => accounted.emptied tasks isWaiting, nofun⟩
  rw [← conserved]
  simp only [taken, ← Multiset.coe_add, ← Multiset.singleton_add, ← Multiset.coe_singleton]
  ac_rfl

theorem Accounted.allFinished {stage : AsyncParallelPipeStage A} (accounted : Accounted stage)
    (isWaiting : stage.phase = .awaitAll []) :
    Accounted { stage with phase := .returned (some .waitFinishAll) } where
  conserved := by
    have conserved := accounted.conserved
    rw [taken_of_awaitAll isWaiting] at conserved
    exact conserved
  counted := accounted.counted
  idle := by
    intro _ _
    rw [show stage.inProgress = [] from accounted.emptied [] isWaiting]
    exact Nat.zero_le _
  full := nofun
  emptied := nofun
  finished := fun _ => accounted.emptied [] isWaiting

theorem Accounted.completeTaken {stage : AsyncParallelPipeStage A} (accounted : Accounted stage)
    {tasks after : List (Spawned A)} (isWaiting : stage.phase = .awaitAll tasks) {future : Nat}
    (isAfter : complete tasks future = some after) : Accounted { stage with phase := .awaitAll after } where
  conserved := by
    have conserved := accounted.conserved
    rw [taken_of_awaitAll isWaiting, ← (outputs_complete isAfter).1] at conserved
    exact conserved
  counted := accounted.counted
  idle := nofun
  full := nofun
  emptied := fun _ _ => accounted.emptied tasks isWaiting
  finished := nofun

theorem Accounted.completeInProgress {stage : AsyncParallelPipeStage A} (accounted : Accounted stage)
    {after : List (Spawned A)} {future : Nat} (isAfter : complete stage.inProgress future = some after) :
    Accounted { stage with inProgress := after } := by
  obtain ⟨same, length⟩ := outputs_complete isAfter
  have empty : stage.inProgress = [] → after = [] := by
    intro none
    rw [none] at length
    exact List.eq_nil_of_length_eq_zero length
  refine ⟨?_, accounted.counted, ?_, ?_, ?_, ?_⟩
  · have conserved := accounted.conserved
    rw [← same] at conserved
    exact conserved
  · intro last returns
    exact length ▸ accounted.idle last returns
  · intro waits
    exact length ▸ accounted.full waits
  · intro tasks waits
    exact empty (accounted.emptied tasks waits)
  · intro returns
    exact empty (accounted.finished returns)

theorem step_cases {stage after : AsyncParallelPipeStage A} {event : PipeEvent A}
    (stepped : stage.step event = some after) :
    (∃ last, stage.phase = .returned last ∧
      ((∃ output, after = stage.push output) ∨ after = stage.waitFinishAll ∨ after = stage.getResultsSoFar)) ∨
    (∃ future done rest, stage.phase = .awaitNext ∧ takeCompleted stage.inProgress future = some (done, rest) ∧
      after = { stage with
        inProgress := rest, results := stage.results ++ [done], phase := .returned (some .push) }) ∨
    (∃ tasks future done rest, stage.phase = .awaitAll tasks ∧ takeCompleted tasks future = some (done, rest) ∧
      after = { stage with results := stage.results ++ [done], phase := .awaitAll rest }) ∨
    (stage.phase = .awaitAll [] ∧ after = { stage with phase := .returned (some .waitFinishAll) }) ∨
    (∃ tasks future rest, stage.phase = .awaitAll tasks ∧ complete tasks future = some rest ∧
      after = { stage with phase := .awaitAll rest }) ∨
    ∃ future rest, complete stage.inProgress future = some rest ∧ after = { stage with inProgress := rest } := by
  unfold AsyncParallelPipeStage.step at stepped
  split at stepped
  · next isIdle => exact Or.inl ⟨_, isIdle, Or.inl ⟨_, (Option.some.inj stepped).symm⟩⟩
  · next isIdle => exact Or.inl ⟨_, isIdle, Or.inr (Or.inl (Option.some.inj stepped).symm)⟩
  · next isIdle => exact Or.inl ⟨_, isIdle, Or.inr (Or.inr (Option.some.inj stepped).symm)⟩
  · next isWaiting =>
      obtain ⟨⟨done, rest⟩, isTaken, equal⟩ := Option.bind_eq_some_iff.mp stepped
      exact Or.inr (Or.inl ⟨_, done, rest, isWaiting, isTaken, (Option.some.inj equal).symm⟩)
  · next isWaiting =>
      obtain ⟨⟨done, rest⟩, isTaken, equal⟩ := Option.bind_eq_some_iff.mp stepped
      exact Or.inr (Or.inr (Or.inl ⟨_, _, done, rest, isWaiting, isTaken, (Option.some.inj equal).symm⟩))
  · next isWaiting =>
      exact Or.inr (Or.inr (Or.inr (Or.inl ⟨isWaiting, (Option.some.inj stepped).symm⟩)))
  · next isWaiting =>
      obtain ⟨rest, isAfter, equal⟩ := Option.bind_eq_some_iff.mp stepped
      have equal := (Option.some.inj equal).symm
      exact Or.inr (Or.inr (Or.inr (Or.inr (Or.inl ⟨_, _, rest, isWaiting, isAfter, equal⟩))))
  · obtain ⟨rest, isAfter, equal⟩ := Option.bind_eq_some_iff.mp stepped
    exact Or.inr (Or.inr (Or.inr (Or.inr (Or.inr ⟨_, rest, isAfter, (Option.some.inj equal).symm⟩))))
  · cases stepped

theorem Accounted.step {stage after : AsyncParallelPipeStage A} {event : PipeEvent A}
    (accounted : Accounted stage) (stepped : stage.step event = some after) : Accounted after := by
  rcases step_cases stepped with ⟨last, isIdle, ⟨output, rfl⟩ | rfl | rfl⟩ | waited
  · exact accounted.push isIdle output
  · exact accounted.waitFinishAll isIdle
  · exact accounted.getResultsSoFar isIdle
  rcases waited with ⟨future, done, rest, isWaiting, isTaken, rfl⟩ | waitedAll
  · exact accounted.pushNext isWaiting isTaken
  rcases waitedAll with ⟨tasks, future, done, rest, isWaiting, isTaken, rfl⟩ | ⟨isWaiting, rfl⟩ | completed
  · exact accounted.allNext isWaiting isTaken
  · exact accounted.allFinished isWaiting
  rcases completed with ⟨tasks, future, rest, isWaiting, isAfter, rfl⟩ | ⟨future, rest, isAfter, rfl⟩
  · exact accounted.completeTaken isWaiting isAfter
  · exact accounted.completeInProgress isAfter

theorem limit_step {stage after : AsyncParallelPipeStage A} {event : PipeEvent A}
    (stepped : stage.step event = some after) : after.inProgressLimit = stage.inProgressLimit := by
  rcases step_cases stepped with ⟨_, _, ⟨_, rfl⟩ | rfl | rfl⟩ | ⟨_, _, _, _, _, rfl⟩ | ⟨_, _, _, _, _, _, rfl⟩ |
    ⟨_, rfl⟩ | ⟨_, _, _, _, _, rfl⟩ | ⟨_, _, _, rfl⟩ <;> rfl

/-- At each point of any sequence of calls every output of a pushed future is handed out, among
the results or still to come, once; a push leaves fewer futures in progress than the limit, and
a wait for all of them none. -/
theorem outputs_conserved (inProgressLimit : Nat) (stage : AsyncParallelPipeStage A)
    (run : Run (fun before event after => before.step event = some after) (fun _ _ => True)
      (new inProgressLimit) stage) :
    (stage.handedOut : Multiset A) + stage.results + (outputs stage.inProgress + outputs stage.taken) =
        stage.pushed ∧
      (stage.phase = .returned (some .push) → stage.inProgress.length ≤ max inProgressLimit 1 - 1) ∧
      (stage.phase = .returned (some .waitFinishAll) → stage.inProgress = [] ∧ stage.taken = []) := by
  have holds : Accounted stage ∧ stage.inProgressLimit = inProgressLimit := by
    refine Run.invariant
      (fun stage : AsyncParallelPipeStage A => Accounted stage ∧ stage.inProgressLimit = inProgressLimit)
      ?_ ⟨accounted_new inProgressLimit, rfl⟩ run
    rintro before event after ⟨accounted, limit⟩ stepped _
    exact ⟨accounted.step stepped, (limit_step stepped).trans limit⟩
  obtain ⟨accounted, rfl⟩ := holds
  refine ⟨?_, fun returns => accounted.idle _ returns, fun returns => ⟨accounted.finished returns, ?_⟩⟩
  · rw [← add_assoc]
    exact accounted.conserved
  · exact taken_of_returned returns

/-- The second push waits, and its own future is completed before the first one. -/
theorem outputs_conserved_overtaking :
    ∃ stage : AsyncParallelPipeStage Nat,
      Run (fun before event after => before.step event = some after) (fun _ _ => True) (new 2) stage ∧
        stage.phase = .returned (some .waitFinishAll) ∧ stage.handedOut = [8] ∧ stage.results = [9, 7] ∧
        stage.inProgress = [] ∧ stage.taken = [] := by
  have ran : runAll (AsyncParallelPipeStage.step (A := Nat)) (new 2)
      [.push 7, .push 8, .complete 1, .next 1, .getResultsSoFar, .push 9, .complete 1, .next 1, .waitFinishAll,
        .complete 0, .next 0, .finished] =
      some ⟨2, [], [9, 7], 3, .returned (some .waitFinishAll), [7, 8, 9], [8]⟩ := by decide
  have run : Run (fun before event after => before.step event = some after) (fun _ _ => True) (new 2)
      (⟨2, [], [9, 7], 3, .returned (some .waitFinishAll), [7, 8, 9], [8]⟩ : AsyncParallelPipeStage Nat) :=
    Run.of_runAll (fun _ _ _ taken => ⟨taken, trivial⟩) ran
  exact ⟨_, run, rfl, rfl, rfl, (outputs_conserved 2 _ run).2.2 rfl⟩

end AsyncParallelPipeStage

end TiFs
