import TiFs.OneCall

namespace TiFs

open KeyValue Tables

def TasksOnly {cfg : TiFsConfig} (_ : BlockSystem cfg) : BlockEvent cfg → Prop
  | .advance _ _ => True
  | _ => False

section Tasks

variable {cfg : TiFsConfig} {ino : StorageIno} {involved : Set Bytes} {file : FileMap}
  {state after : BlockSystem cfg}

def Op.remaining : Op cfg → Nat
  | .write task => task.phase.remaining
  | _ => 0

theorem TasksRefine.advance_task (refines : TasksRefine ino involved file state) {k : Nat} {task : WriteTask cfg}
    (present : state.ops[k]? = some (.write task)) :
    ∃ phase store, WriteMove task state.store phase store ∧
      state.Step (.advance k ⟨0, 0⟩) ⟨store, state.ops.set k (.write { task with phase := phase })⟩ := by
  have member := List.mem_of_getElem? present
  obtain ⟨⟨next, store⟩, ran⟩ := refines.step_ok ⟨0, 0⟩ member
  obtain ⟨phase, rfl, move⟩ := WriteTask.move_of_step (refines.sound _ member) ran
  refine ⟨phase, store, move, ?_⟩
  simp only [BlockSystem.Step, BlockSystem.step, present, Op.step, ran]
  rfl

/-- The tasks can be run until they are ready, by transactions of those that are not. -/
theorem TasksRefine.exists_run (refines : TasksRefine ino involved file state) (ready : WritePhase → Prop)
    (holds : BlockSystem cfg → Prop) (start : holds state)
    (running : ∀ before task, holds before → .write task ∈ before.ops → ¬ ready task.phase → task.phase ≠ .done)
    (kept : ∀ (before : BlockSystem cfg) k task phase store, TasksRefine ino involved file before → holds before →
      before.ops[k]? = some (.write task) → ¬ ready task.phase → WriteMove task before.store phase store →
      holds ⟨store, before.ops.set k (.write { task with phase := phase })⟩) :
    ∃ last, Run BlockSystem.Step TasksOnly state last ∧ TasksRefine ino involved file last ∧ holds last ∧
      ∀ task, .write task ∈ last.ops → ready task.phase := by
  -- On the transactions that all tasks have left.
  induction isTotal : (state.ops.map Op.remaining).sum using Nat.strong_induction_on generalizing state with
  | _ total ih =>
      by_cases all : ∀ task, Op.write task ∈ state.ops → ready task.phase
      · exact ⟨state, Relation.ReflTransGen.refl, refines, start, all⟩
      · push Not at all
        obtain ⟨task, member, notReady⟩ := all
        obtain ⟨k, present⟩ := List.mem_iff_getElem?.mp member
        obtain ⟨phase, store, move, taken⟩ := refines.advance_task present
        have less := move.remaining_lt (running state task start member notReady)
        have changed := sum_map_set Op.remaining present (.write { task with phase := phase })
        simp only [Op.remaining] at changed less
        have fewer : ((state.ops.set k (.write { task with phase := phase })).map Op.remaining).sum < total := by
          omega
        obtain ⟨last, run, others⟩ := ih _ fewer (refines.advance taken)
          (kept state k task phase store refines start present notReady move) rfl
        exact ⟨last, Relation.ReflTransGen.head ⟨.advance k ⟨0, 0⟩, taken, trivial⟩ run, others⟩

theorem TasksRefine.run (refines : TasksRefine ino involved file state)
    (run : Run BlockSystem.Step TasksOnly state after) : TasksRefine ino involved file after := by
  refine Run.invariant (TasksRefine ino involved file) ?_ refines run
  intro before event next holds taken only
  cases event with
  | advance k ambient => exact holds.advance taken
  | spawn work => exact only.elim
  | abandon k => exact only.elim

theorem TasksRefine.finish (refines : TasksRefine ino involved file state) :
    ∃ last, Run BlockSystem.Step TasksOnly state last ∧ ∀ op ∈ last.ops, op.outcome = some (.ok ()) := by
  obtain ⟨last, run, still, _, done⟩ := refines.exists_run (fun phase => phase = .done) (fun _ => True) trivial
    (fun _ _ _ _ => id) fun _ _ _ _ _ _ _ _ _ _ => trivial
  refine ⟨last, run, ?_⟩
  intro op member
  obtain ⟨task, rfl, _⟩ := still.tasks op member
  simp [Op.outcome, done task member]

theorem length_of_run (run : Run BlockSystem.Step TasksOnly state after) :
    after.ops.length = state.ops.length := by
  refine Run.invariant (fun between => between.ops.length = state.ops.length) ?_ rfl run
  intro before event next same taken only
  cases BlockSystem.effect_of_step taken with
  | moved => exact List.length_set.trans same
  | failed => exact List.length_set.trans same
  | spawned => exact only.elim
  | abandoned => exact only.elim

theorem ended_step {k : Nat} {ambient : Ambient} (taken : state.Step (.advance k ambient) after)
    (ended : ∀ op ∈ state.ops, op.outcome.isSome) : ∀ op ∈ after.ops, op.outcome.isSome := by
  cases BlockSystem.effect_of_step taken with
  | moved k ambient op next store present ran =>
      intro other member
      rcases List.mem_or_eq_of_mem_set member with old | rfl
      · exact ended other old
      · have isEnded := ended op (List.mem_of_getElem? present)
        cases op with
        | write task =>
            have done : task.phase = .done := (idle_of_ended isEnded).1
            simp only [Op.step, WriteTask.step, done] at ran
            obtain ⟨rfl, _⟩ := Prod.mk.inj (Except.ok.inj ran)
            exact isEnded
        | ended failure =>
            obtain ⟨rfl, _⟩ := Prod.mk.inj (Except.ok.inj ran)
            exact isEnded
        | clear task => cases isEnded
        | clone task => cases isEnded
  | failed k ambient op issue present ran =>
      intro other member
      rcases List.mem_or_eq_of_mem_set member with old | rfl
      · exact ended other old
      · rfl

end Tasks

section Call

variable {cfg : TiFsConfig} {client : Nat} {ino : StorageIno} {jobs : List WriteTaskData}
  {before : IdleState} {state after : WriteSystem cfg}

theorem Readable.tasksRefine (readable : Readable cfg ino before.store) (sized : (inoSize before.store ino).isSome)
    (injective : Set.InjOn cfg.calculateHash (before.involvedBlocks cfg ino jobs)) {hashListPrev : BlockHashes}
    {preData : BlocksData} (read : PreRead cfg jobs (before.file ino) hashListPrev preData) :
    TasksRefine ino (before.involvedBlocks cfg ino jobs) ((before.file ino).rewrite cfg.blockSize jobs)
      ⟨before.store, (writeTasks cfg ino (writePlan cfg jobs hashListPrev preData)).map .write⟩ := by
  have distinguished := distinguished_of_injOn injective
  have idle : TasksRefine ino (before.involvedBlocks cfg ino jobs) (before.file ino)
      (⟨before.store, []⟩ : BlockSystem cfg) := by
    refine ⟨?_, ?_, ?_, ?_, ?_, fun index _ => readable.mapping_eq index, sized⟩
    · exact fun op member => absurd member List.not_mem_nil
    · exact fun op member => absurd member List.not_mem_nil
    · exact fun hash data found => readable.addressed_involved jobs found
    · intro index hash found
      obtain ⟨data, stored⟩ := Option.isSome_iff_exists.mp (readable.stored index hash found)
      rw [← readable.addressed hash data stored]
      exact cfg.hash_length data
    · exact fun op member => absurd member List.not_mem_nil
  exact idle.spawn (tasksOf_writeTasks ino _) (rewrite_planned read distinguished)
    (fun group member => rewrite_involved read distinguished member) fun op member => absurd member List.not_mem_nil

structure WaitsForAll (state : WriteSystem cfg) : Prop where
  reading : ∀ call ∈ state.calls, call.phase.isReading → state.blocks.ops = []
  writing : ∀ call ∈ state.calls, ∀ ops wasModified, call.phase = .writing ops wasModified →
    ∀ k < state.blocks.ops.length, k ∈ ops
  returned : ∀ call ∈ state.calls, call.phase.succeeded → ∀ op ∈ state.blocks.ops, op.outcome.isSome

theorem waitsForAll_of_none (none : state.blocks.ops = []) : WaitsForAll state where
  reading := fun _ _ _ => none
  writing := by
    intro call member ops wasModified isWriting k below
    rw [none] at below
    exact absurd below (Nat.not_lt_zero k)
  returned := by
    intro call member succeeded op listed
    rw [none] at listed
    cases listed

theorem WaitsForAll.proceed (waits : WaitsForAll state) {call : WriteCall} (isCalls : state.calls = [call])
    (proceeded : state.proceed 0 call = some after) : WaitsForAll after := by
  have mine : call ∈ state.calls := isCalls ▸ List.mem_singleton_self call
  unfold WriteSystem.proceed at proceeded
  split at proceeded
  · next hashListPrev current =>
      obtain rfl := Option.some.inj proceeded
      exact waitsForAll_of_none (waits.reading call mine (by rw [current]; rfl))
  · next range rest hashListPrev current =>
      have none := waits.reading call mine (by rw [current]; rfl)
      split at proceeded
      · obtain rfl := Option.some.inj proceeded
        exact waitsForAll_of_none none
      · obtain rfl := Option.some.inj proceeded
        exact waitsForAll_of_none none
  · next hashListPrev current =>
      have none := waits.reading call mine (by rw [current]; rfl)
      split at proceeded
      · obtain rfl := Option.some.inj proceeded
        exact waitsForAll_of_none none
      · next preData cache ran =>
          obtain rfl := Option.some.inj proceeded
          have isNext : ∀ other ∈ (state.spawnTasks 0 call hashListPrev preData cache).calls,
              ∃ wasModified, other.phase = .writing (List.range' 0
                (writeTasks cfg call.ino (writePlan cfg call.jobs hashListPrev preData)).length) wasModified := by
            intro other member
            simp only [WriteSystem.spawnTasks, isCalls, none] at member
            rw [List.mem_singleton.mp member]
            exact ⟨_, rfl⟩
          constructor
          · intro other member reading
            obtain ⟨wasModified, isWriting⟩ := isNext other member
            rw [isWriting] at reading
            cases reading
          · intro other member ops wasModified isWriting k below
            obtain ⟨_, isOther⟩ := isNext other member
            rw [isOther] at isWriting
            obtain ⟨rfl, _⟩ := CallPhase.writing.inj isWriting
            simp only [WriteSystem.spawnTasks, none, List.nil_append, List.length_map] at below
            exact List.mem_range'_1.mpr ⟨Nat.zero_le k, by omega⟩
          · intro other member succeeded
            obtain ⟨wasModified, isWriting⟩ := isNext other member
            rw [isWriting] at succeeded
            cases succeeded
  · next ops wasModified current =>
      split at proceeded
      · next outcomes isEnded =>
          obtain rfl := Option.some.inj proceeded
          have isNext : ∀ other ∈ (state.setPhase 0 call (.returned (callResult cfg outcomes wasModified))).calls,
              other.phase = .returned (callResult cfg outcomes wasModified) := by
            intro other member
            rw [WriteSystem.setPhase, isCalls] at member
            rw [List.mem_singleton.mp member]
          constructor
          · intro other member reading
            rw [isNext other member] at reading
            cases reading
          · intro other member others otherModified isWriting
            rw [isNext other member] at isWriting
            cases isWriting
          · intro other member succeeded op listed
            obtain ⟨k, isOp⟩ : ∃ k, state.blocks.ops[k]? = some op := List.mem_iff_getElem?.mp listed
            unfold BlockSystem.outcomes at isEnded
            split at isEnded
            · next all =>
                have ended := all k (waits.writing call mine ops wasModified current k
                  (List.getElem?_eq_some_iff.mp isOp).1)
                rw [isOp] at ended
                exact ended
            · cases isEnded
      · cases proceeded
  · cases proceeded

theorem WaitsForAll.step (waits : WaitsForAll state) {call : WriteCall} (isCalls : state.calls = [call])
    {event : WriteEvent} (taken : state.Step event after) (noStart : NoStart state event) : WaitsForAll after := by
  unfold WriteSystem.Step WriteSystem.step at taken
  cases event with
  | start other otherIno otherJobs => exact noStart.elim
  | evict other hash =>
      obtain rfl := Option.some.inj taken
      exact ⟨waits.reading, waits.writing, waits.returned⟩
  | transact k ambient =>
      simp only [Option.map_eq_some_iff] at taken
      obtain ⟨blocks, moved, rfl⟩ := taken
      have length : blocks.ops.length = state.blocks.ops.length :=
        length_of_run (Run.single (.advance k ambient) moved trivial)
      constructor
      · intro other member reading
        rw [← List.length_eq_zero_iff, length, waits.reading other member reading]
        rfl
      · intro other member ops wasModified isWriting j below
        exact waits.writing other member ops wasModified isWriting j (length ▸ below)
      · intro other member succeeded
        exact ended_step moved (waits.returned other member succeeded)
  | proceed i =>
      obtain ⟨other, present, proceeded⟩ := Option.bind_eq_some_iff.mp taken
      rw [isCalls, List.getElem?_singleton] at present
      split at present
      · next first =>
          obtain rfl := Option.some.inj present
          subst first
          exact waits.proceed isCalls proceeded
      · cases present

/-- When the call has returned its tasks have ended. -/
theorem WriteAlone.tasks_done (tasks : BlockSystem cfg → Prop) (readable : Readable cfg ino before.store)
    (cached : SoundCaches cfg before.caches)
    (injective : Set.InjOn cfg.calculateHash (before.involvedBlocks cfg ino jobs))
    (spawned : ∀ hashListPrev preData, PreRead cfg jobs (before.file ino) hashListPrev preData →
      tasks ⟨before.store, (writeTasks cfg ino (writePlan cfg jobs hashListPrev preData)).map .write⟩)
    (advanced : ∀ blocks k ambient next, tasks blocks → blocks.Step (.advance k ambient) next → tasks next)
    {last : IdleState} (ran : WriteAlone cfg client ino jobs before last) :
    ∃ blocks, tasks blocks ∧ blocks.store = last.store ∧ (∀ op ∈ blocks.ops, op.outcome.isSome) ∧
      CachesInvolved cfg ino jobs before last.caches := by
  obtain ⟨state, run, succeeded, rfl⟩ := ran
  have both : Underway cfg client ino jobs before tasks state ∧ WaitsForAll state := by
    refine Run.invariant (fun state => Underway cfg client ino jobs before tasks state ∧ WaitsForAll state) ?_
      ⟨underway_begin cached, waitsForAll_of_none rfl⟩ run
    rintro between event next ⟨⟨phase, isCalls, holds⟩, waits⟩ taken noStart
    have underway : Underway cfg client ino jobs before tasks between := ⟨phase, isCalls, holds⟩
    exact ⟨underway.step readable injective spawned advanced taken noStart, waits.step isCalls taken noStart⟩
  obtain ⟨underway, waits⟩ := both
  obtain ⟨caches, holds⟩ := underway.returned succeeded
  obtain ⟨phase, isCalls, _⟩ := underway
  have member : ⟨client, ino, jobs, phase⟩ ∈ state.calls := isCalls ▸ List.mem_singleton_self _
  exact ⟨state.blocks, holds, rfl, waits.returned _ member (succeeded _ member), caches⟩

theorem run_of_proceed {phase : CallPhase} (isCalls : state.calls = [⟨client, ino, jobs, phase⟩])
    (proceeded : state.proceed 0 ⟨client, ino, jobs, phase⟩ = some after) :
    Run WriteSystem.Step NoStart state after := by
  refine Run.single (.proceed 0) ?_ trivial
  rw [WriteSystem.Step, WriteSystem.step, isCalls]
  exact proceeded

theorem ReadsAlone.finish (readable : Readable cfg ino before.store)
    (injective : Set.InjOn cfg.calculateHash (before.involvedBlocks cfg ino jobs)) {ranges : List (Nat × Nat)}
    {hashListPrev : BlockHashes} (reads : ReadsAlone cfg ino jobs before (.readHashes ranges hashListPrev) state)
    (isCalls : state.calls = [⟨client, ino, jobs, .readHashes ranges hashListPrev⟩]) :
    ∃ after found preData wasModified, Run WriteSystem.Step NoStart state after ∧
      PreRead cfg jobs (before.file ino) found preData ∧
      after.blocks = ⟨before.store, (writeTasks cfg ino (writePlan cfg jobs found preData)).map .write⟩ ∧
      after.calls = [⟨client, ino, jobs, .writing (List.range' 0 after.blocks.ops.length) wasModified⟩] := by
  induction ranges generalizing state hashListPrev with
  | nil =>
      obtain ⟨taken, next⟩ := reads.allRead client rfl
      have isNext := calls_setPhase isCalls (.readPreData hashListPrev)
      obtain ⟨preData, filled, spawns, read, _⟩ := next.spawn readable injective client rfl
      have isBlocks := next.spawnTasks_blocks client hashListPrev preData filled
      refine ⟨_, hashListPrev, preData,
        decide ((changedBlocks hashListPrev (makeNewBlocks cfg jobs hashListPrev preData)).keys.length > 0),
        ?_, read, isBlocks, ?_⟩
      · exact Relation.ReflTransGen.trans (run_of_proceed isCalls taken) (run_of_proceed isNext spawns)
      · rw [isBlocks, WriteSystem.spawnTasks, isNext, next.blocks, List.length_map]
        rfl
  | cons range rest ih =>
      obtain ⟨found, taken, next⟩ := reads.readRange readable client rfl
      have isNext := calls_setPhase isCalls (.readHashes rest found)
      obtain ⟨after, hashes, preData, wasModified, run, others⟩ := ih next isNext
      exact ⟨after, hashes, preData, wasModified,
        Relation.ReflTransGen.trans (run_of_proceed isCalls taken) run, others⟩

/-- A run of the tasks alone that ends them without a failure is one of the call. -/
theorem WriteAlone.of_tasks (finished : BlockSystem cfg → Prop) (readable : Readable cfg ino before.store)
    (cached : SoundCaches cfg before.caches)
    (injective : Set.InjOn cfg.calculateHash (before.involvedBlocks cfg ino jobs))
    (runs : ∀ hashListPrev preData, PreRead cfg jobs (before.file ino) hashListPrev preData →
      ∃ last, Run BlockSystem.Step TasksOnly
          ⟨before.store, (writeTasks cfg ino (writePlan cfg jobs hashListPrev preData)).map .write⟩ last ∧
        (∀ op ∈ last.ops, op.outcome = some (.ok ())) ∧ finished last) :
    ∃ last blocks, WriteAlone cfg client ino jobs before last ∧ finished blocks ∧ blocks.store = last.store := by
  obtain ⟨started, hashListPrev, preData, wasModified, reading, read, isBlocks, isCalls⟩ :=
    ReadsAlone.finish readable injective (readsAlone_begin cached) (rfl : _ = [WriteCall.start cfg client ino jobs])
  obtain ⟨blocks, tasks, done, isFinished⟩ := runs hashListPrev preData read
  rw [← isBlocks] at tasks
  have lifted : Run WriteSystem.Step NoStart started { started with blocks := blocks } := by
    refine Run.map (fun blocks => { started with blocks := blocks }) ?_ tasks
    intro between event next taken only
    cases event with
    | advance k ambient =>
        refine ⟨.transact k ambient, ?_, trivial⟩
        simp only [WriteSystem.Step, WriteSystem.step, Option.map_eq_some_iff]
        exact ⟨next, taken, rfl⟩
    | spawn work => exact only.elim
    | abandon k => exact only.elim
  have length := length_of_run tasks
  have outcomes : blocks.outcomes (List.range' 0 started.blocks.ops.length) =
      some ((List.range' 0 started.blocks.ops.length).filterMap fun k => (blocks.ops[k]?).bind Op.outcome) := by
    refine if_pos fun k listed => ?_
    have below : k < blocks.ops.length := by
      have bound := (List.mem_range'_1.mp listed).2
      omega
    rw [List.getElem?_eq_getElem below, Option.bind_some, done _ (List.getElem_mem below)]
    rfl
  have allDone : ∀ k ∈ List.range' 0 started.blocks.ops.length, ∀ op, blocks.ops[k]? = some op →
      op.outcome = some (.ok ()) := fun k _ op found => done op (List.mem_of_getElem? found)
  have result := callResult_of_done allDone wasModified
  refine ⟨⟨blocks.store, started.caches⟩, blocks, ⟨{ started with blocks := blocks }.setPhase 0
    ⟨client, ino, jobs, .writing (List.range' 0 started.blocks.ops.length) wasModified⟩
    (.returned (.ok wasModified)), ?_, ?_, rfl⟩, isFinished, rfl⟩
  · refine Relation.ReflTransGen.trans (Relation.ReflTransGen.trans reading lifted) (run_of_proceed isCalls ?_)
    simp only [WriteSystem.proceed, outcomes, result]
  · intro call member
    simp only [WriteSystem.setPhase, isCalls] at member
    rw [List.mem_singleton.mp member]
    rfl

end Call

end TiFs
