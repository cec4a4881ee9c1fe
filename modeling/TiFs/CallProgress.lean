import TiFs.CallOrder

namespace TiFs

open KeyValue Tables

def WritePhase.remaining : WritePhase → Nat
  | .increment => 8
  | .upload _ => 7
  | .replace => 6
  | .clearFullHash _ => 5
  | .changeIterationId _ => 4
  | .sizePeek _ => 3
  | .sizeUpdate _ => 2
  | .decrement _ => 1
  | .done => 0

theorem WriteMove.remaining_lt {cfg : TiFsConfig} {task : WriteTask cfg} {phase : WritePhase}
    {before store : Store} (move : WriteMove task before phase store) (running : task.phase ≠ .done) :
    phase.remaining < task.phase.remaining := by
  cases move with
  | finished current => exact absurd current running
  | _ => simp_all [WritePhase.remaining]

def BlockSystem.ended {cfg : TiFsConfig} (state : BlockSystem cfg) (k : Nat) : Prop :=
  ((state.ops[k]?).bind Op.outcome).isSome

section Progress

variable {cfg : TiFsConfig} {ino : StorageIno} {involved : Set Bytes} {file : FileMap}
  {state : WriteSystem cfg} {allowed : WriteEvent → Prop}

structure TasksAdvanced (allowed : WriteEvent → Prop) (ino : StorageIno) (involved : Set Bytes) (file : FileMap)
    (state after : WriteSystem cfg) : Prop where
  run : Run WriteSystem.Step (fun _ => allowed) state after
  refines : CallsRefine ino involved file after
  calls : after.calls = state.calls
  length : after.blocks.ops.length = state.blocks.ops.length
  ended : ∀ k, state.blocks.ended k → after.blocks.ended k

theorem TasksAdvanced.trans {middle after : WriteSystem cfg}
    (first : TasksAdvanced allowed ino involved file state middle)
    (second : TasksAdvanced allowed ino involved file middle after) :
    TasksAdvanced allowed ino involved file state after :=
  ⟨Relation.ReflTransGen.trans first.run second.run, second.refines,
    second.calls.trans first.calls, second.length.trans first.length,
    fun k isEnded => second.ended k (first.ended k isEnded)⟩

theorem CallsRefine.advanced_self (refines : CallsRefine ino involved file state) :
    TasksAdvanced allowed ino involved file state state :=
  ⟨Relation.ReflTransGen.refl, refines, rfl, rfl, fun _ => id⟩

theorem CallsRefine.advance (refines : CallsRefine ino involved file state) {k : Nat}
    (permitted : allowed (.transact k ⟨0, 0⟩)) {task : WriteTask cfg} (present : state.blocks.ops[k]? = some (.write task)) :
    ∃ phase after, WriteMove task state.blocks.store phase after ∧
      TasksAdvanced allowed ino involved file state { state with blocks :=
        ⟨after, state.blocks.ops.set k (.write { task with phase := phase })⟩ } := by
  have member := List.mem_of_getElem? present
  have bound := (List.getElem?_eq_some_iff.mp present).1
  obtain ⟨⟨next, after⟩, ran⟩ := refines.blocks.step_ok ⟨0, 0⟩ member
  obtain ⟨phase, rfl, move⟩ := WriteTask.move_of_step (refines.blocks.covered.sound _ member) ran
  have taken : state.blocks.Step (.advance k ⟨0, 0⟩)
      ⟨after, state.blocks.ops.set k (.write { task with phase := phase })⟩ := by
    simp only [BlockSystem.Step, BlockSystem.step, present, Op.step, ran]
    rfl
  refine ⟨phase, after, move, ?_, refines.transact taken, rfl, List.length_set, ?_⟩
  · refine Run.single (.transact k ⟨0, 0⟩) ?_ permitted
    simp only [WriteSystem.Step, WriteSystem.step, Option.map_eq_some_iff]
    exact ⟨_, taken, rfl⟩
  · intro j isEnded
    by_cases here : k = j
    · subst here
      simp only [BlockSystem.ended, present, Option.bind_some, Op.outcome] at isEnded
      split at isEnded
      · next done =>
          simp only [BlockSystem.ended, List.getElem?_set_self bound, Option.bind_some, Op.outcome,
            move.done done, if_true, Option.isSome_some]
      · cases isEnded
    · simp only [BlockSystem.ended, List.getElem?_set_ne here]
      exact isEnded

theorem CallsRefine.finishTask (refines : CallsRefine ino involved file state) {k : Nat}
    (permitted : allowed (.transact k ⟨0, 0⟩)) (valid : k < state.blocks.ops.length) :
    ∃ after, TasksAdvanced allowed ino involved file state after ∧ after.blocks.ended k := by
  -- On the transactions that the task has left.
  have within : ∀ (bound : Nat) (state : WriteSystem cfg), CallsRefine ino involved file state →
      ∀ task, state.blocks.ops[k]? = some (.write task) → task.phase.remaining ≤ bound →
      ∃ after, TasksAdvanced allowed ino involved file state after ∧ after.blocks.ended k := by
    intro bound
    induction bound with
    | zero =>
        intro state refines task present none
        have done : task.phase = .done := by
          cases phase : task.phase with
          | done => rfl
          | _ => rw [phase] at none; simp [WritePhase.remaining] at none
        refine ⟨state, refines.advanced_self, ?_⟩
        simp [BlockSystem.ended, present, Op.outcome, done]
    | succ bound ih =>
        intro state refines task present left
        obtain ⟨phase, after, move, advanced⟩ := refines.advance permitted present
        have inside := (List.getElem?_eq_some_iff.mp present).1
        have less : phase.remaining ≤ bound := by
          by_cases done : task.phase = .done
          · rw [move.done done]
            exact Nat.zero_le bound
          · have smaller := move.remaining_lt done
            omega
        obtain ⟨last, further, isEnded⟩ := ih _ advanced.refines { task with phase := phase }
          (List.getElem?_set_self inside) less
        exact ⟨last, advanced.trans further, isEnded⟩
  obtain ⟨task, isTask, _⟩ := refines.blocks.tasks _ (List.getElem_mem valid)
  exact within _ state refines task (by rw [List.getElem?_eq_getElem valid, isTask]) le_rfl

theorem CallsRefine.finishTasks (refines : CallsRefine ino involved file state) (ops : List Nat)
    (permitted : ∀ k ∈ ops, allowed (.transact k ⟨0, 0⟩)) (valid : ∀ k ∈ ops, k < state.blocks.ops.length) :
    ∃ after, TasksAdvanced allowed ino involved file state after ∧ ∀ k ∈ ops, after.blocks.ended k := by
  induction ops generalizing state with
  | nil => exact ⟨state, refines.advanced_self, fun k listed => absurd listed List.not_mem_nil⟩
  | cons k rest ih =>
      obtain ⟨middle, first, headEnded⟩ := refines.finishTask (permitted k (by simp)) (valid k (by simp))
      obtain ⟨after, second, restEnded⟩ := ih first.refines
        (fun j listed => permitted j (List.mem_cons_of_mem _ listed)) fun j listed => by
          rw [first.length]
          exact valid j (List.mem_cons_of_mem _ listed)
      refine ⟨after, first.trans second, ?_⟩
      intro j listed
      rcases List.mem_cons.mp listed with rfl | inRest
      · exact second.ended j headEnded
      · exact restEnded j inRest

theorem CallsRefine.finishReads (refines : CallsRefine ino involved file state) {i : Nat}
    {call : WriteCall} (present : state.calls[i]? = some call) {ranges : List (Nat × Nat)}
    {hashListPrev : BlockHashes} (current : call.phase = .readHashes ranges hashListPrev)
    (permitted : allowed (.proceed i)) :
    ∃ after found, Run WriteSystem.Step (fun _ => allowed) state after ∧ CallsRefine ino involved file after ∧
      after.blocks = state.blocks ∧ after.calls = state.calls.set i { call with phase := .readPreData found } := by
  have bound := (List.getElem?_eq_some_iff.mp present).1
  induction ranges generalizing state call hashListPrev with
  | nil =>
      refine ⟨state.setPhase i call (.readPreData hashListPrev), hashListPrev, ?_,
        refines.allRead present current, rfl, rfl⟩
      refine Run.single (.proceed i) ?_ permitted
      simp only [WriteSystem.Step, WriteSystem.step, present, Option.bind_some, WriteSystem.proceed,
        current]
  | cons range rest ih =>
      obtain ⟨found, ran, next⟩ := refines.readRange present current
      obtain ⟨after, hashes, run, last, sameBlocks, isAfter⟩ := ih next (List.getElem?_set_self bound) rfl
        (by simpa [WriteSystem.setPhase] using bound)
      refine ⟨after, hashes, Relation.ReflTransGen.head ⟨.proceed i, ?_, permitted⟩ run, last, sameBlocks, ?_⟩
      · simp only [WriteSystem.Step, WriteSystem.step, present, Option.bind_some, WriteSystem.proceed,
          current, ran]
      · rw [isAfter]
        simp only [WriteSystem.setPhase, List.set_set]

theorem CallsRefine.finishWrites (refines : CallsRefine ino involved file state) {i : Nat}
    {call : WriteCall} (present : state.calls[i]? = some call) {ops : List Nat} {wasModified : Bool}
    (current : call.phase = .writing ops wasModified) (permitted : allowed (.proceed i))
    (tasks : ∀ k ∈ ops, allowed (.transact k ⟨0, 0⟩)) :
    ∃ after, Run WriteSystem.Step (fun _ => allowed) state after ∧
      after.calls = state.calls.set i { call with phase := .returned (.ok wasModified) } := by
  obtain ⟨writing, advanced, ended⟩ := refines.finishTasks ops tasks
    (refines.valid call (List.mem_of_getElem? present) ops wasModified current)
  have still : writing.calls[i]? = some call := by
    rw [advanced.calls]
    exact present
  obtain ⟨outcomes, isEnded⟩ : ∃ outcomes, writing.blocks.outcomes ops = some outcomes :=
    ⟨_, if_pos ended⟩
  obtain ⟨isOk, _⟩ := advanced.refines.return still current isEnded
  refine ⟨writing.setPhase i call (.returned (.ok wasModified)),
    Run.snoc advanced.run (.proceed i) ?_ permitted, ?_⟩
  · simp only [WriteSystem.Step, WriteSystem.step, still, Option.bind_some, WriteSystem.proceed,
      current, isEnded, isOk]
  · simp only [WriteSystem.setPhase, advanced.calls]

/-- The events that bring a call to its end are its own and those of the tasks that it
starts. -/
theorem CallsRefine.finishCall (injective : Set.InjOn cfg.calculateHash involved)
    (refines : CallsRefine ino involved file state) {i : Nat} {call : WriteCall}
    (present : state.calls[i]? = some call) {ranges : List (Nat × Nat)} {hashListPrev : BlockHashes}
    (current : call.phase = .readHashes ranges hashListPrev) (permitted : allowed (.proceed i))
    (tasks : ∀ k, state.blocks.ops.length ≤ k → allowed (.transact k ⟨0, 0⟩)) :
    ∃ after wasModified, Run WriteSystem.Step (fun _ => allowed) state after ∧
      after.calls = state.calls.set i { call with phase := .returned (.ok wasModified) } := by
  have bound := (List.getElem?_eq_some_iff.mp present).1
  obtain ⟨reading, found, first, refined, sameBlocks, isReading⟩ := refines.finishReads present current permitted
  have here : reading.calls[i]? = some { call with phase := .readPreData found } := by
    rw [isReading]
    exact List.getElem?_set_self bound
  have inside : i < reading.calls.length := (List.getElem?_eq_some_iff.mp here).1
  obtain ⟨preData, filled, ran, read, sound⟩ := refined.preData injective here rfl
  have spawned := refined.spawnTasks injective here rfl read sound
  obtain ⟨after, last, isAfter⟩ := spawned.finishWrites (List.getElem?_set_self inside) rfl permitted
    fun k listed => tasks k (sameBlocks ▸ (List.mem_range'_1.mp listed).1)
  have planned : reading.Step (.proceed i)
      (reading.spawnTasks i { call with phase := .readPreData found } found preData filled) := by
    simp only [WriteSystem.Step, WriteSystem.step, here, Option.bind_some, WriteSystem.proceed, ran]
  simp only [WriteSystem.spawnTasks, isReading, List.set_set] at isAfter
  exact ⟨after, _, Relation.ReflTransGen.trans first
    (Relation.ReflTransGen.head ⟨.proceed i, planned, permitted⟩ last), isAfter⟩

end Progress

structure IdleState where
  store : Store
  caches : Nat → BlocksData

def CallPhase.succeeded : CallPhase → Bool
  | .returned (.ok _) => true
  | _ => false

/-- One call alone, from its start until it has returned. -/
def WriteAlone (cfg : TiFsConfig) (client : Nat) (ino : StorageIno) (jobs : List WriteTaskData)
    (before after : IdleState) : Prop :=
  ∃ last : WriteSystem cfg,
    Run WriteSystem.Step NoStart
      (WriteSystem.begin cfg before.store before.caches [WriteCall.start cfg client ino jobs]) last ∧
    (∀ call ∈ last.calls, call.phase.succeeded) ∧ after = ⟨last.blocks.store, last.caches⟩

inductive WritesInTurn (cfg : TiFsConfig) (client : Nat) (ino : StorageIno) :
    List (List WriteTaskData) → IdleState → IdleState → Prop
  | nil (state : IdleState) : WritesInTurn cfg client ino [] state state
  | cons {jobs : List WriteTaskData} {rest : List (List WriteTaskData)} {first middle last : IdleState}
      (head : WriteAlone cfg client ino jobs first middle)
      (tail : WritesInTurn cfg client ino rest middle last) :
      WritesInTurn cfg client ino (jobs :: rest) first last

namespace IdleState

def file (state : IdleState) (ino : StorageIno) : FileMap := storedFile state.store ino

def blocks (state : IdleState) : Set Bytes := presentBlocks state.store state.caches

structure InOrder (cfg : TiFsConfig) (ino : StorageIno) (state : IdleState) : Prop where
  consistent : Consistent cfg ino state.store
  sound : SoundCaches cfg state.caches

end IdleState

def FileMap.writeBatches (blockSize : Nat) (batches : List (List WriteTaskData)) (file : FileMap) :
    FileMap :=
  batches.foldl (fun file jobs => file.writeBatch blockSize jobs) file

theorem writeBatches_singletons (blockSize : Nat) (jobs : List WriteTaskData) (file : FileMap) :
    file.writeBatches blockSize (jobs.map fun job => [job]) = file.writeSequence blockSize jobs := by
  simp only [FileMap.writeBatches, FileMap.writeSequence, List.foldl_map]

def FileMap.writtenBlocks (blockSize : Nat) : List (List WriteTaskData) → FileMap → Set Bytes
  | [], _ => ∅
  | jobs :: rest, file =>
      {data | ∃ part ∈ writeParts blockSize jobs, data = file.patched part} ∪
        writtenBlocks blockSize rest (file.writeBatch blockSize jobs)

section InTurn

variable {cfg : TiFsConfig} {ino : StorageIno} {involved : Set Bytes}

/-- One call alone comes to its end and does to the file what it is meant to. -/
theorem writeAlone_spec (client : Nat) (injective : Set.InjOn cfg.calculateHash involved) {state : IdleState}
    (inOrder : state.InOrder cfg ino) (present : state.blocks ⊆ involved) {jobs : List WriteTaskData}
    (nonempty : ∀ job ∈ jobs, 0 < job.data.length)
    (new : ∀ part ∈ writeParts cfg.blockSize jobs, (state.file ino).patched part ∈ involved) :
    (∃ after, WriteAlone cfg client ino jobs state after) ∧
      ∀ after, WriteAlone cfg client ino jobs state after →
        after.InOrder cfg ino ∧ after.blocks ⊆ involved ∧
        after.file ino = (state.file ino).writeBatch cfg.blockSize jobs := by
  have allowed : CallsAllowed cfg ino involved (storedFile state.store ino) [(client, jobs)] :=
    ⟨fun call member => by rw [List.mem_singleton.mp member]; exact nonempty,
      List.pairwise_singleton _ _, fun call member => by rw [List.mem_singleton.mp member]; exact new⟩
  constructor
  · have refines := callsRefine_begin inOrder.consistent inOrder.sound present allowed
    obtain ⟨last, wasModified, run, isLast⟩ : ∃ last wasModified, Run WriteSystem.Step NoStart _ last ∧ last.calls = _ :=
      refines.finishCall injective (i := 0) rfl rfl trivial fun _ _ => trivial
    refine ⟨_, last, run, ?_, rfl⟩
    intro call member
    rw [isLast] at member
    rw [List.mem_singleton.mp member]
    rfl
  · rintro _ ⟨last, run, succeeded, rfl⟩
    have order := (startOrder_begin inOrder.consistent inOrder.sound present allowed).run injective run
    obtain ⟨isFile, consistent, sound, within⟩ := order.settled injective fun call member => by
      have returned := succeeded call member
      cases phase : call.phase with
      | returned result => rfl
      | _ => rw [phase] at returned; cases returned
    exact ⟨⟨consistent, sound⟩, within, isFile⟩

theorem writesInTurn_spec (client : Nat) (batches : List (List WriteTaskData))
    (injective : Set.InjOn cfg.calculateHash involved) {state : IdleState} (inOrder : state.InOrder cfg ino)
    (present : state.blocks ⊆ involved) (nonempty : ∀ jobs ∈ batches, ∀ job ∈ jobs, 0 < job.data.length)
    (new : (state.file ino).writtenBlocks cfg.blockSize batches ⊆ involved) :
    (∃ after, WritesInTurn cfg client ino batches state after) ∧
      ∀ after, WritesInTurn cfg client ino batches state after →
        after.InOrder cfg ino ∧ after.blocks ⊆ involved ∧
        after.file ino = (state.file ino).writeBatches cfg.blockSize batches := by
  induction batches generalizing state with
  | nil =>
      refine ⟨⟨state, .nil state⟩, ?_⟩
      intro after run
      cases run
      exact ⟨inOrder, present, rfl⟩
  | cons jobs rest ih =>
      obtain ⟨⟨middle, head⟩, headSpec⟩ := writeAlone_spec client injective inOrder present
        (nonempty jobs (by simp)) fun part listed => new (Or.inl ⟨part, listed, rfl⟩)
      -- Whatever the first call leaves behind is what the others start from.
      have restSpec : ∀ middle, WriteAlone cfg client ino jobs state middle →
          (∃ after, WritesInTurn cfg client ino rest middle after) ∧
            ∀ after, WritesInTurn cfg client ino rest middle after →
              after.InOrder cfg ino ∧ after.blocks ⊆ involved ∧
              after.file ino = (middle.file ino).writeBatches cfg.blockSize rest := by
        intro middle head
        obtain ⟨middleInOrder, within, isFile⟩ := headSpec middle head
        apply ih middleInOrder within fun jobs listed => nonempty jobs (List.mem_cons_of_mem _ listed)
        rw [isFile]
        exact fun data listed => new (Or.inr listed)
      constructor
      · obtain ⟨after, tail⟩ := (restSpec middle head).1
        exact ⟨after, .cons head tail⟩
      · intro after run
        cases run with
        | cons first tail =>
            obtain ⟨afterInOrder, within, isFile⟩ := (restSpec _ first).2 after tail
            refine ⟨afterInOrder, within, ?_⟩
            rw [isFile, (headSpec _ first).2.2]
            rfl

end InTurn

theorem writtenBlocks_short {blockSize : Nat} (positive : 0 < blockSize)
    {batches : List (List WriteTaskData)} (nonempty : ∀ jobs ∈ batches, ∀ job ∈ jobs, 0 < job.data.length)
    {file : FileMap} (wellFormed : file.WellFormed blockSize) {data : Bytes}
    (listed : data ∈ file.writtenBlocks blockSize batches) : data.length ≤ blockSize := by
  induction batches generalizing file with
  | nil => cases listed
  | cons jobs rest ih =>
      have jobsNonempty := nonempty jobs (by simp)
      rcases listed with ⟨part, isPart, rfl⟩ | later
      · obtain ⟨job, member, found⟩ := (mem_writeParts positive jobsNonempty).mp isPart
        exact (patched_bound wellFormed (partAt_bound found).2).1
      · exact ih (fun jobs listed => nonempty jobs (List.mem_cons_of_mem _ listed))
          (wellFormed_writeBatch positive jobsNonempty wellFormed) later

def newState (ino : StorageIno) : IdleState := ⟨newFile ino, fun _ => ∅⟩

theorem newState_blocks (ino : StorageIno) : (newState ino).blocks = ∅ := by
  rw [Set.eq_empty_iff_forall_notMem]
  rintro data (⟨hash, found⟩ | ⟨client, hash, found⟩)
  · cases found
  · cases found

theorem newFile_size (ino : StorageIno) : inoSize (newFile ino) ino = some (InoSize.new 0) :=
  lookup_put_self (∅ : Store) (Key.inodeX ino .size) (InoSize.new 0)

theorem newState_file (ino : StorageIno) : (newState ino).file ino = FileMap.empty := by
  apply FileMap.ext
  · funext index
    rfl
  · simp only [IdleState.file, storedFile, newState, newFile_size]
    rfl

theorem newState_inOrder (cfg : TiFsConfig) (ino : StorageIno) : (newState ino).InOrder cfg ino := by
  constructor
  · constructor
    · exact newFile_uncounted ino
    · intro hash counted
      cases counted
    · intro hash data found
      cases found
    · rw [newState, newFile_size]
      rfl
    · intro index data found
      cases found
  · intro client hash data found
    cases found

theorem padding_injOn {blockSize : Nat} (positive : 0 < blockSize) :
    Set.InjOn (paddingConfig blockSize positive).calculateHash {data | data.length ≤ blockSize} :=
  (padHash_injOn (blockSize + 1)).mono fun _ short => Nat.lt_succ_of_le short

theorem newState_blocks_short (blockSize : Nat) (ino : StorageIno) :
    (newState ino).blocks ⊆ {data | data.length ≤ blockSize} := by
  rw [newState_blocks]
  exact Set.empty_subset _

theorem newState_written_short {blockSize : Nat} (positive : 0 < blockSize) (ino : StorageIno)
    (batches : List (List WriteTaskData))
    (nonempty : ∀ jobs ∈ batches, ∀ job ∈ jobs, 0 < job.data.length) :
    ((newState ino).file ino).writtenBlocks blockSize batches ⊆ {data | data.length ≤ blockSize} := by
  rw [newState_file]
  intro data listed
  refine writtenBlocks_short positive nonempty ?_ listed
  intro index data found
  cases found

end TiFs
