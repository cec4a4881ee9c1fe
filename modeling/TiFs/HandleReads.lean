import TiFs.BatchWrites
import TiFs.BlockRead
import TiFs.FlushedWrites

/-! Writes and reads through one handle. A read waits for the tasks of the writes
before it, but what these have left in the accumulator is not in the store. -/

namespace TiFs

open KeyValue Tables

/-- A handle and the store behind it. The calls of `hb_write_data` that the handle
has made are those of the store's side, in the same order. -/
structure HandleSession (cfg : TiFsConfig) where
  handle : FileHandler
  system : WriteSystem cfg

/-- What the handle does, the return of a call or of a read to it, and what the calls
do. Nothing else is under way while a read runs, so it is one step. -/
inductive SessionEvent where
  | fuse (event : HandleEvent)
  | finish (task : Nat)
  | readDone
  | call (event : WriteEvent)

namespace HandleSession

variable {cfg : TiFsConfig}

def begin (cfg : TiFsConfig) (before : IdleState) : HandleSession cfg :=
  ⟨FileHandler.new, WriteSystem.begin cfg before.store before.caches []⟩

def returned (state : HandleSession cfg) (k : Nat) : Option (Except FsError Bool) := do
  let task ← state.handle.tasks[k]?
  let c ← task.phase.call
  let call ← state.system.calls[c]?
  match call.phase with
  | .returned result => some result
  | _ => none

def startCalls (ino : StorageIno) (system : WriteSystem cfg) (handed : List HandedCall) :
    WriteSystem cfg :=
  { system with
    calls := system.calls ++ handed.map fun call => WriteCall.start cfg 0 ino call.jobs }

def finishRead (ino : StorageIno) (state : HandleSession cfg) : Option (HandleSession cfg) :=
  match state.handle.fuse with
  | .reading start size =>
      let read := hbReadData cfg ino start (some size) (state.system.caches 0)
        state.system.blocks.store
      (state.handle.step cfg (.readDone read.1)).map fun handle =>
        ⟨handle, { state.system with
          caches := Function.update state.system.caches 0 read.2 }⟩
  | _ => none

def step (ino : StorageIno) (state : HandleSession cfg) : SessionEvent → Option (HandleSession cfg)
  | .fuse (.finish _ _) => none
  | .fuse (.readDone _) => none
  | .fuse event => (state.handle.step cfg event).map fun handle =>
      ⟨handle, startCalls ino state.system (handle.calls.drop state.handle.calls.length)⟩
  | .finish k => (state.returned k).bind fun outcome =>
      (state.handle.step cfg (.finish k outcome)).map fun handle => { state with handle := handle }
  | .readDone => state.finishRead ino
  | .call (.start _ _ _) => none
  | .call event => (state.system.step event).map fun system => { state with system := system }

def Step (ino : StorageIno) (before : HandleSession cfg) (event : SessionEvent)
    (after : HandleSession cfg) : Prop :=
  before.step ino event = some after

def target (file : FileMap) (state : HandleSession cfg) : FileMap :=
  file.writeBatches cfg.blockSize (state.handle.calls.map HandedCall.jobs)

/-- What a batch that is handed over needs: in each block its last job covers the
others, no call on one of its blocks is in flight, and the blocks it changes in part
are stored. The blocks it makes are among those that do not collide. -/
structure HandedWell (ino : StorageIno) (involved : Set Bytes) (file : FileMap)
    (state : HandleSession cfg) (jobs : List WriteTaskData) : Prop where
  covers : LastCovers cfg.blockSize (jobs.map WriteTaskData.extent)
  apart : ∀ call ∈ state.system.calls, call.phase.isActive → ∀ index, call.Touches cfg index →
    lastPart cfg.blockSize jobs index = none
  stored : ∀ index hash, lastPart cfg.blockSize jobs index ≠ none →
    mapping state.system.blocks.store ⟨ino, index⟩ = some hash →
    (blockData state.system.blocks.store hash).isSome
  new : ∀ part ∈ writeParts cfg.blockSize jobs, (state.target file).patched part ∈ involved

/-- Tasks enter in the order of their FUSE calls and hand over well, and nothing that
is accumulated lies in the range of a read. -/
def Allowed (ino : StorageIno) (involved : Set Bytes) (file : FileMap) (state : HandleSession cfg) :
    SessionEvent → Prop
  | .fuse (.enter k) =>
      (∀ j < k, ∀ task ∈ state.handle.tasks[j]?, task.phase.isAttempt = false) ∧
      ∀ task ∈ state.handle.tasks[k]?,
        task.flush ∨ writeDataLen (state.handle.writeAccumulator ++ task.own) >
          cfg.writeAccumulatorFlushThreshold →
        state.HandedWell ino involved file (state.handle.writeAccumulator ++ task.own)
  | .readDone => ∀ start size, state.handle.fuse = .reading start size →
      ∀ job ∈ state.handle.writeAccumulator, ∀ pos, start ≤ pos → pos < start + size → ¬ job.Writes pos
  | _ => True

end HandleSession

namespace FileHandler

/-- A read that has returned has the data of the last write to its range, if that
write was to exactly this range. -/
def ReadsOwnWrites (state : FileHandler) : Prop :=
  ∀ front job back result, state.accepted = front ++ job :: back →
    state.fuse = .returned (some (.read job.start job.data.length result)) →
    (∀ other ∈ back, ∀ pos, job.Writes pos → ¬ other.Writes pos) → result = .ok job.data

theorem enter_handed (cfg : TiFsConfig) (state : FileHandler) (k : Nat) (task : SpinTask) :
    (state.enter cfg k task).calls = state.calls ∨
      (state.enter cfg k task).calls = state.calls ++ [⟨state.writeAccumulator ++ task.own, none⟩] ∧
        (task.flush ∨
          writeDataLen (state.writeAccumulator ++ task.own) > cfg.writeAccumulatorFlushThreshold) := by
  unfold enter
  by_cases takes : task.flush ∨
      writeDataLen (state.writeAccumulator ++ task.own) > cfg.writeAccumulatorFlushThreshold
  · rw [if_pos takes]
    split
    · exact Or.inr ⟨rfl, takes⟩
    · exact Or.inl rfl
  · rw [if_neg takes]
    exact Or.inl rfl

theorem enter_fuse (cfg : TiFsConfig) (state : FileHandler) (k : Nat) (task : SpinTask) :
    (state.enter cfg k task).fuse = state.fuse := by
  rcases enter_cases cfg state k task with ⟨isAfter, _⟩ | ⟨isAfter, _⟩
  · rw [isAfter]
  · rw [isAfter]

theorem accepted_set {state : FileHandler} {k : Nat} {task : SpinTask}
    (present : state.tasks[k]? = some task) (next : SpinTask) (same : next.data = task.data) :
    (state.tasks.set k next).flatMap SpinTask.own = state.accepted := by
  rw [accepted, List.flatMap_def, List.flatMap_def, owns_set present next same]
  rfl

theorem enter_accepted (cfg : TiFsConfig) (state : FileHandler) {k : Nat} {task : SpinTask}
    (present : state.tasks[k]? = some task) : (state.enter cfg k task).accepted = state.accepted := by
  obtain ⟨phase, sameTasks⟩ := enter_tasks cfg state k task
  rw [accepted, sameTasks]
  exact accepted_set present _ rfl

theorem own_nonempty {task : SpinTask} : ∀ job ∈ task.own, 0 < job.data.length := by
  intro job member
  rw [SpinTask.own] at member
  split at member
  · next some =>
      rw [List.mem_singleton.mp member]
      exact some
  · cases member

theorem EnteredInOrder.nonempty {state : FileHandler} {n : Nat} (order : state.EnteredInOrder n) :
    ∀ job ∈ state.kept.flatten ++ state.writeAccumulator, 0 < job.data.length := by
  intro job member
  rw [order.jobs, List.mem_flatten] at member
  obtain ⟨own, listed, inOwn⟩ := member
  obtain ⟨task, _, rfl⟩ := List.mem_map.mp (List.mem_of_mem_take listed)
  exact own_nonempty job inOwn

theorem readsOwnWrites_of_not_read {state : FileHandler}
    (notRead : ∀ start size result, state.fuse ≠ .returned (some (.read start size result))) :
    state.ReadsOwnWrites :=
  fun _ _ _ _ _ isRead _ => absurd isRead (notRead _ _ _)

theorem ReadsOwnWrites.congr {state after : FileHandler} (reads : state.ReadsOwnWrites)
    (sameFuse : after.fuse = state.fuse) (sameAccepted : after.accepted = state.accepted) :
    after.ReadsOwnWrites := by
  intro front job back result isAccepted isRead
  rw [sameAccepted] at isAccepted
  rw [sameFuse] at isRead
  exact reads front job back result isAccepted isRead

end FileHandler

theorem writeBatches_eq_writeSequence {blockSize : Nat} (positive : 0 < blockSize)
    {batches : List (List WriteTaskData)}
    (nonempty : ∀ jobs ∈ batches, ∀ job ∈ jobs, 0 < job.data.length)
    (covers : ∀ jobs ∈ batches, LastCovers blockSize (jobs.map WriteTaskData.extent)) (file : FileMap) :
    file.writeBatches blockSize batches = file.writeSequence blockSize batches.flatten := by
  induction batches generalizing file with
  | nil => rfl
  | cons jobs rest ih =>
      calc file.writeBatches blockSize (jobs :: rest)
          = (file.writeBatch blockSize jobs).writeBatches blockSize rest := rfl
        _ = (file.writeSequence blockSize jobs).writeBatches blockSize rest := by
            rw [writeBatch_eq_writeSequence positive (nonempty jobs (by simp)) (covers jobs (by simp))]
        _ = (file.writeSequence blockSize jobs).writeSequence blockSize rest.flatten :=
            ih (fun other listed => nonempty other (by simp [listed]))
              (fun other listed => covers other (by simp [listed])) _
        _ = file.writeSequence blockSize (jobs :: rest).flatten := by
            rw [List.flatten_cons, writeSequence_append]

namespace HandleSession

structure Synced {cfg : TiFsConfig} (ino : StorageIno) (involved : Set Bytes) (file : FileMap)
    (state : HandleSession cfg) : Prop where
  tracked : state.handle.Tracked
  order : ∃ n, state.handle.EnteredInOrder n
  length : state.system.calls.length = state.handle.calls.length
  answered : ∀ (c : Nat) (handed : HandedCall) (call : WriteCall), state.handle.calls[c]? = some handed →
    state.system.calls[c]? = some call → handed.outcome.isSome → call.phase.isActive = false
  succeeded : ∀ handed ∈ state.handle.calls, handed.kept = handed.jobs
  covers : ∀ handed ∈ state.handle.calls,
    LastCovers cfg.blockSize (handed.jobs.map WriteTaskData.extent)
  written : StartOrder ino involved (state.target file) state.system
  reads : state.handle.ReadsOwnWrites

section Session

variable {cfg : TiFsConfig} {ino : StorageIno} {involved : Set Bytes} {file : FileMap}
  {state after : HandleSession cfg}

theorem synced_begin {before : IdleState} (inOrder : before.InOrder cfg ino)
    (present : before.blocks ⊆ involved) :
    (begin cfg before).Synced ino involved (before.file ino) := by
  have none : CallsAllowed cfg ino involved (before.file ino) [] :=
    ⟨fun _ listed => absurd listed List.not_mem_nil, List.Pairwise.nil,
      fun _ listed => absurd listed List.not_mem_nil⟩
  constructor
  · exact FileHandler.tracked_new
  · exact ⟨0, FileHandler.enteredInOrder_new⟩
  · rfl
  · intro c handed call made
    cases made
  · intro handed member
    cases member
  · intro handed member
    cases member
  · exact startOrder_begin inOrder.consistent inOrder.sound present none
  · apply FileHandler.readsOwnWrites_of_not_read
    intro start size result isRead
    cases isRead

@[simp] theorem startCalls_nil (ino : StorageIno) (system : WriteSystem cfg) :
    startCalls ino system [] = system := by
  rw [startCalls, List.map_nil, List.append_nil]

theorem Synced.fuse (synced : state.Synced ino involved file) {handle : FileHandler}
    (sameCalls : handle.calls = state.handle.calls) (tracked : handle.Tracked)
    (order : ∃ n, handle.EnteredInOrder n) (reads : handle.ReadsOwnWrites) :
    Synced ino involved file
      ⟨handle, startCalls ino state.system (handle.calls.drop state.handle.calls.length)⟩ := by
  have none : handle.calls.drop state.handle.calls.length = [] := by
    rw [sameCalls, List.drop_length]
  rw [none, startCalls_nil]
  refine ⟨tracked, order, ?_, ?_, ?_, ?_, ?_, reads⟩
  · rw [sameCalls]
    exact synced.length
  · rw [sameCalls]
    exact synced.answered
  · rw [sameCalls]
    exact synced.succeeded
  · rw [sameCalls]
    exact synced.covers
  · rw [target, sameCalls]
    exact synced.written

/-- A block that no call in flight touches is in the store as in the file. -/
theorem mapping_of_untouched {written : FileMap} {system : WriteSystem cfg}
    (refines : CallsRefine ino involved written system) {index : Nat}
    (untouched : ∀ call ∈ system.calls, call.phase.isActive → ¬ call.Touches cfg index) :
    mapping system.blocks.store ⟨ino, index⟩ = (written.content index).map cfg.calculateHash := by
  apply refines.blocks.mapped
  intro op member listed
  obtain ⟨write, inPending, isAddr⟩ := List.mem_map.mp listed
  obtain ⟨k, found⟩ := List.mem_iff_getElem?.mp member
  obtain ⟨j, owner, ops, wasModified, isOwner, isWriting, _, touches⟩ :=
    refines.owners k op found (outcome_of_pending inPending)
  have touched := touches write inPending
  rw [isAddr] at touched
  exact untouched owner (List.mem_of_getElem? isOwner) (by rw [isWriting]; rfl) touched

theorem HandedWell.startAllowed {jobs : List WriteTaskData}
    (well : state.HandedWell ino involved file jobs)
    (written : StartOrder ino involved (state.target file) state.system)
    (nonempty : ∀ job ∈ jobs, 0 < job.data.length) :
    StartAllowed cfg ino involved (state.target file) state.system jobs := by
  obtain ⟨current, refines, awaits⟩ := written
  refine ⟨nonempty, well.apart, ?_, well.new⟩
  intro index data touched isContent
  have untouched : ∀ call ∈ state.system.calls, call.phase.isActive → ¬ call.Touches cfg index :=
    fun call member active touches => touched (well.apart call member active index touches)
  have reached := awaits.reached index (by
    rintro _ ⟨call, member, reading, rfl⟩
    exact not_not.mp (untouched call member (CallPhase.isActive_of_isReading reading)))
  have isMapped := mapping_of_untouched refines untouched
  rw [← reached, isContent] at isMapped
  exact well.stored index _ touched isMapped

theorem Synced.hand (injective : Set.InjOn cfg.calculateHash involved)
    (synced : state.Synced ino involved file) {handle : FileHandler} {jobs : List WriteTaskData}
    (newCall : handle.calls = state.handle.calls ++ [⟨jobs, none⟩])
    (nonempty : ∀ job ∈ jobs, 0 < job.data.length) (well : state.HandedWell ino involved file jobs)
    (tracked : handle.Tracked) (order : ∃ n, handle.EnteredInOrder n)
    (reads : handle.ReadsOwnWrites) :
    Synced ino involved file
      ⟨handle, startCalls ino state.system (handle.calls.drop state.handle.calls.length)⟩ := by
  have one : handle.calls.drop state.handle.calls.length = [⟨jobs, none⟩] := by
    rw [newCall, List.drop_left]
  have started : state.system.Step (.start 0 ino jobs) (startCalls ino state.system [⟨jobs, none⟩]) :=
    rfl
  rw [one]
  refine ⟨tracked, order, ?_, ?_, ?_, ?_, ?_, reads⟩
  · simp only [startCalls, newCall, List.length_append, List.map_singleton, List.length_singleton,
      synced.length]
  · intro c handed call made found hasOutcome
    simp only [newCall] at made
    rcases getElem?_concat_cases made with ⟨_, rfl⟩ | earlier
    · cases hasOutcome
    · have inside := (List.getElem?_eq_some_iff.mp earlier).1
      rw [← synced.length] at inside
      refine synced.answered c handed call earlier ?_ hasOutcome
      rw [← found]
      exact (List.getElem?_append_left inside).symm
  · intro handed member
    simp only [newCall] at member
    rcases List.mem_append.mp member with earlier | last
    · exact synced.succeeded handed earlier
    · rw [List.mem_singleton.mp last]
      rfl
  · intro handed member
    simp only [newCall] at member
    rcases List.mem_append.mp member with earlier | last
    · exact synced.covers handed earlier
    · rw [List.mem_singleton.mp last]
      exact well.covers
  · have next := synced.written.step injective started fun client other given isStart => by
      cases isStart
      exact ⟨rfl, well.startAllowed synced.written nonempty⟩
    have isTarget : target file ⟨handle, startCalls ino state.system [⟨jobs, none⟩]⟩ =
        (state.target file).writeBatch cfg.blockSize jobs := by
      simp only [target, newCall, List.map_append, List.map_singleton, FileMap.writeBatches,
        List.foldl_append, List.foldl_cons, List.foldl_nil]
    rw [isTarget]
    exact next

theorem inactive_kept {system next : WriteSystem cfg} {event : WriteEvent}
    (taken : system.Step event next) {written : FileMap}
    (refines : CallsRefine ino involved written next) {c : Nat} {call : WriteCall}
    (found : system.calls[c]? = some call) (inactive : call.phase.isActive = false) :
    next.calls[c]? = some call := by
  cases event with
  | start client other jobs =>
      obtain rfl := Option.some.inj taken
      exact (List.getElem?_append_left (List.getElem?_eq_some_iff.mp found).1).trans found
  | transact k ambient =>
      obtain ⟨blocks, _, rfl⟩ := Option.map_eq_some_iff.mp taken
      exact found
  | evict client hash =>
      obtain rfl := Option.some.inj taken
      exact found
  | proceed i =>
      obtain ⟨moved, phase, present, isAfter, _⟩ := CallsRefine.proceed_cases taken refines
      by_cases same : i = c
      · subst same
        obtain rfl := Option.some.inj (present.symm.trans found)
        obtain ⟨_, isCall, proceeded⟩ := Option.bind_eq_some_iff.mp taken
        obtain rfl := Option.some.inj (present.symm.trans isCall)
        cases isPhase : moved.phase with
        | returned result =>
            rw [WriteSystem.proceed, isPhase] at proceeded
            cases proceeded
        | _ =>
            rw [isPhase] at inactive
            cases inactive
      · rw [isAfter, List.getElem?_set_ne same]
        exact found

theorem returned_of_writing {k c : Nat} {task : SpinTask} {outcome : Except FsError Bool}
    (isReturned : state.returned k = some outcome) (present : state.handle.tasks[k]? = some task)
    (writing : task.phase = .writing c) :
    ∃ call, state.system.calls[c]? = some call ∧ call.phase = .returned outcome := by
  simp only [returned, present, writing, TaskPhase.call, Option.bind_eq_bind, Option.bind_some]
    at isReturned
  obtain ⟨call, found, isOutcome⟩ := Option.bind_eq_some_iff.mp isReturned
  refine ⟨call, found, ?_⟩
  cases phase : call.phase with
  | returned result =>
      rw [phase] at isOutcome
      rw [Option.some.inj isOutcome]
  | _ =>
      rw [phase] at isOutcome
      cases isOutcome

theorem Synced.finish (synced : state.Synced ino involved file) {k : Nat}
    (taken : state.Step ino (.finish k) after) : after.Synced ino involved file := by
  obtain ⟨outcome, isReturned, finished⟩ := Option.bind_eq_some_iff.mp taken
  obtain ⟨handle, handled, rfl⟩ := Option.map_eq_some_iff.mp finished
  have tracked := synced.tracked.step handled
  obtain ⟨n, order⟩ := synced.order
  cases FileHandler.effect_of_step handled with
  | finished k c task handed outcome present writing made =>
      obtain ⟨call, found, isCall⟩ := returned_of_writing isReturned present writing
      obtain ⟨current, refines, _⟩ := id synced.written
      obtain ⟨modified, rfl⟩ := refines.succeeded call (List.mem_of_getElem? found) outcome isCall
      have sameJobs : (state.handle.calls.set c { handed with outcome := some (.ok modified) }).map
          HandedCall.jobs = state.handle.calls.map HandedCall.jobs := map_set_same made rfl
      constructor
      · exact tracked
      · exact ⟨n, order.succeed present writing made modified⟩
      · rw [synced.length, List.length_set]
      · intro d other someCall isOther isSome hasOutcome
        rcases getElem?_set_cases isOther with ⟨rfl, _⟩ | ⟨_, earlier⟩
        · obtain rfl := Option.some.inj (found.symm.trans isSome)
          rw [isCall]
          rfl
        · exact synced.answered d other someCall earlier isSome hasOutcome
      · intro other member
        rcases List.mem_or_eq_of_mem_set member with earlier | rfl
        · exact synced.succeeded other earlier
        · rfl
      · intro other member
        rcases List.mem_or_eq_of_mem_set member with earlier | rfl
        · exact synced.covers other earlier
        · exact synced.covers handed (List.mem_of_getElem? made)
      · rw [target, sameJobs]
        exact synced.written
      · exact synced.reads.congr rfl
          (FileHandler.accepted_set present _ (task.respond_kept (.ok modified)).1)

theorem calls_length {system next : WriteSystem cfg} {event : WriteEvent}
    (taken : system.Step event next) (noStart : NoStart system event) {written : FileMap}
    (refines : CallsRefine ino involved written next) : next.calls.length = system.calls.length := by
  cases event with
  | start client other jobs => exact noStart.elim
  | transact k ambient =>
      obtain ⟨blocks, _, rfl⟩ := Option.map_eq_some_iff.mp taken
      rfl
  | evict client hash =>
      obtain rfl := Option.some.inj taken
      rfl
  | proceed i =>
      obtain ⟨moved, phase, _, isAfter, _⟩ := CallsRefine.proceed_cases taken refines
      rw [isAfter, List.length_set]

theorem Synced.call (injective : Set.InjOn cfg.calculateHash involved)
    (synced : state.Synced ino involved file) {event : WriteEvent} {system : WriteSystem cfg}
    (taken : state.system.Step event system) (noStart : NoStart state.system event) :
    Synced ino involved file ⟨state.handle, system⟩ := by
  have next := synced.written.step injective taken fun client other jobs isStart => by
    rw [isStart] at noStart
    exact noStart.elim
  have sameTarget : event.target cfg.blockSize (state.target file) = state.target file := by
    cases event with
    | start client other jobs => exact noStart.elim
    | _ => rfl
  rw [sameTarget] at next
  obtain ⟨current, refines, _⟩ := id next
  refine ⟨synced.tracked, synced.order, ?_, ?_, synced.succeeded, synced.covers, next, synced.reads⟩
  · rw [calls_length taken noStart refines, synced.length]
  · intro c handed call made found hasOutcome
    have bound := (List.getElem?_eq_some_iff.mp found).1
    rw [calls_length taken noStart refines] at bound
    have earlier : state.system.calls[c]? = some (state.system.calls[c]) := List.getElem?_eq_getElem bound
    have inactive := synced.answered c handed _ made earlier hasOutcome
    have kept := inactive_kept taken refines earlier inactive
    rw [Option.some.inj (found.symm.trans kept)]
    exact inactive

def handed (state : HandleSession cfg) : List WriteTaskData :=
  (state.handle.calls.map HandedCall.jobs).flatten

/-- While a read runs every call has returned, what is not in the store is accumulated,
and the store is in order. -/
structure Settled (ino : StorageIno) (involved : Set Bytes) (file : FileMap)
    (state : HandleSession cfg) : Prop where
  accepted : state.handle.accepted = state.handed ++ state.handle.writeAccumulator
  nonempty : ∀ job ∈ state.handle.accepted, 0 < job.data.length
  stored : storedFile state.system.blocks.store ino = file.writeSequence cfg.blockSize state.handed
  inOrder : (⟨state.system.blocks.store, state.system.caches⟩ : IdleState).InOrder cfg ino
  present : presentBlocks state.system.blocks.store state.system.caches ⊆ involved

theorem Synced.settled (injective : Set.InjOn cfg.calculateHash involved)
    (synced : state.Synced ino involved file) {start size : Nat}
    (reading : state.handle.fuse = .reading start size) : state.Settled ino involved file := by
  have finished := synced.tracked.reading start size reading
  obtain ⟨n, order⟩ := synced.order
  have answered : ∀ (c : Nat) (handed : HandedCall), state.handle.calls[c]? = some handed →
      handed.outcome.isSome := by
    intro c handed made
    cases outcome : handed.outcome with
    | some result => rfl
    | none =>
        obtain ⟨k, task, present, writing⟩ := synced.tracked.owned c handed made outcome
        have done := finished task (List.mem_of_getElem? present)
        rw [writing] at done
        cases done
  have isWritten : state.handle.written = state.handed := by
    rw [FileHandler.written, handed, List.flatMap_def]
    congr 1
    apply List.map_congr_left
    intro call member
    obtain ⟨c, made⟩ := List.mem_iff_getElem?.mp member
    have same := synced.succeeded call member
    obtain ⟨result, outcome⟩ := Option.isSome_iff_exists.mp (answered c call made)
    rw [HandedCall.kept, outcome] at same
    rw [HandedCall.written, outcome]
    cases result with
    | ok modified => rfl
    | error issue => exact same
  have isAccepted := order.settled synced.tracked finished
  rw [isWritten] at isAccepted
  have isKept : state.handle.kept.flatten = state.handed := by
    rw [FileHandler.kept, handed]
    congr 1
    exact List.map_congr_left synced.succeeded
  have nonempty := order.nonempty
  rw [isKept, isAccepted] at nonempty
  have returned : ∀ call ∈ state.system.calls, call.phase.isActive = false := by
    intro call member
    obtain ⟨c, found⟩ := List.mem_iff_getElem?.mp member
    have bound := (List.getElem?_eq_some_iff.mp found).1
    rw [synced.length] at bound
    have made : state.handle.calls[c]? = some (state.handle.calls[c]) := List.getElem?_eq_getElem bound
    exact synced.answered c _ call made found (answered c _ made)
  obtain ⟨isFile, consistent, sound, present⟩ := synced.written.settled injective returned
  have isSequence : state.target file = file.writeSequence cfg.blockSize state.handed := by
    apply writeBatches_eq_writeSequence cfg.blockSize_pos
    · intro jobs listed job member
      apply nonempty
      rw [← isAccepted]
      exact List.mem_append_left _ (List.mem_flatten.mpr ⟨jobs, listed, member⟩)
    · intro jobs listed
      obtain ⟨call, member, rfl⟩ := List.mem_map.mp listed
      exact synced.covers call member
  exact ⟨isAccepted.symm, nonempty, isFile.trans isSequence, ⟨consistent, sound⟩, present⟩

theorem Settled.handed_eq (settled : state.Settled ino involved file) {front back : List WriteTaskData}
    {job : WriteTaskData} (isAccepted : state.handle.accepted = front ++ job :: back)
    (notLeft : job ∉ state.handle.writeAccumulator) :
    ∃ later, state.handed = front ++ job :: later ∧ ∀ other ∈ later, other ∈ back := by
  have joined := settled.accepted
  rw [isAccepted, List.append_eq_append_iff] at joined
  rcases joined with ⟨rest, isHanded, isRest⟩ | ⟨rest, _, isLeft⟩
  · cases rest with
    | nil =>
        rw [List.nil_append] at isRest
        exact absurd (by rw [← isRest]; simp) notLeft
    | cons head later =>
        rw [List.cons_append, List.cons.injEq] at isRest
        refine ⟨later, by rw [isHanded, isRest.1], ?_⟩
        intro other member
        rw [isRest.2]
        exact List.mem_append_left _ member
  · exact absurd (by rw [isLeft]; simp) notLeft

/-- With nothing accumulated in its range, a read finds the last write to it. -/
theorem Settled.reads (injective : Set.InjOn cfg.calculateHash involved)
    (settled : state.Settled ino involved file) {front back : List WriteTaskData} {job : WriteTaskData}
    (isAccepted : state.handle.accepted = front ++ job :: back)
    (behind : ∀ other ∈ back, ∀ pos, job.Writes pos → ¬ other.Writes pos)
    (notLeft : ∀ other ∈ state.handle.writeAccumulator, ∀ pos, job.start ≤ pos →
      pos < job.start + job.data.length → ¬ other.Writes pos) :
    (hbReadData cfg ino job.start (some job.data.length) (state.system.caches 0)
      state.system.blocks.store).1 = .ok job.data := by
  have some : 0 < job.data.length := settled.nonempty job (by rw [isAccepted]; simp)
  have handed := settled.handed_eq isAccepted fun member =>
    notLeft job member job.start le_rfl (by omega) ⟨le_rfl, by omega⟩
  obtain ⟨later, isHanded, inBack⟩ := handed
  have bytes : ∀ k < job.data.length,
      ((⟨state.system.blocks.store, state.system.caches⟩ : IdleState).file ino).byte cfg.blockSize
        (job.start + k) = job.data[k]? := by
    intro k inside
    have writes : job.Writes (job.start + k) := ⟨by omega, by omega⟩
    rw [IdleState.file, settled.stored, isHanded, byte_writeSequence cfg.blockSize_pos _ writes,
      Nat.add_sub_cancel_left]
    · intro other listed
      exact behind other (inBack other listed) _ writes
    · intro other listed
      apply settled.nonempty
      rw [settled.accepted, isHanded]
      exact List.mem_append_left _ listed
  obtain ⟨filled, isRead, _⟩ := hbReadData_bytes settled.inOrder settled.present injective 0 job.start
    le_rfl bytes
  rw [isRead]

theorem startOrder_cached {written : FileMap} {system : WriteSystem cfg}
    (order : StartOrder ino involved written system) (client : Nat) {cache : BlocksData}
    (sound : ∀ hash data, cache.lookup hash = some data → Addressed cfg involved hash data) :
    StartOrder ino involved written
      { system with caches := Function.update system.caches client cache } := by
  obtain ⟨current, refines, awaits⟩ := order
  refine ⟨current, ⟨refines.blocks, refines.wellFormed, refines.contents, ?_, refines.calls,
    refines.apart, refines.owners, refines.valid, refines.prepared, refines.succeeded⟩, awaits⟩
  intro other hash data found
  by_cases same : other = client
  · subst same
    simp only [Function.update_self] at found
    exact sound hash data found
  · simp only [Function.update_of_ne same] at found
    exact refines.caches other hash data found

theorem Synced.readDone (injective : Set.InjOn cfg.calculateHash involved)
    (synced : state.Synced ino involved file) (taken : state.Step ino .readDone after)
    (allowed : state.Allowed ino involved file .readDone) : after.Synced ino involved file := by
  change state.finishRead ino = some after at taken
  unfold finishRead at taken
  split at taken
  · next start size reading =>
      obtain ⟨handle, handled, rfl⟩ := Option.map_eq_some_iff.mp taken
      have settled := synced.settled injective reading
      obtain ⟨filled, isRead, sound⟩ := hbReadData_spec settled.inOrder settled.present injective 0
        start size
      have tracked := synced.tracked.step handled
      obtain ⟨n, order⟩ := synced.order
      cases FileHandler.effect_of_step handled with
      | readDone start' size' result isReading =>
          rw [reading, FuseCall.reading.injEq] at isReading
          obtain ⟨rfl, rfl⟩ := isReading
          refine ⟨tracked, ⟨n, order.fuse _ _ _⟩, synced.length, synced.answered, synced.succeeded,
            synced.covers, ?_, ?_⟩
          · apply startOrder_cached synced.written
            rw [isRead]
            exact sound
          · intro front job back result isAccepted returned behind
            obtain ⟨rfl, rfl, rfl⟩ := FuseReply.read.inj (Option.some.inj (FuseCall.returned.inj returned))
            exact settled.reads injective isAccepted behind (allowed job.start job.data.length reading)
  · cases taken

theorem Synced.handle (injective : Set.InjOn cfg.calculateHash involved)
    (synced : state.Synced ino involved file) {event : HandleEvent} {handle : FileHandler}
    (taken : state.handle.Step cfg event handle)
    (notFinish : ∀ k outcome, event ≠ .finish k outcome) (notRead : ∀ result, event ≠ .readDone result)
    (allowed : state.Allowed ino involved file (.fuse event)) :
    Synced ino involved file
      ⟨handle, startCalls ino state.system (handle.calls.drop state.handle.calls.length)⟩ := by
  have tracked := synced.tracked.step taken
  obtain ⟨n, order⟩ := synced.order
  cases FileHandler.effect_of_step taken with
  | wrote start data free =>
      exact synced.fuse rfl tracked ⟨n, order.spawn ⟨data, start⟩ false _ _ _⟩
        (FileHandler.readsOwnWrites_of_not_read (by simp))
  | pushed done size inProgress reply pushing removed =>
      exact synced.fuse rfl tracked ⟨n, order.fuse _ _ _⟩
        (FileHandler.readsOwnWrites_of_not_read (by simp))
  | entered k task present attempting =>
      have nextOrder := order.step taken trivial allowed.1
      have reads := synced.reads.congr (FileHandler.enter_fuse cfg state.handle k task)
        (FileHandler.enter_accepted cfg state.handle present)
      rcases FileHandler.enter_handed cfg state.handle k task with sameCalls | ⟨newCall, takes⟩
      · exact synced.fuse sameCalls tracked nextOrder reads
      · refine synced.hand injective newCall ?_ (allowed.2 task present takes) tracked nextOrder reads
        intro job member
        rcases List.mem_append.mp member with accumulated | own
        · exact order.nonempty job (List.mem_append_right _ accumulated)
        · exact FileHandler.own_nonempty job own
  | finished k call task handed outcome present writing made => exact absurd rfl (notFinish k outcome)
  | flushBegan free =>
      exact synced.fuse rfl tracked ⟨n, order.fuse _ _ _⟩
        (FileHandler.readsOwnWrites_of_not_read (by simp))
  | flushFailed issue waiting all =>
      exact synced.fuse rfl tracked ⟨n, order.fuse _ _ _⟩
        (FileHandler.readsOwnWrites_of_not_read (by simp))
  | flushSpawned waiting all =>
      exact synced.fuse rfl tracked ⟨n, order.spawn ⟨[], 0⟩ true _ _ _⟩
        (FileHandler.readsOwnWrites_of_not_read (by simp))
  | flushed k result flushing isResult =>
      exact synced.fuse rfl tracked ⟨n, order.fuse _ _ _⟩
        (FileHandler.readsOwnWrites_of_not_read (by simp))
  | readBegan start size free =>
      exact synced.fuse rfl tracked ⟨n, order.fuse _ _ _⟩
        (FileHandler.readsOwnWrites_of_not_read (by simp))
  | readReady start size waiting all =>
      exact synced.fuse rfl tracked ⟨n, order.fuse _ _ _⟩
        (FileHandler.readsOwnWrites_of_not_read (by simp))
  | readDone start size result reading => exact absurd rfl (notRead result)

theorem Synced.step (injective : Set.InjOn cfg.calculateHash involved)
    (synced : state.Synced ino involved file) {event : SessionEvent}
    (taken : state.Step ino event after) (allowed : state.Allowed ino involved file event) :
    after.Synced ino involved file := by
  cases event with
  | finish k => exact synced.finish taken
  | readDone => exact synced.readDone injective taken allowed
  | call event =>
      cases event with
      | start client other jobs => cases taken
      | proceed i =>
          obtain ⟨system, moved, rfl⟩ := Option.map_eq_some_iff.mp taken
          exact synced.call injective moved trivial
      | transact k ambient =>
          obtain ⟨system, moved, rfl⟩ := Option.map_eq_some_iff.mp taken
          exact synced.call injective moved trivial
      | evict client hash =>
          obtain rfl := Option.some.inj taken
          have moved : state.system.Step (.evict client hash) _ := rfl
          exact synced.call injective moved trivial
  | fuse event =>
      cases event with
      | finish k outcome => cases taken
      | readDone result => cases taken
      | _ =>
          obtain ⟨handle, handled, rfl⟩ := Option.map_eq_some_iff.mp taken
          exact synced.handle injective handled nofun nofun allowed

end Session

/-- In every run whose steps are allowed, a read of exactly the range of the last write
to it returns what was written. -/
theorem reads_own_writes (cfg : TiFsConfig) (ino : StorageIno) (before : IdleState)
    (inOrder : before.InOrder cfg ino) (involved : Set Bytes) (present : before.blocks ⊆ involved)
    (injective : Set.InjOn cfg.calculateHash involved) (state : HandleSession cfg)
    (run : Run (Step ino) (Allowed ino involved (before.file ino)) (begin cfg before) state) :
    state.handle.ReadsOwnWrites := by
  have synced : state.Synced ino involved (before.file ino) := by
    refine run.invariant (Synced ino involved (before.file ino)) ?_ (synced_begin inOrder present)
    intro earlier event after holds taken allowed
    exact holds.step injective taken allowed
  exact synced.reads

def bytesRead (state : HandleSession cfg) : Option (Nat × Nat × Bytes) :=
  match state.handle.fuse with
  | .returned (some (.read start size (.ok bytes))) => some (start, size, bytes)
  | _ => none

theorem fuse_of_bytesRead {state : HandleSession cfg} {start size : Nat} {bytes : Bytes}
    (isRead : state.bytesRead = some (start, size, bytes)) :
    state.handle.fuse = .returned (some (.read start size (.ok bytes))) := by
  unfold bytesRead at isRead
  split at isRead
  · next isFuse =>
      simp only [Option.some.injEq, Prod.mk.injEq] at isRead
      obtain ⟨rfl, rfl, rfl⟩ := isRead
      exact isFuse
  · cases isRead

def Quiet (state : HandleSession cfg) : SessionEvent → Prop
  | .fuse (.enter _) => False
  | .readDone => state.handle.writeAccumulator = []
  | _ => True

instance (state : HandleSession cfg) : (event : SessionEvent) → Decidable (state.Quiet event)
  | .fuse (.enter _) => isFalse id
  | .fuse (.write _ _) => isTrue trivial
  | .fuse (.pushed _) => isTrue trivial
  | .fuse (.finish _ _) => isTrue trivial
  | .fuse .flush => isTrue trivial
  | .fuse .flushReady => isTrue trivial
  | .fuse .flushed => isTrue trivial
  | .fuse (.read _ _) => isTrue trivial
  | .fuse .readReady => isTrue trivial
  | .fuse (.readDone _) => isTrue trivial
  | .finish _ => isTrue trivial
  | .readDone => inferInstanceAs (Decidable (state.handle.writeAccumulator = []))
  | .call _ => isTrue trivial

theorem Quiet.allowed {ino : StorageIno} {involved : Set Bytes} {file : FileMap}
    {state : HandleSession cfg} {event : SessionEvent} (quiet : state.Quiet event) :
    state.Allowed ino involved file event := by
  cases event with
  | finish k => trivial
  | call event => trivial
  | readDone =>
      intro start size _ job member
      rw [show state.handle.writeAccumulator = [] from quiet] at member
      cases member
  | fuse event =>
      cases event with
      | enter k => exact quiet.elim
      | _ => trivial

theorem exists_run (ino : StorageIno) (allowed : HandleSession cfg → SessionEvent → Prop)
    [∀ state event, Decidable (allowed state event)] (first : HandleSession cfg)
    (events : List SessionEvent) (check : HandleSession cfg → Bool)
    (ran : (runAll (restrict allowed (step ino)) first events).any check = true) :
    ∃ last, Run (Step ino) allowed first last ∧ check last = true :=
  Run.of_restrict (fun _ _ _ taken => taken) events check ran

theorem handedWell_new {blockSize : Nat} (positive : 0 < blockSize) (ino : StorageIno)
    (handle : FileHandler) (noCalls : handle.calls = []) {job : WriteTaskData}
    (nonempty : 0 < job.data.length) :
    HandedWell ino {data | data.length ≤ blockSize} ((newState ino).file ino)
      ⟨handle, WriteSystem.begin (paddingConfig blockSize positive) (newState ino).store
        (newState ino).caches []⟩ [job] := by
  constructor
  · intro front back last pos isList _ _ earlier
    obtain ⟨other, member, _⟩ := earlier
    cases front with
    | nil => cases member
    | cons head rest =>
        have nothing := (List.cons.inj isList).2
        exact absurd nothing.symm (by simp)
  · intro call member
    cases member
  · intro index hash _ isMapped
    cases isMapped
  · intro part listed
    rw [target, noCalls]
    exact newState_written_short positive ino [[job]] (by simpa using nonempty) (Or.inl ⟨part, listed, rfl⟩)

/-- A byte is written, its task hands it over, the call runs and returns, and the byte
is read. -/
theorem reads_own_writes_handed :
    ∃ state : HandleSession (paddingConfig 2 (by decide)),
      Run (Step 10) (Allowed 10 {data | data.length ≤ 2} ((newState 10).file 10))
        (begin (paddingConfig 2 (by decide)) (newState 10)) state ∧
      state.handle.accepted = [⟨[7], 0⟩] ∧
      ∃ result, state.handle.fuse = .returned (some (.read 0 1 result)) ∧ result = .ok [7] := by
  let cfg := paddingConfig 2 (by decide)
  let idle := WriteSystem.begin cfg (newState 10).store (newState 10).caches []
  let wrote : HandleSession cfg := ⟨⟨[], [⟨⟨[7], 0⟩, false, 0, .attempt⟩], [0], [], [], .pushing 1⟩, idle⟩
  let entered : HandleSession cfg :=
    ⟨⟨[], [⟨⟨[7], 0⟩, false, 0, .writing 0⟩], [0], [], [⟨[⟨[7], 0⟩], none⟩], .pushing 1⟩,
      startCalls 10 idle [⟨[⟨[7], 0⟩], none⟩]⟩
  have mayEnter : wrote.Allowed 10 {data | data.length ≤ 2} ((newState 10).file 10) (.fuse (.enter 0)) := by
    refine ⟨fun j below => absurd below (Nat.not_lt_zero j), ?_⟩
    intro task isTask _
    obtain rfl := Option.some.inj isTask
    exact handedWell_new (by decide) 10 _ rfl (by decide)
  obtain ⟨state, quiet, check⟩ := exists_run 10 Quiet entered
    ([.call (.proceed 0), .call (.proceed 0), .call (.proceed 0)] ++
      List.replicate 8 (.call (.transact 0 ⟨0, 0⟩)) ++
      [.call (.proceed 0), .finish 0, .fuse (.pushed 0), .fuse (.read 0 1), .fuse .readReady, .readDone])
    (fun state => (state.bytesRead.map fun read => (read.1, read.2.1)) = some (0, 1) &&
      decide (state.handle.accepted = [⟨[7], 0⟩]))
    (by decide +kernel)
  simp only [Bool.and_eq_true, decide_eq_true_eq] at check
  obtain ⟨⟨start, size, bytes⟩, isRead, isRange⟩ := Option.map_eq_some_iff.mp check.1
  obtain ⟨rfl, rfl⟩ := Prod.mk.inj isRange
  have rest : Run (Step 10) (Allowed 10 {data | data.length ≤ 2} ((newState 10).file 10)) entered state :=
    Run.weaken (fun before event quietly => quietly.allowed) quiet
  have first : Step 10 (begin cfg (newState 10)) (.fuse (.write 0 [7])) wrote := rfl
  have second : Step 10 wrote (.fuse (.enter 0)) entered := rfl
  have run := Relation.ReflTransGen.trans ((Run.single _ first trivial).snoc _ second mayEnter) rest
  refine ⟨state, run, check.2, .ok bytes, fuse_of_bytesRead isRead, ?_⟩
  exact reads_own_writes cfg 10 (newState 10) (newState_inOrder cfg 10) _ (newState_blocks_short 2 10)
    (padding_injOn (by decide)) state run [] ⟨[7], 0⟩ [] _ check.2 (fuse_of_bytesRead isRead) (by simp)

/-- A byte is written and stays in the accumulator, so the read that follows finds
nothing. -/
theorem read_misses_accumulated :
    ¬ ∀ (cfg : TiFsConfig) (ino : StorageIno) (before : IdleState), before.InOrder cfg ino →
      ∀ state : HandleSession cfg, Run (Step ino) (fun _ _ => True) (begin cfg before) state →
      state.handle.ReadsOwnWrites := by
  intro claim
  let cfg : TiFsConfig :=
    { paddingConfig 2 (by decide) with writeInProgressLimit := 1, writeAccumulatorFlushThreshold := 10 }
  obtain ⟨state, run, check⟩ := exists_run 10 (fun _ _ => True) (begin cfg (newState 10))
    [.fuse (.write 0 [7]), .fuse (.enter 0), .fuse (.pushed 0), .fuse (.read 0 1), .fuse .readReady,
      .readDone]
    (fun state => state.bytesRead = some (0, 1, []) && decide (state.handle.accepted = [⟨[7], 0⟩]))
    (by decide +kernel)
  simp only [Bool.and_eq_true, decide_eq_true_eq] at check
  have missed := claim cfg 10 (newState 10) (newState_inOrder cfg 10) state run [] ⟨[7], 0⟩ []
    (.ok []) check.2 (fuse_of_bytesRead check.1) (by simp)
  cases missed

end HandleSession

end TiFs
