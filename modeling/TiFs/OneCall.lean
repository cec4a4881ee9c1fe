import TiFs.UploadPlan

namespace TiFs

open KeyValue Tables

/-- The mapped hashes of an inode have their data, and blocks are stored under their own
hashes. -/
structure Readable (cfg : TiFsConfig) (ino : StorageIno) (store : Store) : Prop where
  stored : ∀ index hash, mapping store ⟨ino, index⟩ = some hash → (blockData store hash).isSome
  addressed : ∀ hash data, blockData store hash = some data → cfg.calculateHash data = hash

namespace Readable

variable {cfg : TiFsConfig} {ino : StorageIno} {store : Store}

theorem mapping_eq (readable : Readable cfg ino store) (index : Nat) :
    mapping store ⟨ino, index⟩ = ((storedFile store ino).content index).map cfg.calculateHash := by
  refine mapping_of_stored ?_ index
  intro index hash found
  obtain ⟨data, stored⟩ := Option.isSome_iff_exists.mp (readable.stored index hash found)
  exact ⟨data, stored, readable.addressed hash data stored⟩

theorem scanned_eq (readable : Readable cfg ino store) (index : Nat) :
    scanned cfg store ino index = ((storedFile store ino).content index).map cfg.calculateHash := by
  rw [scanned, readable.mapping_eq]
  cases (storedFile store ino).content index with
  | none => rfl
  | some data => simp [cfg.hash_length data]

end Readable

theorem Consistent.readable {cfg : TiFsConfig} {ino : StorageIno} {store : Store}
    (consistent : Consistent cfg ino store) : Readable cfg ino store where
  stored := by
    intro index hash found
    obtain ⟨data, stored, _⟩ := consistent.stored found
    exact Option.isSome_iff_exists.mpr ⟨data, stored⟩
  addressed := consistent.addressed

/-- The counters are exact, every mapped hash has its data, and blocks are stored
under their own hashes. -/
structure Accounted (cfg : TiFsConfig) (store : Store) : Prop where
  exact : ∀ hash, counter store hash = mapped store hash
  stored : ∀ addr hash, mapping store addr = some hash → (blockData store hash).isSome
  addressed : ∀ hash data, blockData store hash = some data → cfg.calculateHash data = hash

namespace Accounted

variable {cfg : TiFsConfig} {store : Store}

theorem readable (accounted : Accounted cfg store) (ino : StorageIno) : Readable cfg ino store where
  stored := fun index => accounted.stored ⟨ino, index⟩
  addressed := accounted.addressed

theorem counted (accounted : Accounted cfg store) (hash : TiFsHash) (positive : 0 < counter store hash) :
    (blockData store hash).isSome := by
  rw [accounted.exact hash, mapped, Finset.card_pos] at positive
  obtain ⟨addr, listed⟩ := positive
  exact accounted.stored addr hash ((mem_mappedTo store hash addr).mp listed)

end Accounted

def WriteUnfailing (cfg : TiFsConfig) (client : Nat) (ino : StorageIno) (jobs : List WriteTaskData)
    (before after : IdleState) : Prop :=
  ∃ last : WriteSystem cfg,
    Run WriteSystem.Step NoStart
      (WriteSystem.begin cfg before.store before.caches [WriteCall.start cfg client ino jobs]) last ∧
    (∀ call ∈ last.calls, call.phase.succeeded) ∧
    (∀ op ∈ last.blocks.ops, op.outcome = some (.ok ())) ∧ after = ⟨last.blocks.store, last.caches⟩

theorem exists_unfailing (cfg : TiFsConfig) (client : Nat) (ino : StorageIno) (jobs : List WriteTaskData)
    (before : IdleState) (events : List WriteEvent)
    (ran : (runAll (restrict NoStart WriteSystem.step)
      (WriteSystem.begin cfg before.store before.caches [WriteCall.start cfg client ino jobs]) events).any
        (fun last => (∀ call ∈ last.calls, call.phase.succeeded) ∧
          ∀ op ∈ last.blocks.ops, op.outcome = some (.ok ())) = true) :
    ∃ after, WriteUnfailing cfg client ino jobs before after := by
  obtain ⟨last, run, check⟩ := WriteSystem.exists_run _ events _ ran
  obtain ⟨succeeded, done⟩ := of_decide_eq_true check
  exact ⟨_, last, run, succeeded, done, rfl⟩

/-- The blocks that there are before a call, and those that it writes. -/
def IdleState.involvedBlocks (cfg : TiFsConfig) (ino : StorageIno) (jobs : List WriteTaskData)
    (before : IdleState) : Set Bytes :=
  before.blocks ∪ {data | ∃ part ∈ writeParts cfg.blockSize jobs,
    data = (before.file ino).rewritten cfg.blockSize part}

def CachesInvolved (cfg : TiFsConfig) (ino : StorageIno) (jobs : List WriteTaskData) (before : IdleState)
    (caches : Nat → BlocksData) : Prop :=
  ∀ client hash data, (caches client).lookup hash = some data →
    Addressed cfg (before.involvedBlocks cfg ino jobs) hash data

structure ReadsAlone (cfg : TiFsConfig) (ino : StorageIno) (jobs : List WriteTaskData)
    (before : IdleState) (phase : CallPhase) (state : WriteSystem cfg) : Prop where
  blocks : state.blocks = ⟨before.store, []⟩
  caches : CachesInvolved cfg ino jobs before state.caches
  reads : ∀ part ∈ writeParts cfg.blockSize jobs, phase.ReadsTo cfg (before.file ino) part.index

def Underway (cfg : TiFsConfig) (client : Nat) (ino : StorageIno) (jobs : List WriteTaskData)
    (before : IdleState) (tasks : BlockSystem cfg → Prop) (state : WriteSystem cfg) : Prop :=
  ∃ phase, state.calls = [⟨client, ino, jobs, phase⟩] ∧
    if phase.isReading then ReadsAlone cfg ino jobs before phase state
    else CachesInvolved cfg ino jobs before state.caches ∧ tasks state.blocks

section OneCall

variable {cfg : TiFsConfig} {client : Nat} {ino : StorageIno} {jobs : List WriteTaskData}
  {before : IdleState} {tasks : BlockSystem cfg → Prop} {state after : WriteSystem cfg}

theorem Readable.addressed_involved (readable : Readable cfg ino before.store) (jobs : List WriteTaskData)
    {hash : TiFsHash} {data : Bytes} (found : blockData before.store hash = some data) :
    Addressed cfg (before.involvedBlocks cfg ino jobs) hash data :=
  ⟨Or.inl (Or.inl ⟨hash, found⟩), readable.addressed hash data found⟩

theorem distinguished_of_injOn (injective : Set.InjOn cfg.calculateHash (before.involvedBlocks cfg ino jobs)) :
    Distinguished cfg jobs (before.file ino) (before.involvedBlocks cfg ino jobs) where
  injective := injective
  old := by
    intro index data isContent
    obtain ⟨hash, _, found⟩ := content_stored isContent
    exact Or.inl (Or.inl ⟨hash, found⟩)
  new := fun part listed => Or.inr ⟨part, listed, rfl⟩

theorem CachesInvolved.evict {caches : Nat → BlocksData} (involved : CachesInvolved cfg ino jobs before caches)
    (other : Nat) (hash : TiFsHash) :
    CachesInvolved cfg ino jobs before (Function.update caches other ((caches other).erase hash)) :=
  fun third key data found => involved third key data (lookup_of_evicted found)

theorem readsAlone_begin (cached : SoundCaches cfg before.caches) :
    ReadsAlone cfg ino jobs before (WriteCall.start cfg client ino jobs).phase
      (WriteSystem.begin cfg before.store before.caches [WriteCall.start cfg client ino jobs]) := by
  refine ⟨rfl, ?_, ?_⟩
  · intro other hash data found
    exact ⟨Or.inl (Or.inr ⟨other, hash, found⟩), cached other hash data found⟩
  · -- A part lies in the range of its job, which is still to be read.
    intro part listed
    left
    refine ⟨rfl, ?_⟩
    rw [cfg.mem_rangeCollection]
    obtain ⟨job, member, nonempty, found⟩ := job_of_part cfg.blockSize_pos listed
    have inside := mem_getRange cfg.blockSize_pos nonempty found
    exact ⟨_, List.mem_map_of_mem (List.mem_map_of_mem member), inside⟩

theorem underway_begin (cached : SoundCaches cfg before.caches) :
    Underway cfg client ino jobs before tasks
      (WriteSystem.begin cfg before.store before.caches [WriteCall.start cfg client ino jobs]) :=
  ⟨_, rfl, readsAlone_begin cached⟩

theorem newBlock_involved {file : FileMap} {involved : Set Bytes} {hashListPrev : BlockHashes}
    {preData : BlocksData} (read : PreRead cfg jobs file hashListPrev preData)
    (distinguished : Distinguished cfg jobs file involved) {hash : TiFsHash} {data : Bytes}
    (isNew : (makeNewBlocks cfg jobs hashListPrev preData).newBlocks.lookup hash = some data) :
    Addressed cfg involved hash data := by
  obtain ⟨isHash, listed⟩ := (published_makeNewBlocks cfg jobs hashListPrev preData).addressed hash data isNew
  obtain ⟨content, inContents, rfl⟩ := List.mem_map.mp listed
  obtain ⟨part, isPart, rfl⟩ := List.mem_map.mp inContents
  refine ⟨?_, isHash⟩
  simp only [partContent_eq_rewritten read isPart]
  exact distinguished.new part isPart

theorem calls_setPhase {phase : CallPhase} (isCalls : state.calls = [⟨client, ino, jobs, phase⟩]) (next : CallPhase) :
    (state.setPhase 0 ⟨client, ino, jobs, phase⟩ next).calls = [⟨client, ino, jobs, next⟩] := by
  rw [WriteSystem.setPhase, isCalls]
  rfl

namespace ReadsAlone

variable {phase : CallPhase} (reads : ReadsAlone cfg ino jobs before phase state)

include reads

theorem evict (other : Nat) (hash : TiFsHash) :
    ReadsAlone cfg ino jobs before phase { state with
      caches := Function.update state.caches other ((state.caches other).erase hash) } :=
  ⟨reads.blocks, reads.caches.evict other hash, reads.reads⟩

theorem store_eq : state.blocks.store = before.store := by
  rw [reads.blocks]

theorem setPhase (i : Nat) (call : WriteCall) {next : CallPhase}
    (known : ∀ part ∈ writeParts cfg.blockSize jobs, next.ReadsTo cfg (before.file ino) part.index) :
    ReadsAlone cfg ino jobs before next (state.setPhase i call next) :=
  ⟨reads.blocks, reads.caches, known⟩

theorem readRange (readable : Readable cfg ino before.store) (client : Nat) {range : Nat × Nat}
    {rest : List (Nat × Nat)} {hashListPrev : BlockHashes} (current : phase = .readHashes (range :: rest) hashListPrev) :
    ∃ found, state.proceed 0 ⟨client, ino, jobs, phase⟩ =
        some (state.setPhase 0 ⟨client, ino, jobs, phase⟩ (.readHashes rest found)) ∧
      ReadsAlone cfg ino jobs before (.readHashes rest found)
        (state.setPhase 0 ⟨client, ino, jobs, phase⟩ (.readHashes rest found)) := by
  subst current
  obtain ⟨found, ran, inFound⟩ := readRange_spec cfg state.blocks.store ino range
  refine ⟨extend hashListPrev (found.entries.map fun entry => (entry.1, entry.2)), ?_, reads.setPhase 0 _ ?_⟩
  · simp only [WriteSystem.proceed, ran]
  · intro part listed
    apply (reads.reads part listed).next
    rw [inFound, reads.store_eq, readable.scanned_eq]
    rfl

theorem allRead (client : Nat) {hashListPrev : BlockHashes} (current : phase = .readHashes [] hashListPrev) :
    state.proceed 0 ⟨client, ino, jobs, phase⟩ =
        some (state.setPhase 0 ⟨client, ino, jobs, phase⟩ (.readPreData hashListPrev)) ∧
      ReadsAlone cfg ino jobs before (.readPreData hashListPrev)
        (state.setPhase 0 ⟨client, ino, jobs, phase⟩ (.readPreData hashListPrev)) := by
  subst current
  refine ⟨rfl, reads.setPhase 0 _ ?_⟩
  intro part listed
  rcases reads.reads part listed with ⟨_, range, none, _⟩ | known
  · cases none
  · exact known

theorem spawn (readable : Readable cfg ino before.store)
    (injective : Set.InjOn cfg.calculateHash (before.involvedBlocks cfg ino jobs)) (client : Nat)
    {hashListPrev : BlockHashes} (current : phase = .readPreData hashListPrev) :
    ∃ preData filled : BlocksData,
      state.proceed 0 ⟨client, ino, jobs, phase⟩ =
        some (state.spawnTasks 0 ⟨client, ino, jobs, phase⟩ hashListPrev preData filled) ∧
      PreRead cfg jobs (before.file ino) hashListPrev preData ∧
      CachesInvolved cfg ino jobs before
        (state.spawnTasks 0 ⟨client, ino, jobs, phase⟩ hashListPrev preData filled).caches := by
  subst current
  have distinguished := distinguished_of_injOn injective
  have stored : ∀ part ∈ writeParts cfg.blockSize jobs, ∀ data,
      (before.file ino).content part.index = some data →
      (blockData state.blocks.store (cfg.calculateHash data)).isSome := by
    intro part _ data isContent
    rw [reads.store_eq]
    apply readable.stored part.index
    rw [readable.mapping_eq, ← IdleState.file, isContent]
    rfl
  obtain ⟨preData, filled, ran, read, sound⟩ := exists_preRead distinguished.injective
    (fun hash data found => readable.addressed_involved jobs (reads.store_eq ▸ found))
    (reads.caches client) distinguished.old reads.reads stored
  refine ⟨preData, filled, by simp only [WriteSystem.proceed, ran], read, ?_⟩
  intro other hash data found
  simp only [WriteSystem.spawnTasks] at found
  by_cases own : other = client
  · subst own
    rw [Function.update_self, lookup_extend_entries] at found
    cases isNew : (makeNewBlocks cfg jobs hashListPrev preData).newBlocks.lookup hash with
    | none =>
        rw [isNew, Option.none_or] at found
        exact sound hash data found
    | some new =>
        rw [isNew, Option.some_or] at found
        obtain rfl := Option.some.inj found
        exact newBlock_involved read distinguished isNew
  · rw [Function.update_of_ne own] at found
    exact reads.caches other hash data found

theorem spawnTasks_blocks (client : Nat) (hashListPrev : BlockHashes) (preData filled : BlocksData) :
    (state.spawnTasks 0 ⟨client, ino, jobs, phase⟩ hashListPrev preData filled).blocks =
      ⟨before.store, (writeTasks cfg ino (writePlan cfg jobs hashListPrev preData)).map .write⟩ := by
  simp only [WriteSystem.spawnTasks, reads.blocks, List.nil_append]

theorem proceed (readable : Readable cfg ino before.store)
    (injective : Set.InjOn cfg.calculateHash (before.involvedBlocks cfg ino jobs))
    (spawned : ∀ hashListPrev preData, PreRead cfg jobs (before.file ino) hashListPrev preData →
      tasks ⟨before.store, (writeTasks cfg ino (writePlan cfg jobs hashListPrev preData)).map .write⟩)
    (isCalls : state.calls = [⟨client, ino, jobs, phase⟩]) (reading : phase.isReading)
    (proceeded : state.proceed 0 ⟨client, ino, jobs, phase⟩ = some after) :
    Underway cfg client ino jobs before tasks after := by
  cases current : phase with
  | readHashes remaining hashListPrev =>
      cases remaining with
      | nil =>
          obtain ⟨isAfter, next⟩ := reads.allRead client current
          obtain rfl := Option.some.inj (proceeded.symm.trans isAfter)
          exact ⟨_, calls_setPhase isCalls _, next⟩
      | cons range rest =>
          obtain ⟨found, isAfter, next⟩ := reads.readRange readable client current
          obtain rfl := Option.some.inj (proceeded.symm.trans isAfter)
          exact ⟨_, calls_setPhase isCalls _, next⟩
  | readPreData hashListPrev =>
      obtain ⟨preData, filled, isAfter, read, caches⟩ := reads.spawn readable injective client current
      obtain rfl := Option.some.inj (proceeded.symm.trans isAfter)
      refine ⟨.writing _ _, by simp only [WriteSystem.spawnTasks, isCalls]; rfl, caches, ?_⟩
      rw [reads.spawnTasks_blocks]
      exact spawned hashListPrev preData read
  | writing ops wasModified => rw [current] at reading; cases reading
  | returned result => rw [current] at reading; cases reading

end ReadsAlone

/-- What the tasks start with and keep holds as long as the call is not reading. -/
theorem Underway.step (readable : Readable cfg ino before.store)
    (injective : Set.InjOn cfg.calculateHash (before.involvedBlocks cfg ino jobs))
    (spawned : ∀ hashListPrev preData, PreRead cfg jobs (before.file ino) hashListPrev preData →
      tasks ⟨before.store, (writeTasks cfg ino (writePlan cfg jobs hashListPrev preData)).map .write⟩)
    (advanced : ∀ blocks k ambient next, tasks blocks → blocks.Step (.advance k ambient) next → tasks next)
    (underway : Underway cfg client ino jobs before tasks state) {event : WriteEvent}
    (taken : state.Step event after) (noStart : NoStart state event) :
    Underway cfg client ino jobs before tasks after := by
  obtain ⟨phase, isCalls, holds⟩ := underway
  unfold WriteSystem.Step WriteSystem.step at taken
  cases event with
  | start other otherIno otherJobs => exact absurd noStart id
  | evict other hash =>
      obtain rfl := Option.some.inj taken
      refine ⟨phase, isCalls, ?_⟩
      by_cases reading : phase.isReading
      · rw [if_pos reading] at holds ⊢
        exact holds.evict other hash
      · rw [if_neg reading] at holds ⊢
        exact ⟨holds.1.evict other hash, holds.2⟩
  | transact k ambient =>
      simp only [Option.map_eq_some_iff] at taken
      obtain ⟨blocks, moved, rfl⟩ := taken
      refine ⟨phase, isCalls, ?_⟩
      by_cases reading : phase.isReading
      · rw [if_pos reading] at holds
        rw [holds.blocks] at moved
        cases moved
      · rw [if_neg reading] at holds ⊢
        exact ⟨holds.1, advanced _ k ambient blocks holds.2 moved⟩
  | proceed i =>
      obtain ⟨call, present, proceeded⟩ := Option.bind_eq_some_iff.mp taken
      rw [isCalls, List.getElem?_singleton] at present
      split at present
      · next first =>
          obtain rfl := Option.some.inj present
          subst first
          by_cases reading : phase.isReading
          · rw [if_pos reading] at holds
            exact holds.proceed readable injective spawned isCalls reading proceeded
          · rw [if_neg reading] at holds
            cases phase with
            | readHashes remaining hashListPrev => exact absurd rfl reading
            | readPreData hashListPrev => exact absurd rfl reading
            | returned result => cases proceeded
            | writing ops wasModified =>
                -- The call can only return.
                simp only [WriteSystem.proceed] at proceeded
                split at proceeded
                · obtain rfl := Option.some.inj proceeded
                  refine ⟨.returned _, calls_setPhase isCalls _, ?_⟩
                  simp only [CallPhase.isReading, Bool.false_eq_true, if_false]
                  exact holds
                · cases proceeded
      · cases present

theorem Underway.returned (underway : Underway cfg client ino jobs before tasks state)
    (succeeded : ∀ call ∈ state.calls, call.phase.succeeded) :
    CachesInvolved cfg ino jobs before state.caches ∧ tasks state.blocks := by
  obtain ⟨phase, isCalls, holds⟩ := underway
  have returned := succeeded ⟨client, ino, jobs, phase⟩ (by rw [isCalls]; exact List.mem_singleton_self _)
  have isOver : ¬ phase.isReading := by
    cases phase <;> simp_all [CallPhase.succeeded, CallPhase.isReading]
  rwa [if_neg isOver] at holds

/-- A call without failures leaves behind what its tasks have brought about. -/
theorem WriteUnfailing.tasks_done (tasks : BlockSystem cfg → Prop) (readable : Readable cfg ino before.store)
    (cached : SoundCaches cfg before.caches)
    (injective : Set.InjOn cfg.calculateHash (before.involvedBlocks cfg ino jobs))
    (spawned : ∀ hashListPrev preData, PreRead cfg jobs (before.file ino) hashListPrev preData →
      tasks ⟨before.store, (writeTasks cfg ino (writePlan cfg jobs hashListPrev preData)).map .write⟩)
    (advanced : ∀ blocks k ambient next, tasks blocks → blocks.Step (.advance k ambient) next → tasks next)
    {last : IdleState} (ran : WriteUnfailing cfg client ino jobs before last) :
    ∃ blocks, tasks blocks ∧ blocks.store = last.store ∧ ∀ op ∈ blocks.ops, op.outcome = some (.ok ()) := by
  obtain ⟨state, run, succeeded, done, rfl⟩ := ran
  have underway : Underway cfg client ino jobs before tasks state := by
    refine Run.invariant (Underway cfg client ino jobs before tasks) ?_ (underway_begin cached) run
    intro between event next underway taken noStart
    exact underway.step readable injective spawned advanced taken noStart
  exact ⟨state.blocks, (underway.returned succeeded).2, rfl, done⟩

end OneCall

end TiFs
