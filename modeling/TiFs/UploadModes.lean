import TiFs.OneCall
import TiFs.RacingRead

/-! The two upload modes of `hb_write_data`: one task that writes all groups, or one
task for each group, all of them interleaved. What either leaves behind is determined
by the store as it was before and by the jobs. -/

namespace TiFs

open KeyValue Tables

def TiFsConfig.uploading (cfg : TiFsConfig) (chunkedBlockUpload : Bool) : TiFsConfig :=
  { cfg with chunkedBlockUpload := chunkedBlockUpload }

def FileMap.Uses (calculateHash : Bytes → TiFsHash) (file : FileMap) (hash : TiFsHash) : Prop :=
  ∃ index, (file.content index).map calculateHash = some hash

section Unwritten

variable {cfg : TiFsConfig} {task : WriteTask cfg} {store after : Store} {phase : WritePhase}
  {hash : TiFsHash}

theorem BlockMove.unwritten (move : BlockMove task store phase after) (sound : task.Sound)
    (absent : ∀ group ∈ task.plan.groups, group.hash ≠ hash) :
    (counter after hash = counter store hash ∧ blockData after hash = blockData store hash ∧
      (hash ∈ phase.decrements → hash ∈ task.phase.decrements ∨ 0 < mapped store hash)) ∨
    (phase = .done ∧ ∃ decrements, task.phase = .decrement decrements ∧ Decremented decrements store after) := by
  cases move with
  | incremented prev after current counted =>
      left
      have none : amount task.plan.increments hash = 0 := by
        by_contra some
        obtain ⟨group, member, same⟩ := task.plan.mem_of_amount_pos (Nat.pos_of_ne_zero some)
        exact absent group member same
      refine ⟨by rw [counted.counted, none, Nat.add_zero], counted.frame (.hashedBlock hash) (by simp), ?_⟩
      exact fun listed => absurd listed (AList.notMem_empty hash)
  | uploaded blocks after current stored =>
      left
      have notUploaded : hash ∉ blocks.map Prod.fst := by
        intro listed
        obtain ⟨block, member, rfl⟩ := List.mem_map.mp listed
        have uploads : block ∈ (Op.write task).uploads := by
          rw [Op.uploads, current]
          exact member
        obtain ⟨group, inPlan, rfl⟩ := uploads_of_plan sound uploads
        exact absent group inPlan rfl
      refine ⟨counter_congr (fun other => stored.frame (.countedNamedUsages other) (by simp)) hash,
        stored.kept hash notUploaded, ?_⟩
      exact fun listed => absurd listed (AList.notMem_empty hash)
  | replaced decrements after current placed lengths =>
      left
      refine ⟨counter_congr (fun other => placed.frame (.countedNamedUsages other) (by simp)) hash,
        placed.frame (.hashedBlock hash) (by simp), ?_⟩
      intro listed
      right
      rw [WritePhase.decrements, placed.tallied, mem_tally] at listed
      obtain ⟨address, _, found⟩ := List.mem_filterMap.mp listed
      exact mapped_pos_of_mapping found
  | decremented decrements after current counted => exact Or.inr ⟨rfl, decrements, current, counted⟩
  | quiet phase after frame earlier later owed =>
      left
      refine ⟨counter_congr (fun other => frame (.countedNamedUsages other) (by simp)) hash,
        frame (.hashedBlock hash) (by simp), ?_⟩
      rw [owed]
      exact Or.inl

end Unwritten

/-- What becomes of a hash that no task writes: it stays as it was if it is not
counted, and otherwise its block goes with its counter. -/
structure LeftAlone {cfg : TiFsConfig} (before : Store) (state : BlockSystem cfg) (hash : TiFsHash) : Prop where
  uncounted : counter before hash = 0 → counter state.store hash = 0 ∧
    ∀ task, .write task ∈ state.ops → hash ∉ task.phase.decrements
  block : counter state.store hash = 0 →
    blockData state.store hash = if counter before hash = 0 then blockData before hash else none

structure Rewriting {cfg : TiFsConfig} (ino : StorageIno) (involved : Set Bytes) (before : Store)
    (target : FileMap) (state : BlockSystem cfg) : Prop where
  refines : BlocksRefine ino involved target state
  exact : state.Exact
  used : ∀ task, .write task ∈ state.ops → ∀ group ∈ task.plan.groups,
    target.Uses cfg.calculateHash group.hash
  others : ∀ addr : BlockAddress, addr.ino ≠ ino → mapping state.store addr = mapping before addr
  unused : ∀ hash, ¬ target.Uses cfg.calculateHash hash → LeftAlone before state hash

/-- What a call leaves behind, as what there was before and the file it writes determine it. -/
structure Rewritten (calculateHash : Bytes → TiFsHash) (ino : StorageIno) (involved : Set Bytes)
    (before : Store) (target : FileMap) (after : Store) : Prop where
  own : ∀ index : Nat, mapping after ⟨ino, index⟩ = (target.content index).map calculateHash
  others : ∀ addr : BlockAddress, addr.ino ≠ ino → mapping after addr = mapping before addr
  counters : ∀ hash, counter after hash = mapped after hash
  counted : ∀ hash, 0 < counter after hash →
    ∃ data ∈ involved, blockData after hash = some data ∧ calculateHash data = hash
  uncounted : ∀ hash, counter after hash = 0 →
    blockData after hash = if counter before hash = 0 then blockData before hash else none
  size : (inoSize after ino).map InoSize.size = some target.size

structure SameContents (ino : StorageIno) (left right : Store) : Prop where
  mappings : ∀ addr, mapping left addr = mapping right addr
  counters : ∀ hash, counter left hash = counter right hash
  blocks : ∀ hash, blockData left hash = blockData right hash
  size : (inoSize left ino).map InoSize.size = (inoSize right ino).map InoSize.size

theorem Rewritten.same {calculateHash : Bytes → TiFsHash} {ino : StorageIno} {involved : Set Bytes}
    {before left right : Store} {target : FileMap} (injective : Set.InjOn calculateHash involved)
    (first : Rewritten calculateHash ino involved before target left)
    (second : Rewritten calculateHash ino involved before target right) : SameContents ino left right := by
  have mappings : ∀ addr, mapping left addr = mapping right addr := by
    rintro ⟨other, index⟩
    by_cases own : other = ino
    · rw [own, first.own, second.own]
    · rw [first.others _ own, second.others _ own]
  have counters : ∀ hash, counter left hash = counter right hash := by
    intro hash
    rw [first.counters, second.counters, mapped_congr mappings]
  refine ⟨mappings, counters, ?_, by rw [first.size, second.size]⟩
  intro hash
  by_cases zero : counter left hash = 0
  · rw [first.uncounted hash zero, second.uncounted hash (by rw [← counters, zero])]
  · have positive := Nat.pos_of_ne_zero zero
    obtain ⟨data, inInvolved, stored, isHash⟩ := first.counted hash positive
    obtain ⟨other, otherInvolved, otherStored, otherHash⟩ := second.counted hash (counters hash ▸ positive)
    rw [stored, otherStored, injective inInvolved otherInvolved (isHash.trans otherHash.symm)]

section Tasks

variable {cfg : TiFsConfig} {ino : StorageIno} {involved : Set Bytes} {before : Store} {target : FileMap}
  {state after : BlockSystem cfg} {i : Nat} {ambient : Ambient}

theorem BlocksRefine.lossless (refines : BlocksRefine ino involved target state) (i : Nat) (ambient : Ambient) :
    state.Lossless (.advance i ambient) := by
  intro op present
  have member := List.mem_of_getElem? present
  obtain ⟨task, rfl, _⟩ := refines.tasks op member
  obtain ⟨result, ran⟩ := refines.step_ok ambient member
  exact ⟨id, _, by rw [Op.step, ran]; rfl⟩

section LeftAlone

variable {task : WriteTask cfg} {phase : WritePhase} {store : Store} {hash : TiFsHash}
  (left : LeftAlone before state hash) (member : .write task ∈ state.ops)

include left member

theorem LeftAlone.kept (covered : state.Covered) (sameCounter : counter store hash = counter state.store hash)
    (sameBlock : blockData store hash = blockData state.store hash)
    (lowers : hash ∈ phase.decrements → hash ∈ task.phase.decrements ∨ 0 < mapped state.store hash) :
    LeftAlone before (⟨store, state.ops.set i (.write { task with phase := phase })⟩ : BlockSystem cfg) hash := by
  constructor
  · intro zero
    obtain ⟨stillZero, unlisted⟩ := left.uncounted zero
    refine ⟨sameCounter.trans stillZero, ?_⟩
    intro other isOther
    rcases List.mem_or_eq_of_mem_set isOther with old | same
    · exact unlisted other old
    · obtain rfl := Op.write.inj same
      intro listed
      rcases lowers listed with earlier | isMapped
      · exact unlisted task member earlier
      · have enough := covered.counters hash
        omega
  · intro zero
    simp only [sameBlock]
    exact left.block (sameCounter ▸ zero)

theorem LeftAlone.lowered {decrements : RefCounts} (current : task.phase = .decrement decrements)
    (counted : Decremented decrements state.store store) :
    LeftAlone before (⟨store, state.ops.set i (.write { task with phase := .done })⟩ : BlockSystem cfg) hash := by
  constructor
  · intro zero
    obtain ⟨stillZero, unlisted⟩ := left.uncounted zero
    refine ⟨by simp only [counted.counted hash, stillZero, Nat.zero_sub], ?_⟩
    intro other isOther
    rcases List.mem_or_eq_of_mem_set isOther with old | same
    · exact unlisted other old
    · obtain rfl := Op.write.inj same
      exact AList.notMem_empty hash
  · intro zero
    simp only [counted.counted hash] at zero ⊢
    by_cases listed : hash ∈ decrements
    · -- What was not counted before the call is counted down by no task.
      have wasCounted : counter before hash ≠ 0 := by
        intro uncounted
        have unlisted := (left.uncounted uncounted).2 task member
        rw [current] at unlisted
        exact unlisted listed
      rw [counted.gone hash listed (by omega), if_neg wasCounted]
    · rw [AList.lookup_eq_none.mpr listed] at zero
      rw [counted.kept hash (Or.inl listed)]
      exact left.block zero

end LeftAlone

theorem LeftAlone.advance (refines : BlocksRefine ino involved target state) {hash : TiFsHash}
    (absent : ∀ task, .write task ∈ state.ops → ∀ group ∈ task.plan.groups, group.hash ≠ hash)
    (left : LeftAlone before state hash) (taken : state.Step (.advance i ambient) after) :
    LeftAlone before after hash := by
  obtain ⟨task, phase, store, present, move, isAfter⟩ := refines.move_of_step taken
  have member := List.mem_of_getElem? present
  rcases move.blockMove.unwritten (refines.covered.sound _ member) (absent task member) with
    ⟨sameCounter, sameBlock, lowers⟩ | ⟨rfl, decrements, current, counted⟩
  · rw [isAfter]
    exact left.kept member refines.covered sameCounter sameBlock lowers
  · rw [isAfter]
    exact left.lowered member current counted

theorem Rewriting.advance (rewriting : Rewriting ino involved before target state)
    (taken : state.Step (.advance i ambient) after) : Rewriting ino involved before target after := by
  have refines := rewriting.refines
  have unused : ∀ hash, ¬ target.Uses cfg.calculateHash hash → LeftAlone before after hash := by
    intro hash notUsed
    refine LeftAlone.advance refines ?_ (rewriting.unused hash notUsed) taken
    rintro task member group inPlan rfl
    exact notUsed (rewriting.used task member group inPlan)
  have exact := BlockSystem.exact_step refines.covered rewriting.exact taken (refines.lossless i ambient)
  have advanced := refines.advance taken
  obtain ⟨task, phase, store, present, move, rfl⟩ := refines.move_of_step taken
  have member := List.mem_of_getElem? present
  refine ⟨advanced, exact, ?_, ?_, unused⟩
  · intro other isOther
    rcases List.mem_or_eq_of_mem_set isOther with old | same
    · exact rewriting.used other old
    · obtain rfl := Op.write.inj same
      exact rewriting.used task member
  · intro addr different
    rw [← rewriting.others addr different]
    rcases move.pending_cases with ⟨_, kept⟩ | ⟨_, _, kept⟩
    · exact kept addr
    · apply kept
      intro listed
      obtain ⟨write, isPending, rfl⟩ := List.mem_map.mp listed
      obtain ⟨group, _, id, _, rfl⟩ := mem_pendingWrites isPending
      obtain ⟨_, same, isIno, _⟩ := refines.tasks _ member
      obtain rfl := Op.write.inj same
      exact different isIno

theorem Rewriting.settled (rewriting : Rewriting ino involved before target state)
    (done : ∀ op ∈ state.ops, op.outcome = some (.ok ())) :
    Rewritten cfg.calculateHash ino involved before target state.store := by
  have refines := rewriting.refines
  have idle : ∀ task, .write task ∈ state.ops → task.phase = .done ∧ (Op.write task).pendingWrites = [] ∧
      (Op.write task).uploads = [] :=
    fun task member => idle_of_ended (by rw [done _ member]; rfl)
  have own : ∀ index : Nat, mapping state.store ⟨ino, index⟩ = (target.content index).map cfg.calculateHash := by
    intro index
    apply refines.mapped
    intro op member
    obtain ⟨task, rfl, _⟩ := refines.tasks op member
    rw [(idle task member).2.1]
    exact List.not_mem_nil
  have counters : ∀ hash, counter state.store hash = mapped state.store hash := by
    intro hash
    have nothing : (state.ops.map fun op => op.owed hash).sum = 0 := by
      rw [List.sum_eq_zero_iff]
      intro value listed
      obtain ⟨op, member, rfl⟩ := List.mem_map.mp listed
      obtain ⟨task, rfl, _⟩ := refines.tasks op member
      simp [Op.owed, Op.owedIncrements, Op.owedDecrements, WriteTask.owedIncrements,
        WriteTask.owedDecrements, WritePhase.decrements, (idle task member).1]
    have exact := rewriting.exact hash
    omega
  refine ⟨own, rewriting.others, counters, ?_, ?_, ?_⟩
  · intro hash positive
    have stored : (blockData state.store hash).isSome := by
      refine refines.stored_of_counted ?_ positive
      intro op member
      obtain ⟨task, rfl, _⟩ := refines.tasks op member
      exact (idle task member).2.2
    obtain ⟨data, found⟩ := Option.isSome_iff_exists.mp stored
    obtain ⟨inInvolved, isHash⟩ := refines.addressed hash data found
    exact ⟨data, inInvolved, found, isHash⟩
  · intro hash zero
    refine (rewriting.unused hash ?_).block zero
    rintro ⟨index, isHash⟩
    have positive := mapped_pos_of_mapping ((own index).trans isHash)
    have exact := counters hash
    omega
  · obtain ⟨size, stored, _, reached⟩ := refines.size
    rw [stored, Option.map_some]
    rcases reached with equal | ⟨task, member, pending, _⟩
    · rw [equal]
    · rw [(idle task member).1] at pending
      cases pending

end Tasks

section Spawn

variable {cfg : TiFsConfig} {ino : StorageIno} {jobs : List WriteTaskData} {before : IdleState}

theorem blocksRefine_idle (accounted : Accounted cfg before.store) {size : InoSize}
    (sized : inoSize before.store ino = some size) :
    BlocksRefine ino (before.involvedBlocks cfg ino jobs) (before.file ino)
      (⟨before.store, []⟩ : BlockSystem cfg) := by
  constructor
  · exact ⟨fun op member => absurd member List.not_mem_nil, fun hash => (accounted.exact hash).ge⟩
  · exact fun op member => absurd member List.not_mem_nil
  · exact fun hash data found => (accounted.readable ino).addressed_involved jobs found
  · exact fun hash positive => Or.inl (accounted.counted hash positive)
  · exact fun op member => absurd member List.not_mem_nil
  · exact fun index _ => (accounted.readable ino).mapping_eq index
  · have isSize : (before.file ino).size = size.size := by simp [IdleState.file, storedFile, sized]
    exact ⟨size, sized, isSize.ge, Or.inl isSize.symm⟩
  · exact fun task member => absurd member List.not_mem_nil

theorem rewriting_start (accounted : Accounted cfg before.store)
    (injective : Set.InjOn cfg.calculateHash (before.involvedBlocks cfg ino jobs)) {size : InoSize}
    (sized : inoSize before.store ino = some size) {hashListPrev : BlockHashes} {preData : BlocksData}
    (read : PreRead cfg jobs (before.file ino) hashListPrev preData) :
    Rewriting ino (before.involvedBlocks cfg ino jobs) before.store
      ((before.file ino).rewrite cfg.blockSize jobs)
      ⟨before.store, (writeTasks cfg ino (writePlan cfg jobs hashListPrev preData)).map .write⟩ := by
  have distinguished := distinguished_of_injOn injective
  have planned := rewrite_planned read distinguished
  have tasksOf := tasksOf_writeTasks ino (writePlan cfg jobs hashListPrev preData)
  have start : ∀ task, Op.write task ∈
      (writeTasks cfg ino (writePlan cfg jobs hashListPrev preData)).map Op.write →
      task ∈ writeTasks cfg ino (writePlan cfg jobs hashListPrev preData) := by
    intro task listed
    obtain ⟨other, member, same⟩ := List.mem_map.mp listed
    obtain rfl := Op.write.inj same
    exact member
  constructor
  · exact (blocksRefine_idle accounted sized).spawn tasksOf planned
      (fun group member => rewrite_involved read distinguished member)
      fun op member => absurd member List.not_mem_nil
  · intro hash
    have nothing := sum_owed_start (fun task inTasks => (tasksOf.start task inTasks).2) hash
    simp only [nothing, Nat.add_zero]
    exact (accounted.exact hash).symm
  · intro task member group inPlan
    have inGroups := tasksOf.only task (start task member) group inPlan
    obtain ⟨listed, ⟨index, changed⟩, _⟩ := mem_blockGroups inGroups
    refine ⟨index, ?_⟩
    rw [(planned.written group inGroups index ((listed index).mpr changed)).2, Option.map_some,
      task.plan.hash_eq group inPlan]
  · exact fun addr _ => rfl
  · intro hash _
    refine ⟨fun zero => ⟨zero, ?_⟩, fun zero => (if_pos zero).symm⟩
    intro task member
    rw [(tasksOf.start task (start task member)).2]
    exact AList.notMem_empty hash

/-- What any call without failures leaves behind on an inode with a size. -/
theorem WriteUnfailing.rewritten {client : Nat} {after : IdleState} (accounted : Accounted cfg before.store)
    (cached : SoundCaches cfg before.caches)
    (injective : Set.InjOn cfg.calculateHash (before.involvedBlocks cfg ino jobs)) {size : InoSize}
    (sized : inoSize before.store ino = some size) (ran : WriteUnfailing cfg client ino jobs before after) :
    Rewritten cfg.calculateHash ino (before.involvedBlocks cfg ino jobs) before.store
      ((before.file ino).rewrite cfg.blockSize jobs) after.store := by
  obtain ⟨blocks, rewriting, isStore, done⟩ := ran.tasks_done (Rewriting ino _ before.store _)
    (accounted.readable ino) cached injective (fun _ _ read => rewriting_start accounted injective sized read)
    fun _ _ _ _ rewriting taken => rewriting.advance taken
  rw [← isStore]
  exact rewriting.settled done

end Spawn

def Unsized {cfg : TiFsConfig} (ino : StorageIno) (state : BlockSystem cfg) : Prop :=
  inoSize state.store ino = none ∧ ∃ op, state.ops = [op] ∧
    ((∃ task, op = .write task ∧ task.ino = ino ∧ task.Sound ∧ 2 < task.phase.remaining) ∨
      ∃ issue, op = .ended (some issue))

section Unsized

variable {cfg : TiFsConfig} {ino : StorageIno}

theorem WriteMove.unsized {task : WriteTask cfg} {store after : Store} {phase : WritePhase}
    (move : WriteMove task store phase after) (unsized : inoSize store task.ino = none)
    (early : 2 < task.phase.remaining) : inoSize after task.ino = none ∧ 2 < phase.remaining := by
  have other : ∀ (kind : InoMetadata) (value : Option kind.Value), kind ≠ .size →
      inoSize (applyAll store [⟨.inodeX task.ino kind, value⟩]) task.ino = none := by
    intro kind value different
    rw [← unsized]
    exact lookup_apply_of_ne store _ _ (by simpa using different.symm)
  cases move with
  | incremented prev after current counted =>
      rw [inoSize, counted.frame (.inodeX task.ino .size) (by simp)]
      exact ⟨unsized, by simp [WritePhase.remaining]⟩
  | uploaded blocks after current stored =>
      rw [inoSize, stored.frame (.inodeX task.ino .size) (by simp)]
      exact ⟨unsized, by simp [WritePhase.remaining]⟩
  | replaced decrements after current placed lengths =>
      rw [inoSize, placed.frame (.inodeX task.ino .size) (by simp)]
      exact ⟨unsized, by simp [WritePhase.remaining]⟩
  | fullHashCleared decrements current => exact ⟨other .fullHash none (by simp), by simp [WritePhase.remaining]⟩
  | iterationChanged decrements uuid current =>
      exact ⟨other .changeIterationId (some uuid) (by simp), by simp [WritePhase.remaining]⟩
  | sizeTooSmall decrements size current stored small => rw [unsized] at stored; cases stored
  | sizeEnough decrements size current stored enough => rw [unsized] at stored; cases stored
  | sizeUpdated decrements size grown current stored small isMax => rw [unsized] at stored; cases stored
  | sizeKept decrements size current stored enough => rw [unsized] at stored; cases stored
  | decremented decrements after current counted => simp [current, WritePhase.remaining] at early
  | finished current => simp [current, WritePhase.remaining] at early

theorem Unsized.advance {state after : BlockSystem cfg} {k : Nat} {ambient : Ambient}
    (unsized : Unsized ino state) (taken : state.Step (.advance k ambient) after) : Unsized ino after := by
  obtain ⟨noSize, op, isOps, holds⟩ := unsized
  cases BlockSystem.effect_of_step taken with
  | moved k ambient op' next store present ran =>
      rw [isOps, List.getElem?_singleton] at present
      split at present
      · next first =>
          obtain rfl := Option.some.inj present
          rcases holds with ⟨task, rfl, rfl, sound, early⟩ | ⟨issue, rfl⟩
          · obtain ⟨phase, rfl, move⟩ := Op.move_of_step sound ran
            obtain ⟨stillNone, stillEarly⟩ := move.unsized noSize early
            exact ⟨stillNone, .write { task with phase := phase }, by rw [isOps, first]; rfl,
              Or.inl ⟨_, rfl, rfl, move.sound sound, stillEarly⟩⟩
          · obtain ⟨rfl, rfl⟩ := Prod.mk.inj (Except.ok.inj ran)
            exact ⟨noSize, _, by rw [isOps, first]; rfl, Or.inr ⟨issue, rfl⟩⟩
      · cases present
  | failed k ambient op' issue present ran =>
      rw [isOps, List.getElem?_singleton] at present
      split at present
      · next first => exact ⟨noSize, _, by rw [isOps, first]; rfl, Or.inr ⟨issue, rfl⟩⟩
      · cases present

theorem Unsized.not_done {state : BlockSystem cfg} (unsized : Unsized ino state) :
    ¬ ∀ op ∈ state.ops, op.outcome = some (.ok ()) := by
  obtain ⟨_, op, isOps, holds⟩ := unsized
  intro done
  have isDone := done op (by rw [isOps]; exact List.mem_singleton_self op)
  rcases holds with ⟨task, rfl, _, _, early⟩ | ⟨issue, rfl⟩
  · have running : task.phase ≠ .done := by
      intro isDone
      simp [isDone, WritePhase.remaining] at early
    simp [Op.outcome, running] at isDone
  · cases isDone

end Unsized

/-- The tasks of one group each, interleaved in any order, leave behind what one
task for all groups does. -/
theorem upload_modes_agree (cfg : TiFsConfig) (client : Nat) (ino : StorageIno) (jobs : List WriteTaskData)
    (before chunked parallel : IdleState) (accounted : Accounted cfg before.store)
    (cached : SoundCaches cfg before.caches)
    (injective : Set.InjOn cfg.calculateHash (before.involvedBlocks cfg ino jobs))
    (inChunks : WriteUnfailing (cfg.uploading true) client ino jobs before chunked)
    (inParallel : WriteUnfailing (cfg.uploading false) client ino jobs before parallel) :
    SameContents ino parallel.store chunked.store := by
  have modes : ∀ mode, Accounted (cfg.uploading mode) before.store :=
    fun mode => ⟨accounted.exact, accounted.stored, accounted.addressed⟩
  cases sized : inoSize before.store ino with
  | some size =>
      have first := inParallel.rewritten (modes false) cached injective sized
      have second := inChunks.rewritten (modes true) cached injective sized
      exact Rewritten.same injective first second
  | none =>
      have spawned : ∀ hashListPrev preData, Unsized ino (⟨before.store, (writeTasks (cfg.uploading true) ino
          (writePlan _ jobs hashListPrev preData)).map .write⟩ : BlockSystem (cfg.uploading true)) := by
        intro hashListPrev preData
        have sound : WriteTask.Sound (⟨ino, writePlan _ jobs hashListPrev preData, .increment⟩ :
            WriteTask (cfg.uploading true)) :=
          ⟨by simp, fun hash listed => absurd listed (AList.notMem_empty hash)⟩
        exact ⟨sized, _, rfl, Or.inl ⟨_, rfl, rfl, sound, by simp [WritePhase.remaining]⟩⟩
      obtain ⟨blocks, unsized, _, done⟩ := inChunks.tasks_done (Unsized ino) ((modes true).readable ino) cached injective
        (fun _ _ _ => spawned _ _) fun _ _ _ _ unsized taken => unsized.advance taken
      exact absurd done unsized.not_done

theorem twoBlockFile_mapping {addr : BlockAddress} {hash : TiFsHash}
    (found : mapping ReadSystem.twoBlockFile addr = some hash) :
    hash = padHash 3 [7, 7] ∨ hash = padHash 3 [8, 8] := by
  rcases lookup_applyAll_eq_some found with none | listed
  · cases none
  · simp only [List.mem_cons, List.not_mem_nil, or_false] at listed
    rcases listed with other | first | second | other | other | other | other
    · cases other
    · cases first
      exact Or.inl rfl
    · cases second
      exact Or.inr rfl
    · cases other
    · cases other
    · cases other
    · cases other

theorem twoBlockFile_accounted : Accounted (paddingConfig 2 Nat.two_pos) ReadSystem.twoBlockFile := by
  refine ⟨?_, ?_, ReadSystem.twoBlockFile_addressed⟩
  · intro hash
    by_cases known : hash = padHash 3 [7, 7] ∨ hash = padHash 3 [8, 8]
    · rcases known with rfl | rfl
      · decide +kernel
      · decide +kernel
    · have unmapped : mapped ReadSystem.twoBlockFile hash = 0 := by
        by_contra some
        obtain ⟨addr, listed⟩ := Finset.card_pos.mp (Nat.pos_of_ne_zero some)
        exact known (twoBlockFile_mapping ((mem_mappedTo _ _ _).mp listed))
      rw [unmapped, counter, ReadSystem.twoBlockFile, lookup_applyAll_of_notMem]
      · rfl
      · simpa using known
  · intro addr hash found
    rcases twoBlockFile_mapping found with rfl | rfl
    · decide +kernel
    · decide +kernel

theorem twoBlockFile_involved :
    IdleState.involvedBlocks (paddingConfig 2 Nat.two_pos) 10 [⟨[8, 8, 7, 7], 0⟩]
      ⟨ReadSystem.twoBlockFile, fun _ => ∅⟩ ⊆ {data | data.length ≤ 2} := by
  rintro data ((⟨hash, found⟩ | ⟨client, hash, found⟩) | ⟨part, listed, rfl⟩)
  · rcases lookup_applyAll_eq_some found with none | listed
    · cases none
    · simp only [List.mem_cons, List.not_mem_nil, or_false] at listed
      rcases listed with other | other | other | first | second | other | other
      · cases other
      · cases other
      · cases other
      · cases first
        exact Nat.le_refl 2
      · cases second
        exact Nat.le_refl 2
      · cases other
      · cases other
  · cases found
  · revert part
    decide +kernel

/-- The blocks of a file swap their contents: the first task deletes the block that
the second one is still to count and to upload. -/
theorem upload_modes_agree_swapped :
    ∃ chunked parallel : IdleState,
      WriteUnfailing ((paddingConfig 2 Nat.two_pos).uploading true) 0 10 [⟨[8, 8, 7, 7], 0⟩]
        ⟨ReadSystem.twoBlockFile, fun _ => ∅⟩ chunked ∧
      WriteUnfailing ((paddingConfig 2 Nat.two_pos).uploading false) 0 10 [⟨[8, 8, 7, 7], 0⟩]
        ⟨ReadSystem.twoBlockFile, fun _ => ∅⟩ parallel ∧
      SameContents 10 parallel.store chunked.store := by
  obtain ⟨chunked, inChunks⟩ := exists_unfailing ((paddingConfig 2 Nat.two_pos).uploading true) 0 10
    [⟨[8, 8, 7, 7], 0⟩] ⟨ReadSystem.twoBlockFile, fun _ => ∅⟩
    ([.proceed 0, .proceed 0, .proceed 0] ++ List.replicate 7 (.transact 0 ⟨5, 1⟩) ++ [.proceed 0])
    (by decide +kernel)
  obtain ⟨parallel, inParallel⟩ := exists_unfailing ((paddingConfig 2 Nat.two_pos).uploading false) 0 10
    [⟨[8, 8, 7, 7], 0⟩] ⟨ReadSystem.twoBlockFile, fun _ => ∅⟩
    ([.proceed 0, .proceed 0, .proceed 0] ++ List.replicate 7 (.transact 0 ⟨5, 1⟩) ++
      List.replicate 7 (.transact 1 ⟨5, 2⟩) ++ [.proceed 0])
    (by decide +kernel)
  refine ⟨chunked, parallel, inChunks, inParallel, ?_⟩
  refine upload_modes_agree (paddingConfig 2 Nat.two_pos) 0 10 _ _ _ _ twoBlockFile_accounted ?_ ?_ inChunks inParallel
  · intro client hash data found
    cases found
  · exact (padding_injOn Nat.two_pos).mono twoBlockFile_involved

end TiFs
