import TiFs.StoredFile

/-! Calls on one inode that share no block while they are in flight leave behind
what their jobs give in the order in which the calls were started. -/

namespace TiFs

open KeyValue Tables

/-- The file will be the target once every open batch has taken effect, in
whatever order that happens. -/
structure Awaits (blockSize : Nat) (unapplied : Set (List WriteTaskData)) (file target : FileMap) :
    Prop where
  reached : ∀ index, (∀ jobs ∈ unapplied, lastPart blockSize jobs index = none) →
    target.content index = file.content index
  awaited : ∀ jobs ∈ unapplied, ∀ index part, lastPart blockSize jobs index = some part →
    target.content index = some (file.patched part)
  size : ∀ bound, target.size ≤ bound ↔ file.size ≤ bound ∧
    ∀ jobs ∈ unapplied, ∀ index part, lastPart blockSize jobs index = some part →
      part.stop blockSize ≤ bound

def TouchApart (blockSize : Nat) (first second : List WriteTaskData) : Prop :=
  ∀ index, lastPart blockSize first index = none ∨ lastPart blockSize second index = none

section Awaits

variable {blockSize : Nat} {unapplied : Set (List WriteTaskData)} {file target : FileMap}
  {jobs : List WriteTaskData}

theorem awaits_self (blockSize : Nat) (file : FileMap) : Awaits blockSize ∅ file file :=
  ⟨fun _ _ => rfl, fun _ listed => absurd listed (Set.notMem_empty _),
    fun bound => by simp⟩

theorem Awaits.eq_of_empty (awaits : Awaits blockSize ∅ file target) : target = file := by
  apply FileMap.ext
  · funext index
    exact awaits.reached index fun jobs listed => absurd listed (Set.notMem_empty jobs)
  · have sizes := awaits.size
    simp only [Set.mem_empty_iff_false, false_implies, implies_true, and_true] at sizes
    exact Nat.le_antisymm ((sizes file.size).mpr le_rfl) ((sizes target.size).mp le_rfl)

theorem TouchApart.of_some {first second : List WriteTaskData}
    (apart : TouchApart blockSize first second) {index : Nat} {part : Part}
    (touched : lastPart blockSize second index = some part) :
    lastPart blockSize first index = none := by
  rcases apart index with none | none
  · exact none
  · rw [touched] at none
    cases none

theorem TouchApart.symm {first second : List WriteTaskData}
    (apart : TouchApart blockSize first second) : TouchApart blockSize second first :=
  fun index => (apart index).symm

theorem patched_congr {file other : FileMap} {index : Nat} {part : Part}
    (found : lastPart blockSize jobs index = some part)
    (same : file.content index = other.content index) : file.patched part = other.patched part := by
  rw [FileMap.patched, FileMap.patched, lastPart_index found, same]

theorem Awaits.start (awaits : Awaits blockSize unapplied file target)
    (apart : ∀ other ∈ unapplied, TouchApart blockSize other jobs) :
    Awaits blockSize (insert jobs unapplied) file (target.writeBatch blockSize jobs) := by
  constructor
  · intro index untouched
    rw [content_writeBatch_of_none (untouched jobs (Set.mem_insert _ _))]
    exact awaits.reached index fun other listed => untouched other (Set.mem_insert_of_mem _ listed)
  · intro other listed index part found
    rcases Set.mem_insert_iff.mp listed with rfl | earlier
    · have same := awaits.reached index fun another member => (apart another member).of_some found
      rw [content_writeBatch_of_some found, patched_congr found same]
    · rw [content_writeBatch_of_none ((apart other earlier).symm.of_some found)]
      exact awaits.awaited other earlier index part found
  · intro bound
    rw [size_writeBatch_le, awaits.size, and_assoc]
    refine and_congr_right fun _ => ?_
    constructor
    · rintro ⟨earlier, new⟩ other listed
      rcases Set.mem_insert_iff.mp listed with rfl | member
      · exact new
      · exact earlier other member
    · intro all
      exact ⟨fun other member => all other (Set.mem_insert_of_mem _ member),
        all jobs (Set.mem_insert _ _)⟩

theorem Awaits.effect (awaits : Awaits blockSize (insert jobs unapplied) file target)
    (apart : ∀ other ∈ unapplied, TouchApart blockSize other jobs) :
    Awaits blockSize unapplied (file.writeBatch blockSize jobs) target := by
  constructor
  · intro index untouched
    cases found : lastPart blockSize jobs index with
    | some part =>
        rw [content_writeBatch_of_some found]
        exact awaits.awaited jobs (Set.mem_insert _ _) index part found
    | none =>
        rw [content_writeBatch_of_none found]
        apply awaits.reached
        intro other listed
        rcases Set.mem_insert_iff.mp listed with rfl | earlier
        · exact found
        · exact untouched other earlier
  · intro other listed index part found
    have kept : (file.writeBatch blockSize jobs).content index = file.content index :=
      content_writeBatch_of_none ((apart other listed).symm.of_some found)
    rw [patched_congr found kept]
    exact awaits.awaited other (Set.mem_insert_of_mem _ listed) index part found
  · intro bound
    rw [size_writeBatch_le, awaits.size, and_assoc]
    refine and_congr_right fun _ => ?_
    constructor
    · intro all
      exact ⟨all jobs (Set.mem_insert _ _), fun other member =>
        all other (Set.mem_insert_of_mem _ member)⟩
    · rintro ⟨new, earlier⟩ other listed
      rcases Set.mem_insert_iff.mp listed with rfl | member
      · exact new
      · exact earlier other member

end Awaits

def readingJobs (calls : List WriteCall) : Set (List WriteTaskData) :=
  {jobs | ∃ call ∈ calls, call.phase.isReading ∧ call.jobs = jobs}

/-- The calls will have left the target behind when all of them are done. -/
def StartOrder {cfg : TiFsConfig} (ino : StorageIno) (involved : Set Bytes) (target : FileMap)
    (state : WriteSystem cfg) : Prop :=
  ∃ file, CallsRefine ino involved file state ∧
    Awaits cfg.blockSize (readingJobs state.calls) file target

def WriteEvent.target (blockSize : Nat) (target : FileMap) : WriteEvent → FileMap
  | .start _ _ jobs => target.writeBatch blockSize jobs
  | _ => target

section Calls

variable {calls : List WriteCall} {i : Nat} {call : WriteCall} {phase : CallPhase}

theorem CallPhase.isActive_of_isReading (reading : phase.isReading) : phase.isActive := by
  cases phase with
  | returned result => cases reading
  | _ => rfl

theorem readingJobs_append (calls : List WriteCall) (call : WriteCall) (reading : call.phase.isReading) :
    readingJobs (calls ++ [call]) = insert call.jobs (readingJobs calls) := by
  ext jobs
  constructor
  · rintro ⟨other, member, isReading, rfl⟩
    rcases List.mem_append.mp member with earlier | last
    · exact Set.mem_insert_of_mem _ ⟨other, earlier, isReading, rfl⟩
    · rw [List.mem_singleton.mp last]
      exact Set.mem_insert _ _
  · intro listed
    rcases Set.mem_insert_iff.mp listed with rfl | ⟨other, member, isReading, rfl⟩
    · exact ⟨call, by simp, reading, rfl⟩
    · exact ⟨other, List.mem_append_left _ member, isReading, rfl⟩

theorem readingJobs_set_same (present : calls[i]? = some call)
    (same : phase.isReading = call.phase.isReading) :
    readingJobs (calls.set i { call with phase := phase }) = readingJobs calls := by
  have bound := (List.getElem?_eq_some_iff.mp present).1
  ext jobs
  constructor
  · rintro ⟨other, member, isReading, rfl⟩
    rcases List.mem_or_eq_of_mem_set member with earlier | rfl
    · exact ⟨other, earlier, isReading, rfl⟩
    · exact ⟨call, List.mem_of_getElem? present, by rw [← same]; exact isReading, rfl⟩
  · rintro ⟨other, member, isReading, rfl⟩
    obtain ⟨j, found⟩ := List.mem_iff_getElem?.mp member
    by_cases here : i = j
    · rw [← here, present] at found
      obtain rfl := Option.some.inj found
      exact ⟨{ call with phase := phase }, List.mem_set bound _, by rw [same]; exact isReading, rfl⟩
    · rw [← List.getElem?_set_ne here] at found
      exact ⟨other, List.mem_of_getElem? found, isReading, rfl⟩

theorem readingJobs_set_over (present : calls[i]? = some call) (reading : call.phase.isReading)
    (isOver : phase.isReading = false) :
    readingJobs calls = insert call.jobs (readingJobs (calls.set i { call with phase := phase })) := by
  ext jobs
  constructor
  · rintro ⟨other, member, isReading, rfl⟩
    obtain ⟨j, found⟩ := List.mem_iff_getElem?.mp member
    by_cases here : i = j
    · rw [← here, present] at found
      obtain rfl := Option.some.inj found
      exact Set.mem_insert _ _
    · rw [← List.getElem?_set_ne here] at found
      exact Set.mem_insert_of_mem _ ⟨other, List.mem_of_getElem? found, isReading, rfl⟩
  · intro listed
    rcases Set.mem_insert_iff.mp listed with rfl | ⟨other, member, isReading, rfl⟩
    · exact ⟨call, List.mem_of_getElem? present, reading, rfl⟩
    · rcases List.mem_or_eq_of_mem_set member with earlier | rfl
      · exact ⟨other, earlier, isReading, rfl⟩
      · simp only [isOver] at isReading
        cases isReading

end Calls

section Step

variable {cfg : TiFsConfig} {ino : StorageIno} {involved : Set Bytes} {file target : FileMap}
  {state after : WriteSystem cfg}

/-- A call that proceeds keeps all but its phase, and it stops reading only when
it takes effect. -/
theorem CallsRefine.proceed_cases {i : Nat} (taken : state.Step (.proceed i) after)
    (refines : CallsRefine ino involved file after) :
    ∃ call phase, state.calls[i]? = some call ∧
      after.calls = state.calls.set i { call with phase := phase } ∧
      (state.takesEffect (.proceed i) = none ∧ phase.isReading = call.phase.isReading ∨
        state.takesEffect (.proceed i) = some call.jobs ∧ call.phase.isReading ∧
          phase.isReading = false) := by
  obtain ⟨call, present, proceeded⟩ := Option.bind_eq_some_iff.mp taken
  have bound := (List.getElem?_eq_some_iff.mp present).1
  -- The reads of the call do not fail, as the state after them is in order.
  have noError : ∀ issue, ¬ ({ call with phase := .returned (.error issue) } : WriteCall) ∈
      after.calls := by
    intro issue member
    obtain ⟨wasModified, isOk⟩ := refines.succeeded _ member _ rfl
    cases isOk
  unfold WriteSystem.proceed at proceeded
  split at proceeded
  · next hashListPrev current =>
      obtain rfl := Option.some.inj proceeded
      exact ⟨call, _, present, rfl,
        Or.inl ⟨by simp [WriteSystem.takesEffect, present, current], by rw [current]; rfl⟩⟩
  · next range rest hashListPrev current =>
      split at proceeded
      · next issue failed =>
          obtain rfl := Option.some.inj proceeded
          exact absurd (List.mem_set bound _) (noError issue)
      · next found store ran =>
          obtain rfl := Option.some.inj proceeded
          exact ⟨call, _, present, rfl,
            Or.inl ⟨by simp [WriteSystem.takesEffect, present, current], by rw [current]; rfl⟩⟩
  · next hashListPrev current =>
      split at proceeded
      · next issue cache failed =>
          obtain rfl := Option.some.inj proceeded
          exact absurd (List.mem_set bound _) (noError issue)
      · next preData cache ran =>
          obtain rfl := Option.some.inj proceeded
          exact ⟨call, _, present, rfl,
            Or.inr ⟨by simp [WriteSystem.takesEffect, present, current], by rw [current]; rfl, rfl⟩⟩
  · next ops wasModified current =>
      split at proceeded
      · next outcomes ended =>
          obtain rfl := Option.some.inj proceeded
          exact ⟨call, _, present, rfl,
            Or.inl ⟨by simp [WriteSystem.takesEffect, present, current], by rw [current]; rfl⟩⟩
      · cases proceeded
  · cases proceeded

theorem CallsRefine.apart_reading (refines : CallsRefine ino involved file state) {i : Nat}
    {call : WriteCall} (present : state.calls[i]? = some call) (reading : call.phase.isReading)
    {phase : CallPhase} (isOver : phase.isReading = false) :
    ∀ other ∈ readingJobs (state.calls.set i { call with phase := phase }),
      TouchApart cfg.blockSize other call.jobs := by
  rintro _ ⟨other, member, isReading, rfl⟩
  obtain ⟨j, found⟩ := List.mem_iff_getElem?.mp member
  rcases getElem?_set_cases found with ⟨_, rfl⟩ | ⟨different, earlier⟩
  · simp only [isOver] at isReading
    cases isReading
  · intro index
    by_cases touched : lastPart cfg.blockSize other.jobs index = none
    · exact Or.inl touched
    · right
      have untouched := refines.apart j i other call earlier present (Ne.symm different)
        (CallPhase.isActive_of_isReading isReading) (CallPhase.isActive_of_isReading reading)
        index touched
      exact not_not.mp untouched

theorem StartAllowed.of_target (awaits : Awaits cfg.blockSize (readingJobs state.calls) file target)
    {jobs : List WriteTaskData} (allowed : StartAllowed cfg ino involved target state jobs) :
    (∀ other ∈ readingJobs state.calls, TouchApart cfg.blockSize other jobs) ∧
      StartAllowed cfg ino involved file state jobs := by
  have apart : ∀ other ∈ readingJobs state.calls, TouchApart cfg.blockSize other jobs := by
    rintro _ ⟨call, member, isReading, rfl⟩ index
    by_cases touched : lastPart cfg.blockSize call.jobs index = none
    · exact Or.inl touched
    · exact Or.inr (allowed.apart call member (CallPhase.isActive_of_isReading isReading) index touched)
  have same : ∀ index part, lastPart cfg.blockSize jobs index = some part →
      target.content index = file.content index :=
    fun index part found => awaits.reached index fun other listed => (apart other listed).of_some found
  refine ⟨apart, allowed.nonempty, allowed.apart, ?_, ?_⟩
  · intro index data touched isContent
    obtain ⟨part, found⟩ := Option.ne_none_iff_exists'.mp touched
    rw [← same index part found] at isContent
    exact allowed.stored index data touched isContent
  · intro part listed
    obtain ⟨last, found⟩ := Option.ne_none_iff_exists'.mp (lastPart_ne_none_of_mem listed)
    have isNew := allowed.new part listed
    rw [FileMap.patched, same part.index last found] at isNew
    exact isNew

theorem StartOrder.step (injective : Set.InjOn cfg.calculateHash involved)
    (order : StartOrder ino involved target state) {event : WriteEvent}
    (taken : state.Step event after)
    (allowed : ∀ client other jobs, event = .start client other jobs →
      other = ino ∧ StartAllowed cfg ino involved target state jobs) :
    StartOrder ino involved (event.target cfg.blockSize target) after := by
  obtain ⟨file, refines, awaits⟩ := order
  have next := refines.step injective taken fun client other jobs isStart =>
    ⟨(allowed client other jobs isStart).1, (StartAllowed.of_target awaits
      (allowed client other jobs isStart).2).2⟩
  refine ⟨_, next, ?_⟩
  cases event with
  | start client other jobs =>
      obtain ⟨apart, _⟩ := StartAllowed.of_target awaits (allowed client other jobs rfl).2
      obtain rfl := Option.some.inj taken
      simp only [readingJobs_append _ (WriteCall.start cfg client other jobs) rfl]
      exact awaits.start apart
  | transact k ambient =>
      obtain ⟨blocks, _, rfl⟩ := Option.map_eq_some_iff.mp taken
      exact awaits
  | evict client hash =>
      obtain rfl := Option.some.inj taken
      exact awaits
  | proceed i =>
      obtain ⟨call, phase, present, isAfter, ⟨none, same⟩ | ⟨some, reading, isOver⟩⟩ :=
        CallsRefine.proceed_cases taken next
      · rw [isAfter, readingJobs_set_same present same]
        simp only [WriteSystem.fileAfter, none]
        exact awaits
      · rw [isAfter]
        simp only [WriteSystem.fileAfter, some]
        rw [readingJobs_set_over present reading isOver] at awaits
        exact awaits.effect (refines.apart_reading present reading isOver)

def NoStart (_ : WriteSystem cfg) : WriteEvent → Prop
  | .start _ _ _ => False
  | _ => True

instance : ∀ (state : WriteSystem cfg) (event : WriteEvent), Decidable (NoStart state event)
  | _, .start _ _ _ => isFalse id
  | _, .proceed _ => isTrue trivial
  | _, .transact _ _ => isTrue trivial
  | _, .evict _ _ => isTrue trivial

theorem WriteSystem.exists_run (first : WriteSystem cfg) (events : List WriteEvent)
    (check : WriteSystem cfg → Bool)
    (ran : (runAll (restrict NoStart WriteSystem.step) first events).any check = true) :
    ∃ last, Run WriteSystem.Step NoStart first last ∧ check last = true :=
  Run.of_restrict (fun _ _ _ taken => taken) events check ran

theorem StartOrder.run (injective : Set.InjOn cfg.calculateHash involved)
    (order : StartOrder ino involved target state)
    (run : Run WriteSystem.Step NoStart state after) : StartOrder ino involved target after := by
  refine Run.invariant (StartOrder ino involved target) ?_ order run
  intro before event next holds taken noStart
  have kept := holds.step injective taken fun client other jobs isStart => by
    rw [isStart] at noStart
    exact noStart.elim
  cases event with
  | start client other jobs => exact noStart.elim
  | _ => exact kept

/-- When all calls have returned, the store holds the target. -/
theorem StartOrder.settled (injective : Set.InjOn cfg.calculateHash involved)
    (order : StartOrder ino involved target state)
    (returned : ∀ call ∈ state.calls, call.phase.isActive = false) :
    storedFile state.blocks.store ino = target ∧ Consistent cfg ino state.blocks.store ∧
      SoundCaches cfg state.caches ∧ presentBlocks state.blocks.store state.caches ⊆ involved := by
  obtain ⟨file, refines, awaits⟩ := order
  have none : readingJobs state.calls = ∅ := by
    rw [Set.eq_empty_iff_forall_notMem]
    rintro jobs ⟨call, member, isReading, _⟩
    have inactive := returned call member
    rw [CallPhase.isActive_of_isReading isReading] at inactive
    cases inactive
  rw [none] at awaits
  rw [awaits.eq_of_empty]
  exact refines.settled injective returned

end Step

theorem startOrder_begin {cfg : TiFsConfig} {ino : StorageIno} {store : Store}
    {caches : Nat → BlocksData} {involved : Set Bytes} (consistent : Consistent cfg ino store)
    (sound : SoundCaches cfg caches) (present : presentBlocks store caches ⊆ involved)
    {calls : List (Nat × List WriteTaskData)}
    (allowed : CallsAllowed cfg ino involved (storedFile store ino) calls) :
    StartOrder ino involved
      (calls.foldl (fun file call => file.writeBatch cfg.blockSize call.2) (storedFile store ino))
      (WriteSystem.begin cfg store caches
        (calls.map fun call => WriteCall.start cfg call.1 ino call.2)) := by
  refine ⟨_, callsRefine_begin consistent sound present allowed, ?_⟩
  have apart := allowed.apart
  simp only [WriteSystem.begin]
  induction calls using List.reverseRecOn with
  | nil =>
      have none : readingJobs [] = ∅ := by simp [readingJobs]
      rw [List.map_nil, none]
      exact awaits_self cfg.blockSize _
  | append_singleton front last ih =>
      obtain ⟨frontApart, _, between⟩ := List.pairwise_append.mp apart
      have awaits := ih ⟨fun call member => allowed.nonempty call (List.mem_append_left _ member),
        frontApart, fun call member => allowed.new call (List.mem_append_left _ member)⟩ frontApart
      rw [List.map_append, List.foldl_append, List.map_cons, List.map_nil, List.foldl_cons,
        List.foldl_nil, readingJobs_append _ (WriteCall.start cfg last.1 ino last.2) rfl]
      apply awaits.start
      rintro _ ⟨call, member, _, rfl⟩
      obtain ⟨other, inFront, rfl⟩ := List.mem_map.mp member
      exact between other inFront last (by simp)

end TiFs
