import TiFs.BlockRefinement

/-! Calls of `hb_write_data` on one inode that touch no common block: each of
them takes effect on the file at one moment, when its reads are done and its
tasks start. -/

namespace TiFs

open KeyValue Tables

def WriteCall.Touches (cfg : TiFsConfig) (call : WriteCall) (index : Nat) : Prop :=
  lastPart cfg.blockSize call.jobs index ≠ none

def CallPhase.isReading : CallPhase → Bool
  | .readHashes _ _ => true
  | .readPreData _ => true
  | _ => false

def CallPhase.isActive : CallPhase → Bool
  | .returned _ => false
  | _ => true

/-- What a call has read so far is right, and what is missing is still to be read. -/
def CallPhase.ReadsTo (cfg : TiFsConfig) (file : FileMap) (index : Nat) : CallPhase → Prop
  | .readHashes remaining hashListPrev =>
      (hashListPrev.lookup index = none ∧ ∃ range ∈ remaining, range.1 ≤ index ∧ index < range.2) ∨
        hashListPrev.lookup index = (file.content index).map cfg.calculateHash
  | .readPreData hashListPrev =>
      hashListPrev.lookup index = (file.content index).map cfg.calculateHash
  | _ => True

structure WriteCall.Prepared (cfg : TiFsConfig) (call : WriteCall) (involved : Set Bytes)
    (file : FileMap) (store : Store) : Prop where
  reads : ∀ index, call.Touches cfg index → call.phase.ReadsTo cfg file index
  stored : ∀ index data, call.Touches cfg index → file.content index = some data →
    (blockData store (cfg.calculateHash data)).isSome
  new : ∀ part ∈ writeParts cfg.blockSize call.jobs, file.patched part ∈ involved

structure CallsRefine {cfg : TiFsConfig} (ino : StorageIno) (involved : Set Bytes) (file : FileMap)
    (state : WriteSystem cfg) : Prop where
  blocks : BlocksRefine ino involved file state.blocks
  wellFormed : file.WellFormed cfg.blockSize
  contents : ∀ index data, file.content index = some data → data ∈ involved
  caches : ∀ client hash data, (state.caches client).lookup hash = some data →
    Addressed cfg involved hash data
  calls : ∀ call ∈ state.calls, call.ino = ino ∧ ∀ job ∈ call.jobs, 0 < job.data.length
  apart : ∀ (i j : Nat) (first second : WriteCall), state.calls[i]? = some first →
    state.calls[j]? = some second → i ≠ j → first.phase.isActive → second.phase.isActive →
    ∀ index, first.Touches cfg index → ¬ second.Touches cfg index
  owners : ∀ (k : Nat) (op : Op cfg), state.blocks.ops[k]? = some op → op.outcome = none →
    ∃ (j : Nat) (call : WriteCall) (ops : List Nat) (wasModified : Bool),
      state.calls[j]? = some call ∧ call.phase = .writing ops wasModified ∧ k ∈ ops ∧
      ∀ write ∈ op.pendingWrites, call.Touches cfg write.1.index
  valid : ∀ call ∈ state.calls, ∀ ops wasModified, call.phase = .writing ops wasModified →
    ∀ k ∈ ops, k < state.blocks.ops.length
  prepared : ∀ call ∈ state.calls, call.phase.isReading →
    call.Prepared cfg involved file state.blocks.store
  succeeded : ∀ call ∈ state.calls, ∀ result, call.phase = .returned result →
    ∃ wasModified, result = .ok wasModified

section Parts

variable {cfg : TiFsConfig} {jobs : List WriteTaskData}

theorem lastPart_ne_none_of_mem {blockSize : Nat} {part : Part}
    (listed : part ∈ writeParts blockSize jobs) : lastPart blockSize jobs part.index ≠ none := by
  rw [lastPart, Ne, List.getLast?_eq_none_iff]
  exact List.ne_nil_of_mem (List.mem_filter.mpr ⟨listed, by simp⟩)

theorem mem_preDataHashRequest {hashListPrev : BlockHashes} {hash : TiFsHash} :
    hash ∈ preDataHashRequest cfg jobs hashListPrev ↔
      ∃ job ∈ jobs, ∃ part ∈ (BlockSplitterWrite.new cfg.blockSize job.start job.data).irregularParts,
        hashListPrev.lookup part.index = some hash := by
  simp only [preDataHashRequest, List.mem_dedup, dataHandlers, bsList, List.map_map, List.flatMap_map,
    List.mem_flatMap, Function.comp_apply, List.mem_append, Option.mem_toList,
    UpdateIrregularBlock.getAndAddOriginalBlockHash, BlockSplitterWrite.irregularParts,
    List.mem_filter, List.mem_cons, List.not_mem_nil, or_false, decide_eq_true_eq]
  refine exists_congr fun job => and_congr_right fun _ => ?_
  constructor
  · rintro (found | found)
    · split at found
      · next some => exact ⟨_, ⟨Or.inl rfl, some⟩, found⟩
      · cases found
    · split at found
      · next some => exact ⟨_, ⟨Or.inr rfl, some⟩, found⟩
      · cases found
  · rintro ⟨part, ⟨rfl | rfl, some⟩, found⟩
    · left
      rw [if_pos some]
      exact found
    · right
      rw [if_pos some]
      exact found

/-- With sound blocks and a sound cache a call gets the previous data that it needs. -/
theorem exists_preRead {involved : Set Bytes} {store : Store} {cache : BlocksData} {file : FileMap}
    {hashListPrev : BlockHashes} (injective : Set.InjOn cfg.calculateHash involved)
    (addressed : ∀ hash data, blockData store hash = some data → Addressed cfg involved hash data)
    (cached : ∀ hash data, cache.lookup hash = some data → Addressed cfg involved hash data)
    (contents : ∀ index data, file.content index = some data → data ∈ involved)
    (hashes : ∀ part ∈ writeParts cfg.blockSize jobs,
      hashListPrev.lookup part.index = (file.content part.index).map cfg.calculateHash)
    (stored : ∀ part ∈ writeParts cfg.blockSize jobs, ∀ data, file.content part.index = some data →
      (blockData store (cfg.calculateHash data)).isSome) :
    ∃ preData filled : BlocksData,
      hbGetBlockDataByHashesCached cfg (preDataHashRequest cfg jobs hashListPrev) cache store =
        (.ok preData, filled) ∧
      PreRead cfg jobs file hashListPrev preData ∧
      ∀ hash data, filled.lookup hash = some data → Addressed cfg involved hash data := by
  have lengths : ∀ hash ∈ preDataHashRequest cfg jobs hashListPrev, hash.length = cfg.hashLen := by
    intro hash requested
    obtain ⟨job, member, part, isPart, found⟩ := mem_preDataHashRequest.mp requested
    have listed : part ∈ writeParts cfg.blockSize jobs :=
      List.mem_append_left _ (List.mem_flatMap.mpr ⟨job, member, isPart⟩)
    rw [hashes part listed] at found
    obtain ⟨data, _, rfl⟩ := Option.map_eq_some_iff.mp found
    exact cfg.hash_length data
  obtain ⟨found, filled, ran, inFound, sound⟩ :=
    cached_spec cfg involved store cache _ lengths addressed cached
  refine ⟨found, filled, ran, ⟨hashes, ?_⟩, sound⟩
  intro part listed short data isContent
  have requested : cfg.calculateHash data ∈ preDataHashRequest cfg jobs hashListPrev := by
    obtain ⟨job, member, isPart⟩ := irregular_of_part cfg.blockSize_pos listed short
    refine mem_preDataHashRequest.mpr ⟨job, member, part, isPart, ?_⟩
    rw [hashes part listed, isContent]
    rfl
  have inInvolved := contents part.index data isContent
  obtain ⟨other, isStored⟩ := Option.isSome_iff_exists.mp (stored part listed data isContent)
  rw [inFound _ requested]
  cases hit : cache.lookup (cfg.calculateHash data) with
  | none =>
      obtain ⟨otherInvolved, sameHash⟩ := addressed _ other isStored
      rw [Option.none_or, isStored, injective otherInvolved inInvolved sameHash]
  | some data' =>
      obtain ⟨cachedInvolved, sameHash⟩ := cached _ _ hit
      rw [Option.some_or, injective cachedInvolved inInvolved sameHash]

theorem CallPhase.ReadsTo.next {file : FileMap} {index : Nat} {range : Nat × Nat} {rest : List (Nat × Nat)}
    {hashListPrev found : BlockHashes}
    (known : (CallPhase.readHashes (range :: rest) hashListPrev).ReadsTo cfg file index)
    (isFound : found.lookup index =
      if range.1 ≤ index ∧ index < range.2 then (file.content index).map cfg.calculateHash else none) :
    (CallPhase.readHashes rest
      (extend hashListPrev (found.entries.map fun entry => (entry.1, entry.2)))).ReadsTo cfg file index := by
  by_cases inside : range.1 ≤ index ∧ index < range.2
  · right
    rw [if_pos inside] at isFound
    rw [lookup_extend_entries, isFound]
    cases content : file.content index with
    | some data => rfl
    | none =>
        rcases known with ⟨unread, _⟩ | known
        · rw [unread]
          rfl
        · rw [known, content]
          rfl
  · rw [if_neg inside] at isFound
    rcases known with ⟨unread, other, member, within⟩ | known
    · rcases List.mem_cons.mp member with rfl | later
      · exact absurd within inside
      · left
        rw [lookup_extend_entries, isFound, unread]
        exact ⟨rfl, other, later, within⟩
    · right
      rw [lookup_extend_entries, isFound, Option.none_or]
      exact known

theorem start_reads (client : Nat) (ino : StorageIno) (nonempty : ∀ job ∈ jobs, 0 < job.data.length)
    (file : FileMap) {index : Nat} (touched : lastPart cfg.blockSize jobs index ≠ none) :
    (WriteCall.start cfg client ino jobs).phase.ReadsTo cfg file index := by
  left
  refine ⟨rfl, ?_⟩
  rw [cfg.mem_rangeCollection]
  obtain ⟨part, last⟩ := Option.ne_none_iff_exists'.mp touched
  obtain ⟨_, job, member, found⟩ := lastPart_eq_some cfg.blockSize_pos nonempty last
  have inside := mem_getRange cfg.blockSize_pos (nonempty job member) found
  exact ⟨_, List.mem_map_of_mem (List.mem_map_of_mem member), inside⟩

end Parts

section Step

variable {cfg : TiFsConfig} {ino : StorageIno} {involved : Set Bytes} {file : FileMap}
  {state : WriteSystem cfg}

theorem outcome_of_pending {op : Op cfg} {write : BlockAddress × Option TiFsHash}
    (listed : write ∈ op.pendingWrites) : op.outcome = none := by
  cases op with
  | write task =>
      have running : task.phase ≠ .done := by
        intro done
        rw [pendingWrites_of_replaced (by rw [done]; rfl)] at listed
        cases listed
      simp [Op.outcome, running]
  | _ => cases listed

theorem CallsRefine.unpending (refines : CallsRefine ino involved file state) {i : Nat}
    {call : WriteCall} (present : state.calls[i]? = some call) (reading : call.phase.isReading)
    {op : Op cfg} (member : op ∈ state.blocks.ops) {write : BlockAddress × Option TiFsHash}
    (listed : write ∈ op.pendingWrites) : ¬ call.Touches cfg write.1.index := by
  obtain ⟨k, found⟩ := List.mem_iff_getElem?.mp member
  obtain ⟨j, owner, ops, wasModified, isOwner, isWriting, _, touches⟩ :=
    refines.owners k op found (outcome_of_pending listed)
  have different : i ≠ j := by
    intro same
    rw [same, isOwner] at present
    obtain rfl := Option.some.inj present
    rw [isWriting] at reading
    cases reading
  have active : call.phase.isActive := by
    cases phase : call.phase with
    | returned result =>
        rw [phase] at reading
        cases reading
    | _ => rfl
  intro touched
  exact refines.apart i j call owner present isOwner different active (by rw [isWriting]; rfl) _
    touched (touches write listed)

theorem CallsRefine.mapping_eq (refines : CallsRefine ino involved file state) {i : Nat}
    {call : WriteCall} (present : state.calls[i]? = some call) (reading : call.phase.isReading)
    {index : Nat} (touched : call.Touches cfg index) :
    mapping state.blocks.store ⟨ino, index⟩ = (file.content index).map cfg.calculateHash := by
  apply refines.blocks.mapped
  intro op member listed
  obtain ⟨write, inPending, isAddr⟩ := List.mem_map.mp listed
  have notTouched := refines.unpending present reading member inPending
  rw [isAddr] at notTouched
  exact notTouched touched

theorem CallsRefine.scanned_eq (refines : CallsRefine ino involved file state) {i : Nat}
    {call : WriteCall} (present : state.calls[i]? = some call) (reading : call.phase.isReading)
    {index : Nat} (touched : call.Touches cfg index) :
    scanned cfg state.blocks.store ino index = (file.content index).map cfg.calculateHash := by
  rw [scanned, refines.mapping_eq present reading touched]
  cases file.content index with
  | none => rfl
  | some data => simp [cfg.hash_length data]

theorem CallsRefine.setPhase (refines : CallsRefine ino involved file state) {i : Nat}
    {call : WriteCall} (present : state.calls[i]? = some call) (phase : CallPhase)
    {caches : Nat → BlocksData}
    (cached : ∀ client hash data, (caches client).lookup hash = some data →
      Addressed cfg involved hash data)
    (active : phase.isActive → call.phase.isActive)
    (left : ∀ ops wasModified, call.phase = .writing ops wasModified →
      ∀ k ∈ ops, ∀ op, state.blocks.ops[k]? = some op → op.outcome ≠ none)
    (notWriting : ∀ ops wasModified, phase ≠ .writing ops wasModified)
    (prepared : phase.isReading →
      WriteCall.Prepared cfg { call with phase := phase } involved file state.blocks.store)
    (succeeded : ∀ result, phase = .returned result → ∃ wasModified, result = .ok wasModified) :
    CallsRefine ino involved file
      { state with caches := caches, calls := state.calls.set i { call with phase := phase } } := by
  have inCalls := List.mem_of_getElem? present
  -- Any call after the change is one from before, but for its phase.
  have old : ∀ (j : Nat) (other : WriteCall),
      (state.calls.set i { call with phase := phase })[j]? = some other →
      ∃ before : WriteCall, state.calls[j]? = some before ∧ before.jobs = other.jobs ∧
        (other.phase.isActive → before.phase.isActive) := by
    intro j other found
    rcases getElem?_set_cases found with ⟨rfl, rfl⟩ | ⟨_, earlier⟩
    · exact ⟨call, present, rfl, active⟩
    · exact ⟨other, earlier, rfl, id⟩
  constructor
  · exact refines.blocks
  · exact refines.wellFormed
  · exact refines.contents
  · exact cached
  · intro other member
    rcases List.mem_or_eq_of_mem_set member with earlier | rfl
    · exact refines.calls other earlier
    · exact refines.calls call inCalls
  · intro j k first second isFirst isSecond different firstActive secondActive index touched
    obtain ⟨one, wasFirst, sameFirst, oneActive⟩ := old j first isFirst
    obtain ⟨two, wasSecond, sameSecond, twoActive⟩ := old k second isSecond
    have disjoint := refines.apart j k one two wasFirst wasSecond different (oneActive firstActive)
      (twoActive secondActive) index
    simp only [WriteCall.Touches, sameFirst, sameSecond] at disjoint
    exact disjoint touched
  · intro k op found running
    obtain ⟨j, owner, ops, wasModified, isOwner, isWriting, owns, touches⟩ :=
      refines.owners k op found running
    have different : i ≠ j := by
      intro same
      rw [same, isOwner] at present
      obtain rfl := Option.some.inj present
      exact left ops wasModified isWriting k owns op found running
    exact ⟨j, owner, ops, wasModified, by rw [List.getElem?_set_ne different]; exact isOwner,
      isWriting, owns, touches⟩
  · intro other member ops wasModified isWriting
    rcases List.mem_or_eq_of_mem_set member with earlier | rfl
    · exact refines.valid other earlier ops wasModified isWriting
    · exact absurd isWriting (notWriting ops wasModified)
  · intro other member reading
    rcases List.mem_or_eq_of_mem_set member with earlier | rfl
    · exact refines.prepared other earlier reading
    · exact prepared reading
  · intro other member result isReturned
    rcases List.mem_or_eq_of_mem_set member with earlier | rfl
    · exact refines.succeeded other earlier result isReturned
    · exact succeeded result isReturned

theorem CallsRefine.readRange (refines : CallsRefine ino involved file state) {i : Nat}
    {call : WriteCall} (present : state.calls[i]? = some call) {range : Nat × Nat}
    {rest : List (Nat × Nat)} {hashListPrev : BlockHashes}
    (current : call.phase = .readHashes (range :: rest) hashListPrev) :
    ∃ found : BlockHashes,
      atomically (hbGetBlockHashListByBlockRangeChunked cfg call.ino range) state.blocks.store =
        .ok (found, state.blocks.store) ∧
      CallsRefine ino involved file (state.setPhase i call (.readHashes rest
        (extend hashListPrev (found.entries.map fun entry => (entry.1, entry.2))))) := by
  have inCalls := List.mem_of_getElem? present
  have reading : call.phase.isReading := by
    rw [current]
    rfl
  have isIno := (refines.calls call inCalls).1
  have prepared := refines.prepared call inCalls reading
  obtain ⟨found, ran, inFound⟩ := readRange_spec cfg state.blocks.store call.ino range
  refine ⟨found, ran, refines.setPhase present _ refines.caches (fun _ => by rw [current]; rfl) ?_
    (by simp) ?_ (by simp)⟩
  · intro ops wasModified isWriting
    rw [current] at isWriting
    cases isWriting
  · intro _
    refine ⟨?_, prepared.stored, prepared.new⟩
    intro index touched
    have known := prepared.reads index touched
    rw [current] at known
    have isFound := inFound index
    rw [isIno, refines.scanned_eq present reading touched] at isFound
    exact known.next isFound

theorem CallsRefine.allRead (refines : CallsRefine ino involved file state) {i : Nat}
    {call : WriteCall} (present : state.calls[i]? = some call) {hashListPrev : BlockHashes}
    (current : call.phase = .readHashes [] hashListPrev) :
    CallsRefine ino involved file (state.setPhase i call (.readPreData hashListPrev)) := by
  have inCalls := List.mem_of_getElem? present
  have prepared := refines.prepared call inCalls (by rw [current]; rfl)
  refine refines.setPhase present _ refines.caches (fun _ => by rw [current]; rfl) ?_ (by simp) ?_
    (by simp)
  · intro ops wasModified isWriting
    rw [current] at isWriting
    cases isWriting
  · intro _
    refine ⟨?_, prepared.stored, prepared.new⟩
    intro index touched
    have before := prepared.reads index touched
    rw [current] at before
    rcases before with ⟨_, range, none, _⟩ | known
    · cases none
    · exact known

theorem callResult_of_done {blocks : BlockSystem cfg} {ops : List Nat}
    (done : ∀ k ∈ ops, ∀ op, blocks.ops[k]? = some op → op.outcome = some (.ok ())) (wasModified : Bool) :
    callResult cfg (ops.filterMap fun k => (blocks.ops[k]?).bind Op.outcome) wasModified = .ok wasModified := by
  have noError : (ops.filterMap fun k => (blocks.ops[k]?).bind Op.outcome).filterMap failureOf = [] := by
    rw [List.filterMap_eq_nil_iff]
    intro outcome listed
    obtain ⟨k, isOp, found⟩ := List.mem_filterMap.mp listed
    obtain ⟨op, present, isOutcome⟩ := Option.bind_eq_some_iff.mp found
    rw [done k isOp op present] at isOutcome
    rw [← Option.some.inj isOutcome]
    rfl
  simp only [callResult, noError, ite_self]

theorem CallsRefine.return (refines : CallsRefine ino involved file state) {i : Nat}
    {call : WriteCall} (present : state.calls[i]? = some call) {ops : List Nat} {wasModified : Bool}
    (current : call.phase = .writing ops wasModified) {outcomes : List (Except FsError Unit)}
    (ended : state.blocks.outcomes ops = some outcomes) :
    callResult cfg outcomes wasModified = .ok wasModified ∧
      CallsRefine ino involved file (state.setPhase i call (.returned (.ok wasModified))) := by
  unfold BlockSystem.outcomes at ended
  split at ended
  · next all =>
      obtain rfl := Option.some.inj ended
      -- A task that has ended was successful.
      have fine : ∀ k ∈ ops, ∀ op, state.blocks.ops[k]? = some op → op.outcome = some (.ok ()) := by
        intro k listed op found
        have isEnded := all k listed
        rw [found, Option.bind_some] at isEnded
        obtain ⟨task, rfl, _⟩ := refines.blocks.tasks op (List.mem_of_getElem? found)
        by_cases done : task.phase = .done
        · simp [Op.outcome, done]
        · simp [Op.outcome, done] at isEnded
      refine ⟨callResult_of_done fine wasModified, refines.setPhase present _ refines.caches
        (fun isActive => by cases isActive) ?_ (by simp) (fun reading => by cases reading) ?_⟩
      · intro others otherModified isWriting
        rw [current] at isWriting
        obtain ⟨rfl, _⟩ := CallPhase.writing.inj isWriting
        intro k listed op found running
        rw [fine k listed op found] at running
        cases running
      · intro result isReturned
        exact ⟨wasModified, (CallPhase.returned.inj isReturned).symm⟩
  · cases ended

theorem CallsRefine.transact (refines : CallsRefine ino involved file state) {k : Nat}
    {ambient : Ambient} {blocks : BlockSystem cfg}
    (taken : state.blocks.Step (.advance k ambient) blocks) :
    CallsRefine ino involved file { state with blocks := blocks } := by
  have advanced := refines.blocks.advance taken
  obtain ⟨task, phase, store, present, move, rfl⟩ := refines.blocks.move_of_step taken
  have member := List.mem_of_getElem? present
  constructor
  · exact advanced
  · exact refines.wellFormed
  · exact refines.contents
  · exact refines.caches
  · exact refines.calls
  · exact refines.apart
  · intro other op found running
    rcases getElem?_set_cases found with ⟨rfl, rfl⟩ | ⟨_, earlier⟩
    · have wasRunning : (Op.write task).outcome = none := by
        by_cases done : task.phase = .done
        · rw [move.done done] at running
          cases running
        · simp [Op.outcome, done]
      obtain ⟨j, owner, ops, wasModified, isOwner, isWriting, owns, touches⟩ :=
        refines.owners k _ present wasRunning
      refine ⟨j, owner, ops, wasModified, isOwner, isWriting, owns, ?_⟩
      intro write listed
      rcases move.pending_cases with ⟨unchanged, _⟩ | ⟨none, _⟩
      · rw [unchanged] at listed
        exact touches write listed
      · rw [none] at listed
        cases listed
    · exact refines.owners other op earlier running
  · intro call inCalls ops wasModified isWriting other owned
    rw [List.length_set]
    exact refines.valid call inCalls ops wasModified isWriting other owned
  · intro call inCalls reading
    have prepared := refines.prepared call inCalls reading
    obtain ⟨i, isCall⟩ := List.mem_iff_getElem?.mp inCalls
    refine ⟨prepared.reads, ?_, prepared.new⟩
    intro index data touched isContent
    -- The block stays mapped to its hash, so its counter stays above zero.
    have before := refines.mapping_eq isCall reading touched
    have untouched : (⟨ino, index⟩ : BlockAddress) ∉ (Op.write task).pendingWrites.map Prod.fst := by
      intro listed
      obtain ⟨write, inPending, isAddr⟩ := List.mem_map.mp listed
      have notTouched := refines.unpending isCall reading member inPending
      rw [isAddr] at notTouched
      exact notTouched touched
    have after : mapping store ⟨ino, index⟩ = some (cfg.calculateHash data) := by
      rw [isContent, Option.map_some] at before
      rw [← before]
      rcases move.pending_cases with ⟨_, kept⟩ | ⟨_, _, kept⟩
      · exact kept _
      · exact kept _ untouched
    have counted := advanced.covered.counter_pos_of_mapping after
    rcases move.blockMove.data_kept (prepared.stored index data touched isContent) with kept | zero
    · exact kept
    · simp only at counted
      omega
  · exact refines.succeeded

theorem CallsRefine.evict (refines : CallsRefine ino involved file state) (client : Nat)
    (hash : TiFsHash) :
    CallsRefine ino involved file { state with
      caches := Function.update state.caches client ((state.caches client).erase hash) } := by
  refine ⟨refines.blocks, refines.wellFormed, refines.contents, ?_, refines.calls, refines.apart,
    refines.owners, refines.valid, refines.prepared, refines.succeeded⟩
  exact fun other key data found => refines.caches other key data (lookup_of_evicted found)

theorem CallsRefine.preData (refines : CallsRefine ino involved file state)
    (injective : Set.InjOn cfg.calculateHash involved) {i : Nat} {call : WriteCall}
    (present : state.calls[i]? = some call) {hashListPrev : BlockHashes}
    (current : call.phase = .readPreData hashListPrev) :
    ∃ preData filled : BlocksData,
      hbGetBlockDataByHashesCached cfg (preDataHashRequest cfg call.jobs hashListPrev)
        (state.caches call.client) state.blocks.store = (.ok preData, filled) ∧
      PreRead cfg call.jobs file hashListPrev preData ∧
      ∀ hash data, filled.lookup hash = some data → Addressed cfg involved hash data := by
  have prepared := refines.prepared call (List.mem_of_getElem? present) (by rw [current]; rfl)
  apply exists_preRead injective refines.blocks.addressed (refines.caches call.client) refines.contents
  · intro part listed
    have known := prepared.reads part.index (lastPart_ne_none_of_mem listed)
    rw [current] at known
    exact known
  · exact fun part listed data => prepared.stored part.index data (lastPart_ne_none_of_mem listed)

theorem WriteCall.Prepared.contents {call : WriteCall} {store : Store}
    (prepared : call.Prepared cfg involved file store) (nonempty : ∀ job ∈ call.jobs, 0 < job.data.length)
    (contents : ∀ index data, file.content index = some data → data ∈ involved) {index : Nat} {data : Bytes}
    (isContent : (file.writeBatch cfg.blockSize call.jobs).content index = some data) : data ∈ involved := by
  cases last : lastPart cfg.blockSize call.jobs index with
  | none =>
      rw [content_writeBatch_of_none last] at isContent
      exact contents index data isContent
  | some part =>
      rw [content_writeBatch_of_some last] at isContent
      rw [← Option.some.inj isContent]
      exact prepared.new part (lastPart_eq_some cfg.blockSize_pos nonempty last).1

theorem WriteCall.Prepared.published {call : WriteCall} {store : Store}
    (prepared : call.Prepared cfg involved file store) (nonempty : ∀ job ∈ call.jobs, 0 < job.data.length)
    (wellFormed : file.WellFormed cfg.blockSize) {hashListPrev : BlockHashes} {preData filled : BlocksData}
    (read : PreRead cfg call.jobs file hashListPrev preData)
    (sound : ∀ hash data, filled.lookup hash = some data → Addressed cfg involved hash data)
    {hash : TiFsHash} {data : Bytes}
    (found : ((makeNewBlocks cfg call.jobs hashListPrev preData).newBlocks.lookup hash).or (filled.lookup hash) =
      some data) : Addressed cfg involved hash data := by
  cases isNew : (makeNewBlocks cfg call.jobs hashListPrev preData).newBlocks.lookup hash with
  | none =>
      rw [isNew, Option.none_or] at found
      exact sound hash data found
  | some new =>
      rw [isNew, Option.some_or] at found
      obtain rfl := Option.some.inj found
      obtain ⟨isHash, listed⟩ :=
        (published_makeNewBlocks cfg call.jobs hashListPrev preData).addressed hash new isNew
      obtain ⟨content, inContents, rfl⟩ := List.mem_map.mp listed
      obtain ⟨part, isPart, rfl⟩ := List.mem_map.mp inContents
      refine ⟨?_, isHash⟩
      simp only [partContent_eq_patched nonempty wellFormed read isPart]
      exact prepared.new part isPart

theorem WriteCall.Prepared.congr {call : WriteCall} {store : Store} {later : FileMap}
    (prepared : call.Prepared cfg involved file store)
    (unchanged : ∀ index, call.Touches cfg index → later.content index = file.content index) :
    call.Prepared cfg involved later store where
  reads := by
    intro index touched
    have known := prepared.reads index touched
    cases phase : call.phase with
    | readHashes remaining previous =>
        rw [phase] at known
        simp only [CallPhase.ReadsTo, unchanged index touched]
        exact known
    | readPreData previous =>
        rw [phase] at known
        simp only [CallPhase.ReadsTo, unchanged index touched]
        exact known
    | _ => trivial
  stored := by
    intro index data touched isContent
    rw [unchanged index touched] at isContent
    exact prepared.stored index data touched isContent
  new := by
    intro part listed
    have same := unchanged part.index (lastPart_ne_none_of_mem listed)
    simp only [FileMap.patched, same]
    exact prepared.new part listed

theorem CallPhase.active_of_reading {phase : CallPhase} (reading : phase.isReading) : phase.isActive := by
  cases phase with
  | returned result => cases reading
  | _ => rfl

/-- The moment at which a call takes effect. -/
theorem CallsRefine.spawnTasks (refines : CallsRefine ino involved file state)
    (injective : Set.InjOn cfg.calculateHash involved) {i : Nat} {call : WriteCall}
    (present : state.calls[i]? = some call) {hashListPrev : BlockHashes}
    (current : call.phase = .readPreData hashListPrev) {preData filled : BlocksData}
    (read : PreRead cfg call.jobs file hashListPrev preData)
    (sound : ∀ hash data, filled.lookup hash = some data → Addressed cfg involved hash data) :
    CallsRefine ino involved (file.writeBatch cfg.blockSize call.jobs)
      (state.spawnTasks i call hashListPrev preData filled) := by
  have inCalls := List.mem_of_getElem? present
  have bound := (List.getElem?_eq_some_iff.mp present).1
  obtain ⟨isIno, nonempty⟩ := refines.calls call inCalls
  have reading : call.phase.isReading := by
    rw [current]
    rfl
  have prepared := refines.prepared call inCalls reading
  have blocks : Involved cfg call.jobs file involved := ⟨injective, refines.contents, prepared.new⟩
  have planned := writePlan_planned nonempty refines.wellFormed read blocks
  have tasksOf := tasksOf_writeTasks ino (writePlan cfg call.jobs hashListPrev preData)
  -- Blocks of other calls are not touched by this one.
  have kept : ∀ (j : Nat) (other : WriteCall), state.calls[j]? = some other → i ≠ j →
      other.phase.isActive → ∀ index, other.Touches cfg index →
      (file.writeBatch cfg.blockSize call.jobs).content index = file.content index := by
    intro j other isOther different active index touched
    have untouched := refines.apart j i other call isOther present (Ne.symm different) active
      (by rw [current]; rfl) index touched
    exact content_writeBatch_of_none (not_not.mp untouched)
  constructor
  · simp only [WriteSystem.spawnTasks, isIno]
    exact refines.blocks.spawn tasksOf planned
      (fun group member => writePlan_involved nonempty refines.wellFormed read blocks member)
      fun op member write listed => refines.unpending present reading member listed
  · exact wellFormed_writeBatch cfg.blockSize_pos nonempty refines.wellFormed
  · intro index data isContent
    exact prepared.contents nonempty refines.contents isContent
  · intro client hash data found
    simp only [WriteSystem.spawnTasks] at found
    by_cases same : client = call.client
    · subst same
      rw [Function.update_self, lookup_extend_entries] at found
      exact prepared.published nonempty refines.wellFormed read sound found
    · rw [Function.update_of_ne same] at found
      exact refines.caches client hash data found
  · intro other member
    rcases List.mem_or_eq_of_mem_set member with earlier | rfl
    · exact refines.calls other earlier
    · exact refines.calls call inCalls
  · intro j k first second isFirst isSecond different firstActive secondActive index
    have old : ∀ (l : Nat) (other : WriteCall), (state.spawnTasks i call hashListPrev preData
        filled).calls[l]? = some other → other.phase.isActive → ∃ before : WriteCall,
        state.calls[l]? = some before ∧ before.jobs = other.jobs ∧ before.phase.isActive := by
      intro l other found active
      rcases getElem?_set_cases found with ⟨rfl, rfl⟩ | ⟨_, earlier⟩
      · exact ⟨call, present, rfl, by rw [current]; rfl⟩
      · exact ⟨other, earlier, rfl, active⟩
    obtain ⟨one, wasFirst, sameFirst, oneActive⟩ := old j first isFirst firstActive
    obtain ⟨two, wasSecond, sameSecond, twoActive⟩ := old k second isSecond secondActive
    have disjoint := refines.apart j k one two wasFirst wasSecond different oneActive twoActive index
    simp only [WriteCall.Touches, sameFirst, sameSecond] at disjoint
    exact disjoint
  · intro k op found running
    simp only [WriteSystem.spawnTasks] at found ⊢
    by_cases older : k < state.blocks.ops.length
    · rw [List.getElem?_append_left older] at found
      obtain ⟨j, owner, ops, wasModified, isOwner, isWriting, owns, touches⟩ :=
        refines.owners k op found running
      have different : i ≠ j := by
        intro same
        rw [same, isOwner] at present
        obtain rfl := Option.some.inj present
        rw [current] at isWriting
        cases isWriting
      refine ⟨j, owner, ops, wasModified, ?_, isWriting, owns, touches⟩
      rw [List.getElem?_set_ne different]
      exact isOwner
    · rw [List.getElem?_append_right (Nat.le_of_not_lt older)] at found
      obtain ⟨inside, _⟩ := List.getElem?_eq_some_iff.mp found
      rw [List.length_map] at inside
      obtain ⟨task, inTasks, rfl⟩ := List.mem_map.mp (List.mem_of_getElem? found)
      rw [isIno] at inTasks
      refine ⟨i, _, _, _, List.getElem?_set_self bound, rfl, ?_, ?_⟩
      · rw [List.mem_range'_1]
        omega
      · intro write listed
        obtain ⟨group, inPlan, id, isId, rfl⟩ := mem_pendingWrites listed
        exact (planned.written group (tasksOf.only task inTasks group inPlan) id isId).1
  · intro other member ops wasModified isWriting k owned
    simp only [WriteSystem.spawnTasks, List.length_append, List.length_map]
    rcases List.mem_or_eq_of_mem_set member with earlier | rfl
    · have inside := refines.valid other earlier ops wasModified isWriting k owned
      omega
    · obtain ⟨rfl, _⟩ := CallPhase.writing.inj isWriting
      rw [List.mem_range'_1] at owned
      exact owned.2
  · intro other member isReading
    obtain ⟨j, found⟩ := List.mem_iff_getElem?.mp member
    rcases getElem?_set_cases found with ⟨rfl, rfl⟩ | ⟨different, isOther⟩
    · cases isReading
    · have unchanged := kept j other isOther different (CallPhase.active_of_reading isReading)
      exact (refines.prepared other (List.mem_of_getElem? isOther) isReading).congr unchanged
  · intro other member result isReturned
    rcases List.mem_or_eq_of_mem_set member with earlier | rfl
    · exact refines.succeeded other earlier result isReturned
    · cases isReturned

structure StartAllowed (cfg : TiFsConfig) (ino : StorageIno) (involved : Set Bytes) (file : FileMap)
    (state : WriteSystem cfg) (jobs : List WriteTaskData) : Prop where
  nonempty : ∀ job ∈ jobs, 0 < job.data.length
  apart : ∀ call ∈ state.calls, call.phase.isActive → ∀ index, call.Touches cfg index →
    lastPart cfg.blockSize jobs index = none
  stored : ∀ index data, lastPart cfg.blockSize jobs index ≠ none → file.content index = some data →
    (blockData state.blocks.store (cfg.calculateHash data)).isSome
  new : ∀ part ∈ writeParts cfg.blockSize jobs, file.patched part ∈ involved

theorem CallsRefine.start (refines : CallsRefine ino involved file state) (client : Nat)
    {jobs : List WriteTaskData} (allowed : StartAllowed cfg ino involved file state jobs) :
    CallsRefine ino involved file
      { state with calls := state.calls ++ [WriteCall.start cfg client ino jobs] } := by
  have oldOrNew : ∀ (j : Nat) (other : WriteCall),
      (state.calls ++ [WriteCall.start cfg client ino jobs])[j]? = some other →
      state.calls[j]? = some other ∨
        j = state.calls.length ∧ other = WriteCall.start cfg client ino jobs := by
    intro j other found
    by_cases older : j < state.calls.length
    · rw [List.getElem?_append_left older] at found
      exact Or.inl found
    · rw [List.getElem?_append_right (Nat.le_of_not_lt older)] at found
      obtain ⟨inside, isOther⟩ := List.getElem?_eq_some_iff.mp found
      simp only [List.length_singleton] at inside
      refine Or.inr ⟨by omega, ?_⟩
      rw [← isOther]
      simp
  constructor
  · exact refines.blocks
  · exact refines.wellFormed
  · exact refines.contents
  · exact refines.caches
  · intro call member
    rcases List.mem_append.mp member with old | new
    · exact refines.calls call old
    · rw [List.mem_singleton.mp new]
      exact ⟨rfl, allowed.nonempty⟩
  · intro i j first second isFirst isSecond different firstActive secondActive index touched
    rcases oldOrNew i first isFirst with oldFirst | ⟨atFirst, rfl⟩
    · rcases oldOrNew j second isSecond with oldSecond | ⟨_, rfl⟩
      · exact refines.apart i j first second oldFirst oldSecond different firstActive secondActive
          index touched
      · exact not_not.mpr
          (allowed.apart first (List.mem_of_getElem? oldFirst) firstActive index touched)
    · rcases oldOrNew j second isSecond with oldSecond | ⟨atSecond, _⟩
      · intro alsoTouched
        exact touched
          (allowed.apart second (List.mem_of_getElem? oldSecond) secondActive index alsoTouched)
      · exact absurd (atFirst.trans atSecond.symm) different
  · intro k op found running
    obtain ⟨j, owner, ops, wasModified, isOwner, rest⟩ := refines.owners k op found running
    refine ⟨j, owner, ops, wasModified, ?_, rest⟩
    rw [List.getElem?_append_left (List.getElem?_eq_some_iff.mp isOwner).1]
    exact isOwner
  · intro call member ops wasModified isWriting
    rcases List.mem_append.mp member with old | new
    · exact refines.valid call old ops wasModified isWriting
    · rw [List.mem_singleton.mp new] at isWriting
      cases isWriting
  · intro call member reading
    rcases List.mem_append.mp member with old | new
    · exact refines.prepared call old reading
    · rw [List.mem_singleton.mp new]
      exact ⟨fun index touched => start_reads client ino allowed.nonempty file touched,
        allowed.stored, allowed.new⟩
  · intro call member result isReturned
    rcases List.mem_append.mp member with old | new
    · exact refines.succeeded call old result isReturned
    · rw [List.mem_singleton.mp new] at isReturned
      cases isReturned

/-- The jobs that take effect with an event. -/
def WriteSystem.takesEffect (state : WriteSystem cfg) : WriteEvent → Option (List WriteTaskData)
  | .proceed i => (state.calls[i]?).bind fun call =>
      match call.phase with
      | .readPreData _ => some call.jobs
      | _ => none
  | _ => none

def WriteSystem.fileAfter (state : WriteSystem cfg) (event : WriteEvent) (file : FileMap) : FileMap :=
  match state.takesEffect event with
  | some jobs => file.writeBatch cfg.blockSize jobs
  | none => file

/-- Every step is a step of the file or changes nothing about it. -/
theorem CallsRefine.step (injective : Set.InjOn cfg.calculateHash involved)
    (refines : CallsRefine ino involved file state) {event : WriteEvent} {after : WriteSystem cfg}
    (taken : state.Step event after)
    (allowed : ∀ client other jobs, event = .start client other jobs →
      other = ino ∧ StartAllowed cfg ino involved file state jobs) :
    CallsRefine ino involved (state.fileAfter event file) after := by
  unfold WriteSystem.Step WriteSystem.step at taken
  cases event with
  | start client other jobs =>
      obtain ⟨rfl, conditions⟩ := allowed client other jobs rfl
      obtain rfl := Option.some.inj taken
      exact refines.start client conditions
  | transact k ambient =>
      simp only [Option.map_eq_some_iff] at taken
      obtain ⟨blocks, advanced, rfl⟩ := taken
      exact refines.transact advanced
  | evict client hash =>
      obtain rfl := Option.some.inj taken
      exact refines.evict client hash
  | proceed i =>
      obtain ⟨call, present, proceeded⟩ := Option.bind_eq_some_iff.mp taken
      have effect : state.fileAfter (.proceed i) file =
          match call.phase with
          | .readPreData _ => file.writeBatch cfg.blockSize call.jobs
          | _ => file := by
        simp only [WriteSystem.fileAfter, WriteSystem.takesEffect, present, Option.bind_some]
        cases call.phase <;> rfl
      rw [effect]
      unfold WriteSystem.proceed at proceeded
      split at proceeded
      · next hashListPrev current =>
          obtain rfl := Option.some.inj proceeded
          rw [current]
          exact refines.allRead present current
      · next range rest hashListPrev current =>
          obtain ⟨found, ran, next⟩ := refines.readRange present current
          rw [ran] at proceeded
          obtain rfl := Option.some.inj proceeded
          rw [current]
          exact next
      · next hashListPrev current =>
          obtain ⟨preData, filled, ran, read, sound⟩ := refines.preData injective present current
          rw [ran] at proceeded
          obtain rfl := Option.some.inj proceeded
          rw [current]
          exact refines.spawnTasks injective present current read sound
      · next ops wasModified current =>
          split at proceeded
          · next outcomes ended =>
              obtain ⟨isOk, next⟩ := refines.return present current ended
              rw [isOk] at proceeded
              obtain rfl := Option.some.inj proceeded
              rw [current]
              exact next
          · cases proceeded
      · cases proceeded

end Step

end TiFs
