import TiFs.FileMap

/-! `hb_write_data` as a machine: its reads, and the tasks it then hands to the
store. Any number of calls of any clients run interleaved; the block cache of a
client may drop entries at any time. -/

namespace TiFs

open KeyValue Tables

def hbGetBlockDataByHashes (cfg : TiFsConfig) (hashes : List TiFsHash) (store : Store) :
    Except FsError BlocksData :=
  (hashes.filterMap fun hash => (blockData store hash).map fun data => (hash, data)).foldlM
    (fun received pair =>
      match parseHash cfg.hashLen pair.1 with
      | some hash => .ok (received.insert hash pair.2)
      | none => .error (.unknownError
          ("Key with unexpected hash length: " ++ toString pair.1.length))) ∅

/-- The data of the hashes, and the client's cache afterwards. Fetched blocks
enter the cache before they are validated. -/
def hbGetBlockDataByHashesCached (cfg : TiFsConfig) (hashList : List TiFsHash) (cache : BlocksData)
    (store : Store) : Except FsError BlocksData × BlocksData :=
  let result : BlocksData :=
    collect (hashList.filterMap fun hash => (cache.lookup hash).map fun cached => (hash, cached))
  let uncachedBlockHashes := hashList.filter fun hash => hash ∉ cache
  if uncachedBlockHashes.length = 0 then (.ok result, cache)
  else
    match hbGetBlockDataByHashes cfg uncachedBlockHashes store with
    | .error issue => (.error issue, cache)
    | .ok uncachedBlocks =>
        let fetched := uncachedBlocks.entries.map fun entry => (entry.1, entry.2)
        let filled := extend cache fetched
        match cfg.validateReadHashes,
          fetched.find? fun pair => pair.1 ≠ cfg.calculateHash pair.2 with
        | true, some pair => (.error (.checksumMismatch pair.1 (cfg.calculateHash pair.2)), filled)
        | _, _ => (.ok (extend result fetched), filled)

inductive CallPhase where
  | readHashes (remaining : List (Nat × Nat)) (hashListPrev : BlockHashes)
  | readPreData (hashListPrev : BlockHashes)
  | writing (ops : List Nat) (wasModified : Bool)
  | returned (result : Except FsError Bool)

structure WriteCall where
  client : Nat
  ino : StorageIno
  jobs : List WriteTaskData
  phase : CallPhase

def WriteCall.start (cfg : TiFsConfig) (client : Nat) (ino : StorageIno) (jobs : List WriteTaskData) :
    WriteCall where
  client := client
  ino := ino
  jobs := jobs
  phase := .readHashes (cfg.rangeCollection ((bsList cfg jobs).map BlockSplitterWrite.getRange)) ∅

structure WriteSystem (cfg : TiFsConfig) where
  blocks : BlockSystem cfg
  caches : Nat → BlocksData
  calls : List WriteCall

def Op.outcome {cfg : TiFsConfig} : Op cfg → Option (Except FsError Unit)
  | .write task => if task.phase = .done then some (.ok ()) else none
  | .ended (some failure) => some (.error failure)
  | _ => none

def BlockSystem.outcomes {cfg : TiFsConfig} (state : BlockSystem cfg) (ops : List Nat) :
    Option (List (Except FsError Unit)) :=
  if ∀ k ∈ ops, ((state.ops[k]?).bind Op.outcome).isSome then
    some (ops.filterMap fun k => (state.ops[k]?).bind Op.outcome)
  else none

/-- A chunked upload is one task, otherwise every group has its own. -/
def writeTasks (cfg : TiFsConfig) (ino : StorageIno) (plan : WritePlan cfg) : List (WriteTask cfg) :=
  if cfg.chunkedBlockUpload then [⟨ino, plan, .increment⟩]
  else plan.groups.attach.map fun group => ⟨ino, plan.single group.1 group.2, .increment⟩

def failureOf : Except FsError Unit → Option FsError
  | .error issue => some issue
  | .ok () => none

/-- The results of parallel tasks are not looked at. -/
def callResult (cfg : TiFsConfig) (outcomes : List (Except FsError Unit)) (wasModified : Bool) :
    Except FsError Bool :=
  if cfg.chunkedBlockUpload then
    match outcomes.filterMap failureOf with
    | issue :: _ => .error issue
    | [] => .ok wasModified
  else .ok wasModified

inductive WriteEvent where
  | start (client : Nat) (ino : StorageIno) (jobs : List WriteTaskData)
  | proceed (call : Nat)
  | transact (op : Nat) (ambient : Ambient)
  | evict (client : Nat) (hash : TiFsHash)

namespace WriteSystem

variable {cfg : TiFsConfig}

def setPhase (state : WriteSystem cfg) (i : Nat) (call : WriteCall) (phase : CallPhase) :
    WriteSystem cfg :=
  { state with calls := state.calls.set i { call with phase := phase } }

def spawnTasks (state : WriteSystem cfg) (i : Nat) (call : WriteCall) (hashListPrev : BlockHashes)
    (preData cache : BlocksData) : WriteSystem cfg :=
  let new := makeNewBlocks cfg call.jobs hashListPrev preData
  let tasks := writeTasks cfg call.ino (writePlan cfg call.jobs hashListPrev preData)
  let wasModified : Bool := (changedBlocks hashListPrev new).keys.length > 0
  let ops := List.range' state.blocks.ops.length tasks.length
  { blocks := { state.blocks with ops := state.blocks.ops ++ tasks.map .write }
    caches := Function.update state.caches call.client
      (extend cache (new.newBlocks.entries.map fun entry => (entry.1, entry.2)))
    calls := state.calls.set i { call with phase := .writing ops wasModified } }

def proceed (state : WriteSystem cfg) (i : Nat) (call : WriteCall) : Option (WriteSystem cfg) :=
  match call.phase with
  | .readHashes [] hashListPrev => some (state.setPhase i call (.readPreData hashListPrev))
  | .readHashes (range :: rest) hashListPrev =>
      match atomically (hbGetBlockHashListByBlockRangeChunked cfg call.ino range) state.blocks.store with
      | .error issue => some (state.setPhase i call (.returned (.error issue)))
      | .ok (blockHashes, _) => some (state.setPhase i call (.readHashes rest
          (extend hashListPrev (blockHashes.entries.map fun entry => (entry.1, entry.2)))))
  | .readPreData hashListPrev =>
      match hbGetBlockDataByHashesCached cfg (preDataHashRequest cfg call.jobs hashListPrev)
        (state.caches call.client) state.blocks.store with
      | (.error issue, cache) => some ({ state with
          caches := Function.update state.caches call.client cache }.setPhase i call
            (.returned (.error issue)))
      | (.ok preData, cache) => some (state.spawnTasks i call hashListPrev preData cache)
  | .writing ops wasModified =>
      match state.blocks.outcomes ops with
      | some outcomes => some (state.setPhase i call (.returned (callResult cfg outcomes wasModified)))
      | none => none
  | .returned _ => none

def step (state : WriteSystem cfg) : WriteEvent → Option (WriteSystem cfg)
  | .start client ino jobs =>
      some { state with calls := state.calls ++ [WriteCall.start cfg client ino jobs] }
  | .proceed i => (state.calls[i]?).bind fun call => state.proceed i call
  | .transact k ambient =>
      (state.blocks.step (.advance k ambient)).map fun blocks => { state with blocks := blocks }
  | .evict client hash =>
      some { state with caches := Function.update state.caches client ((state.caches client).erase hash) }

def Step (before : WriteSystem cfg) (event : WriteEvent) (after : WriteSystem cfg) : Prop :=
  before.step event = some after

end WriteSystem

theorem lookup_of_evicted {caches : Nat → BlocksData} {client other : Nat} {hash key : TiFsHash} {data : Bytes}
    (found : ((Function.update caches client ((caches client).erase hash)) other).lookup key = some data) :
    (caches other).lookup key = some data := by
  by_cases same : other = client
  · subst same
    rw [Function.update_self] at found
    exact lookup_of_erase found
  · rw [Function.update_of_ne same] at found
    exact found

def scanned (cfg : TiFsConfig) (store : Store) (ino : StorageIno) (index : Nat) : Option TiFsHash :=
  (mapping store ⟨ino, index⟩).filter fun hash => hash.length = cfg.hashLen

theorem lookup_hashList (cfg : TiFsConfig) (store : Store) (ino : StorageIno) (lower upper : Nat) :
    ∃ found : BlockHashes,
      hbGetBlockHashListByBlockRange cfg ino (lower, upper) ⟨store, []⟩ = .ok (found, ⟨store, []⟩) ∧
      ∀ index : Nat, found.lookup index =
        if lower ≤ index ∧ index < upper then scanned cfg store ino index else none := by
  refine ⟨_, rfl, ?_⟩
  intro index
  have graph := lookup_collect_graph (List.range' lower (upper - lower))
    (scanned cfg store ino) index
  refine graph.trans ?_
  have inside : index ∈ List.range' lower (upper - lower) ↔ lower ≤ index ∧ index < upper := by
    rw [List.mem_range'_1]
    omega
  simp only [inside]

theorem chunkedLoop_spec (cfg : TiFsConfig) (store : Store) (ino : StorageIno) (rangeEnd fuel : Nat)
    (i : Nat) (result : BlockHashes) (enough : rangeEnd ≤ i + fuel) :
    ∃ found : BlockHashes, chunkedLoop cfg ino rangeEnd fuel i result ⟨store, []⟩ =
        .ok (found, ⟨store, []⟩) ∧
      ∀ index : Nat, found.lookup index =
        ((if i ≤ index ∧ index < rangeEnd then scanned cfg store ino index else none).or
          (result.lookup index)) := by
  induction fuel generalizing i result with
  | zero =>
      refine ⟨result, rfl, ?_⟩
      intro index
      rw [if_neg (by omega), Option.none_or]
  | succ fuel ih =>
      by_cases more : i < rangeEnd
      · have chunkLimit : 0 < maxTikvScanLimit := by decide
        have chunkEnd : i < min (i + maxTikvScanLimit) rangeEnd := by omega
        obtain ⟨chunk, first, inChunk⟩ :=
          lookup_hashList cfg store ino i (min (i + maxTikvScanLimit) rangeEnd)
        obtain ⟨found, rest, inFound⟩ := ih (min (i + maxTikvScanLimit) rangeEnd)
          (extend result (chunk.entries.map fun entry => (entry.1, entry.2))) (by omega)
        refine ⟨found, ?_, ?_⟩
        · rw [chunkedLoop, if_pos more, bind_ok first]
          exact rest
        · intro index
          rw [inFound, lookup_extend_entries, inChunk, ← Option.or_assoc]
          congr 1
          by_cases later : min (i + maxTikvScanLimit) rangeEnd ≤ index ∧ index < rangeEnd
          · rw [if_pos later, if_neg (by omega), if_pos (by omega), Option.or_none]
          · rw [if_neg later, Option.none_or]
            by_cases inside : i ≤ index ∧ index < min (i + maxTikvScanLimit) rangeEnd
            · rw [if_pos inside, if_pos (by omega)]
            · rw [if_neg inside, if_neg (by omega)]
      · refine ⟨result, ?_, ?_⟩
        · rw [chunkedLoop, if_neg more]
          rfl
        · intro index
          rw [if_neg (by omega), Option.none_or]

theorem readRange_spec (cfg : TiFsConfig) (store : Store) (ino : StorageIno) (range : Nat × Nat) :
    ∃ found : BlockHashes,
      atomically (hbGetBlockHashListByBlockRangeChunked cfg ino range) store = .ok (found, store) ∧
      ∀ index : Nat, found.lookup index =
        if range.1 ≤ index ∧ index < range.2 then scanned cfg store ino index else none := by
  obtain ⟨found, ran, inFound⟩ := chunkedLoop_spec cfg store ino range.2 (range.2 - range.1) range.1 ∅
    (by omega)
  refine ⟨found, atomically_eq_ok ran, ?_⟩
  intro index
  rw [inFound, lookup_empty, Option.or_none]

def Addressed (cfg : TiFsConfig) (involved : Set Bytes) (hash : TiFsHash) (data : Bytes) : Prop :=
  data ∈ involved ∧ cfg.calculateHash data = hash

theorem fetch_spec (cfg : TiFsConfig) (store : Store) (hashes : List TiFsHash)
    (lengths : ∀ hash ∈ hashes, hash.length = cfg.hashLen) :
    ∃ received : BlocksData, hbGetBlockDataByHashes cfg hashes store = .ok received ∧
      ∀ hash, received.lookup hash = if hash ∈ hashes then blockData store hash else none := by
  have folded : ∀ (rest : List TiFsHash) (received : BlocksData),
      (∀ hash ∈ rest, hash.length = cfg.hashLen) →
      (rest.filterMap fun hash => (blockData store hash).map fun data => (hash, data)).foldlM
        (fun received pair =>
          match parseHash cfg.hashLen pair.1 with
          | some hash => (.ok (received.insert hash pair.2) : Except FsError BlocksData)
          | none => .error (.unknownError
              ("Key with unexpected hash length: " ++ toString pair.1.length))) received =
        .ok (extend received
          (rest.filterMap fun hash => (blockData store hash).map fun data => (hash, data))) := by
    intro rest
    induction rest with
    | nil => exact fun received _ => rfl
    | cons head tail ih =>
        intro received fits
        have tailFits : ∀ hash ∈ tail, hash.length = cfg.hashLen :=
          fun hash member => fits hash (List.mem_cons_of_mem _ member)
        have parsed : parseHash cfg.hashLen head = some head := by
          have whole := parseHash_append (fits head (by simp)) []
          rwa [List.append_nil] at whole
        cases stored : blockData store head with
        | none =>
            rw [List.filterMap_cons_none (by rw [stored]; rfl)]
            exact ih received tailFits
        | some data =>
            simp only [List.filterMap_cons, stored, Option.map_some, List.foldlM_cons, parsed]
            exact ih (received.insert head data) tailFits
  refine ⟨_, folded hashes ∅ lengths, ?_⟩
  intro hash
  have graph := lookup_collect_graph hashes (blockData store) hash
  by_cases listed : hash ∈ hashes
  · rw [if_pos listed] at graph ⊢
    exact graph
  · rw [if_neg listed] at graph ⊢
    exact graph

theorem mem_of_no_misses {hashList : List TiFsHash} {cache : BlocksData} {hash : TiFsHash}
    (all : (hashList.filter fun hash => hash ∉ cache).length = 0) (requested : hash ∈ hashList) :
    hash ∈ cache := by
  have none := List.filter_eq_nil_iff.mp (List.eq_nil_of_length_eq_zero all) hash requested
  simpa using none

/-- With a sound cache and sound blocks the data of a hash comes from either of
them, and the cache stays sound. -/
theorem cached_spec (cfg : TiFsConfig) (involved : Set Bytes) (store : Store) (cache : BlocksData)
    (hashList : List TiFsHash) (lengths : ∀ hash ∈ hashList, hash.length = cfg.hashLen)
    (stored : ∀ hash data, blockData store hash = some data → Addressed cfg involved hash data)
    (cached : ∀ hash data, cache.lookup hash = some data → Addressed cfg involved hash data) :
    ∃ found filled : BlocksData,
      hbGetBlockDataByHashesCached cfg hashList cache store = (.ok found, filled) ∧
      (∀ hash ∈ hashList, found.lookup hash = (cache.lookup hash).or (blockData store hash)) ∧
      ∀ hash data, filled.lookup hash = some data → Addressed cfg involved hash data := by
  let result : BlocksData :=
    collect (hashList.filterMap fun hash => (cache.lookup hash).map fun cached => (hash, cached))
  have inResult : ∀ hash ∈ hashList, result.lookup hash = cache.lookup hash := by
    intro hash member
    have graph := lookup_collect_graph hashList (fun hash => cache.lookup hash) hash
    rw [if_pos member] at graph
    exact graph
  by_cases all : (hashList.filter fun hash => hash ∉ cache).length = 0
  · refine ⟨result, cache, ?_, ?_, cached⟩
    · simp only [hbGetBlockDataByHashesCached, if_pos all]
      rfl
    · intro hash member
      obtain ⟨data, hit⟩ := Option.isSome_iff_exists.mp (AList.lookup_isSome.mpr (mem_of_no_misses all member))
      rw [inResult hash member, hit, Option.some_or]
  · obtain ⟨blocks, fetched, inBlocks⟩ := fetch_spec cfg store
      (hashList.filter fun hash => hash ∉ cache)
      fun hash member => lengths hash (List.mem_of_mem_filter member)
    have fromStore : ∀ hash data, blocks.lookup hash = some data → blockData store hash = some data := by
      intro hash data hit
      rw [inBlocks] at hit
      split at hit
      · exact hit
      · cases hit
    have valid : (blocks.entries.map fun entry => (entry.1, entry.2)).find?
        (fun pair => decide (pair.1 ≠ cfg.calculateHash pair.2)) = none := by
      rw [List.find?_eq_none]
      intro pair member
      obtain ⟨entry, listed, rfl⟩ := List.mem_map.mp member
      have hit : blocks.lookup entry.1 = some entry.2 := AList.mem_lookup_iff.mpr listed
      simpa using (stored entry.1 entry.2 (fromStore _ _ hit)).2.symm
    refine ⟨extend result (blocks.entries.map fun entry => (entry.1, entry.2)),
      extend cache (blocks.entries.map fun entry => (entry.1, entry.2)), ?_, ?_, ?_⟩
    · simp only [hbGetBlockDataByHashesCached, if_neg all, fetched, valid]
      cases cfg.validateReadHashes <;> rfl
    · intro hash member
      rw [lookup_extend_entries, inBlocks, inResult hash member]
      cases hit : cache.lookup hash with
      | none =>
          have missing : hash ∉ cache := AList.lookup_eq_none.mp hit
          rw [if_pos (List.mem_filter.mpr ⟨member, by simpa using missing⟩), Option.or_none,
            Option.none_or]
      | some data =>
          have present : hash ∈ cache := AList.lookup_isSome.mp (by rw [hit]; rfl)
          rw [if_neg fun listed => by simp [present] at listed, Option.none_or, Option.some_or]
    · intro hash data hit
      rw [lookup_extend_entries] at hit
      cases inBoth : blocks.lookup hash with
      | none =>
          rw [inBoth, Option.none_or] at hit
          exact cached hash data hit
      | some other =>
          rw [inBoth, Option.some_or] at hit
          obtain rfl := Option.some.inj hit
          exact stored hash other (fromStore hash other inBoth)

end TiFs
