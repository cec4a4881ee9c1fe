import TiFs.SnapshotReads

/-! Blocks lie under their own hashes, in the store and in the block caches, along
every run of write calls; a request of a call or of one of its tasks may fail at any
time. -/

namespace TiFs

open KeyValue Tables

inductive FaultyEvent where
  | work (event : WriteEvent)
  | failTask (op : Nat) (issue : FsError)
  | failCall (call : Nat) (issue : FsError)

namespace WriteSystem

variable {cfg : TiFsConfig}

/-- A request that fails ends its task or its call with the error. -/
def faultyStep (state : WriteSystem cfg) : FaultyEvent → Option (WriteSystem cfg)
  | .work event => state.step event
  | .failTask k issue => (state.blocks.ops[k]?).map fun _ =>
      { state with blocks := ⟨state.blocks.store, state.blocks.ops.set k (.ended (some issue))⟩ }
  | .failCall i issue => (state.calls[i]?).map fun call =>
      state.setPhase i call (.returned (.error issue))

def FaultyStep (before : WriteSystem cfg) (event : FaultyEvent) (after : WriteSystem cfg) : Prop :=
  before.faultyStep event = some after

end WriteSystem

def CallPhase.hashListPrev : CallPhase → BlockHashes
  | .readHashes _ hashListPrev => hashListPrev
  | .readPreData hashListPrev => hashListPrev
  | _ => ∅

/-- What keeps the blocks under their hashes: the hashes that calls have read are
whole, and the tasks upload blocks of their plans. -/
structure ContentAddressed {cfg : TiFsConfig} (state : WriteSystem cfg) : Prop where
  stored : ∀ hash data, blockData state.blocks.store hash = some data →
    Addressed cfg Set.univ hash data
  cached : ∀ client hash data, (state.caches client).lookup hash = some data →
    Addressed cfg Set.univ hash data
  sound : ∀ op ∈ state.blocks.ops, op.Sound
  lengths : ∀ call ∈ state.calls, ∀ index hash, call.phase.hashListPrev.lookup index = some hash →
    hash.length = cfg.hashLen

theorem Op.within_univ {cfg : TiFsConfig} (op : Op cfg) : op.Within Set.univ := by
  cases op with
  | write task => exact fun _ _ => Set.mem_univ _
  | clear task => trivial
  | clone task => trivial
  | ended failure => trivial

section NewBlocks

variable (cfg : TiFsConfig) (jobs : List WriteTaskData) (hashListPrev : BlockHashes)
  (preData : BlocksData)

theorem newBlockIndexHash_mem {index : Nat} {hash : TiFsHash}
    (found : (makeNewBlocks cfg jobs hashListPrev preData).newBlockIndexHash.lookup index = some hash) :
    hash ∈ (makeNewBlocks cfg jobs hashListPrev preData).newBlocks := by
  rw [lookup_newBlockIndexHash] at found
  obtain ⟨part, last, rfl⟩ := Option.map_eq_some_iff.mp found
  have listed := List.mem_of_mem_filter (List.mem_of_getLast? last)
  exact (published_makeNewBlocks cfg jobs hashListPrev preData).present
    (part.index, partContent cfg hashListPrev preData part) (List.mem_map.mpr ⟨part, listed, rfl⟩)

theorem lookup_group {group : BlockGroup}
    (listed : group ∈ blockGroups hashListPrev (makeNewBlocks cfg jobs hashListPrev preData)) :
    (makeNewBlocks cfg jobs hashListPrev preData).newBlocks.lookup group.hash = some group.data := by
  obtain ⟨_, ⟨index, changed⟩, isData⟩ := mem_blockGroups listed
  have isNew := ((lookup_changedBlocks hashListPrev _ index group.hash).mp changed).1
  have present := newBlockIndexHash_mem cfg jobs hashListPrev preData isNew
  obtain ⟨data, found⟩ := Option.isSome_iff_exists.mp (AList.lookup_isSome.mpr present)
  rw [isData, found]
  rfl

end NewBlocks

namespace ContentAddressed

variable {cfg : TiFsConfig} {state : WriteSystem cfg}

theorem begun {store : Store} {caches : Nat → BlocksData}
    (stored : ∀ hash data, blockData store hash = some data → cfg.calculateHash data = hash)
    (cached : ∀ client hash data, (caches client).lookup hash = some data →
      cfg.calculateHash data = hash) :
    ContentAddressed (⟨⟨store, []⟩, caches, []⟩ : WriteSystem cfg) where
  stored hash data found := ⟨Set.mem_univ _, stored hash data found⟩
  cached client hash data found := ⟨Set.mem_univ _, cached client hash data found⟩
  sound _ member := absurd member List.not_mem_nil
  lengths _ member := absurd member List.not_mem_nil

theorem setPhase (holds : ContentAddressed state) (i : Nat) (call : WriteCall) {phase : CallPhase}
    (lengths : ∀ index hash, phase.hashListPrev.lookup index = some hash → hash.length = cfg.hashLen) :
    ContentAddressed (state.setPhase i call phase) := by
  refine ⟨holds.stored, holds.cached, holds.sound, ?_⟩
  intro other member
  rcases List.mem_or_eq_of_mem_set member with old | isNew
  · exact holds.lengths other old
  · rw [isNew]
    exact lengths

theorem withCache (holds : ContentAddressed state) (client : Nat) {cache : BlocksData}
    (cached : ∀ hash data, cache.lookup hash = some data → Addressed cfg Set.univ hash data) :
    ContentAddressed { state with caches := Function.update state.caches client cache } := by
  refine ⟨holds.stored, ?_, holds.sound, holds.lengths⟩
  intro other hash data found
  simp only at found
  by_cases same : other = client
  · rw [same, Function.update_self] at found
    exact cached hash data found
  · rw [Function.update_of_ne same] at found
    exact holds.cached other hash data found

theorem withBlocks (holds : ContentAddressed state) {blocks : BlockSystem cfg}
    (stored : ∀ hash data, blockData blocks.store hash = some data → Addressed cfg Set.univ hash data)
    (sound : ∀ op ∈ blocks.ops, op.Sound) : ContentAddressed { state with blocks := blocks } :=
  ⟨stored, holds.cached, sound, holds.lengths⟩

/-- The next range of hashes: those of a wrong length are left out of a scan. -/
theorem readRange (holds : ContentAddressed state) {i : Nat} {call : WriteCall} (member : call ∈ state.calls)
    {range : Nat × Nat} {rest : List (Nat × Nat)} {hashListPrev : BlockHashes}
    (current : call.phase = .readHashes (range :: rest) hashListPrev) {after : WriteSystem cfg}
    (taken : state.proceed i call = some after) : ContentAddressed after := by
  obtain ⟨found, ran, inFound⟩ := readRange_spec cfg state.blocks.store call.ino range
  simp only [WriteSystem.proceed, current, ran] at taken
  obtain rfl := Option.some.inj taken
  apply holds.setPhase
  intro index hash isHash
  simp only [CallPhase.hashListPrev] at isHash
  rw [lookup_extend_entries, inFound] at isHash
  rcases Option.or_eq_some_iff.mp isHash with isScanned | ⟨_, earlier⟩
  · split at isScanned
    · exact scanned_length isScanned
    · cases isScanned
  · apply holds.lengths call member index hash
    rw [current]
    exact earlier

theorem spawnTasks (holds : ContentAddressed state) (i : Nat) (call : WriteCall)
    (hashListPrev : BlockHashes) (preData : BlocksData) {cache : BlocksData}
    (cached : ∀ hash data, cache.lookup hash = some data → Addressed cfg Set.univ hash data) :
    ContentAddressed (state.spawnTasks i call hashListPrev preData cache) := by
  have filled : ∀ hash data, (extend cache
      ((makeNewBlocks cfg call.jobs hashListPrev preData).newBlocks.entries.map
        fun entry => (entry.1, entry.2))).lookup hash = some data →
      Addressed cfg Set.univ hash data := by
    intro hash data found
    rw [lookup_extend_entries] at found
    rcases Option.or_eq_some_iff.mp found with isNew | ⟨_, earlier⟩
    · exact ⟨Set.mem_univ _,
        ((published_makeNewBlocks cfg call.jobs hashListPrev preData).addressed hash data isNew).1⟩
    · exact cached hash data earlier
  constructor
  · exact holds.stored
  · exact (holds.withCache call.client filled).cached
  · intro op member
    rcases List.mem_append.mp member with old | isNew
    · exact holds.sound op old
    · obtain ⟨task, listed, rfl⟩ := List.mem_map.mp isNew
      simp only [writeTasks] at listed
      split at listed
      · rw [List.mem_singleton.mp listed]
        exact BlockSystem.Work.start_sound (.write call.ino _)
      · obtain ⟨group, _, rfl⟩ := List.mem_map.mp listed
        exact BlockSystem.Work.start_sound (.write call.ino _)
  · intro other member
    rcases List.mem_or_eq_of_mem_set member with old | isNew
    · exact holds.lengths other old
    · rw [isNew]
      exact fun _ _ found => by cases found

theorem readPreData (holds : ContentAddressed state) {i : Nat} {call : WriteCall}
    (member : call ∈ state.calls) {hashListPrev : BlockHashes}
    (current : call.phase = .readPreData hashListPrev) {after : WriteSystem cfg}
    (taken : state.proceed i call = some after) : ContentAddressed after := by
  have lengths : ∀ hash ∈ preDataHashRequest cfg call.jobs hashListPrev, hash.length = cfg.hashLen := by
    intro hash requested
    obtain ⟨_, _, part, _, found⟩ := mem_preDataHashRequest.mp requested
    apply holds.lengths call member part.index hash
    rw [current]
    exact found
  obtain ⟨preData, cache, ran, _, cached⟩ := cached_spec cfg Set.univ state.blocks.store
    (state.caches call.client) _ lengths holds.stored (holds.cached call.client)
  simp only [WriteSystem.proceed, current, ran] at taken
  obtain rfl := Option.some.inj taken
  exact holds.spawnTasks i call hashListPrev preData cached

theorem proceed (holds : ContentAddressed state) {i : Nat} {call : WriteCall}
    (member : call ∈ state.calls) {after : WriteSystem cfg}
    (taken : state.proceed i call = some after) : ContentAddressed after := by
  cases current : call.phase with
  | readHashes remaining hashListPrev =>
      cases remaining with
      | nil =>
          simp only [WriteSystem.proceed, current] at taken
          obtain rfl := Option.some.inj taken
          apply holds.setPhase
          intro index hash found
          apply holds.lengths call member index hash
          rw [current]
          exact found
      | cons range rest => exact holds.readRange member current taken
  | readPreData hashListPrev => exact holds.readPreData member current taken
  | writing ops wasModified =>
      simp only [WriteSystem.proceed, current] at taken
      split at taken
      · obtain rfl := Option.some.inj taken
        exact holds.setPhase i call fun _ _ found => by cases found
      · cases taken
  | returned result =>
      simp only [WriteSystem.proceed, current] at taken
      cases taken

theorem transact (holds : ContentAddressed state) {event : BlockEvent cfg} {blocks : BlockSystem cfg}
    (taken : state.blocks.Step event blocks) : ContentAddressed { state with blocks := blocks } := by
  apply holds.withBlocks
  · cases BlockSystem.effect_of_step taken with
    | spawned work => exact holds.stored
    | moved i ambient op next store present ran =>
        have sound := holds.sound op (List.mem_of_getElem? present)
        intro hash data found
        exact (Op.effect_of_step sound ran).1.addressed sound op.within_univ holds.stored found
    | failed i ambient op issue present ran => exact holds.stored
    | abandoned i op present => exact holds.stored
  · exact BlockSystem.sound_of_blockStep holds.sound taken

theorem faultyStep (holds : ContentAddressed state) {event : FaultyEvent} {after : WriteSystem cfg}
    (taken : state.FaultyStep event after) : ContentAddressed after := by
  unfold WriteSystem.FaultyStep WriteSystem.faultyStep at taken
  cases event with
  | work event =>
      cases event with
      | start client ino jobs =>
          obtain rfl := Option.some.inj taken
          refine ⟨holds.stored, holds.cached, holds.sound, ?_⟩
          intro call member
          rcases List.mem_append.mp member with old | isNew
          · exact holds.lengths call old
          · rw [List.mem_singleton.mp isNew]
            exact fun _ _ found => by cases found
      | proceed i =>
          obtain ⟨call, present, moved⟩ := Option.bind_eq_some_iff.mp taken
          exact holds.proceed (List.mem_of_getElem? present) moved
      | transact k ambient =>
          obtain ⟨blocks, moved, rfl⟩ := Option.map_eq_some_iff.mp taken
          exact holds.transact moved
      | evict client hash =>
          obtain rfl := Option.some.inj taken
          apply holds.withCache
          intro other data found
          exact holds.cached client other data (lookup_of_erase found)
  | failTask k issue =>
      obtain ⟨op, present, rfl⟩ := Option.map_eq_some_iff.mp taken
      apply holds.withBlocks
      · exact holds.stored
      intro other member
      rcases List.mem_or_eq_of_mem_set member with old | isNew
      · exact holds.sound other old
      · rw [isNew]
        trivial
  | failCall i issue =>
      obtain ⟨call, present, rfl⟩ := Option.map_eq_some_iff.mp taken
      exact holds.setPhase i call fun _ _ found => by cases found

end ContentAddressed

/-- Whatever a call has read, each hash it gives to a block is that of one of its new
blocks, its groups find their blocks, and each new block has its own hash. Along every
run the caches and the store hold blocks under their own hashes, if they do at first. -/
theorem blocks_content_addressed (cfg : TiFsConfig) (store : Store) (caches : Nat → BlocksData)
    (stored : ∀ hash data, blockData store hash = some data → cfg.calculateHash data = hash)
    (cached : ∀ client hash data, (caches client).lookup hash = some data →
      cfg.calculateHash data = hash) :
    (∀ (jobs : List WriteTaskData) (hashListPrev : BlockHashes) (preData : BlocksData) (new : NewBlocks),
      new = makeNewBlocks cfg jobs hashListPrev preData →
      (∀ index hash, new.newBlockIndexHash.lookup index = some hash → hash ∈ new.newBlocks) ∧
      (∀ group ∈ blockGroups hashListPrev new, new.newBlocks.lookup group.hash = some group.data) ∧
      ∀ hash data, new.newBlocks.lookup hash = some data → cfg.calculateHash data = hash) ∧
    ∀ state : WriteSystem cfg,
      Run WriteSystem.FaultyStep (fun _ _ => True) ⟨⟨store, []⟩, caches, []⟩ state →
      (∀ client hash data, (state.caches client).lookup hash = some data →
        cfg.calculateHash data = hash) ∧
      ∀ hash data, blockData state.blocks.store hash = some data → cfg.calculateHash data = hash := by
  constructor
  · rintro jobs hashListPrev preData new rfl
    refine ⟨?_, ?_, ?_⟩
    · intro index hash found
      exact newBlockIndexHash_mem cfg jobs hashListPrev preData found
    · intro group listed
      exact lookup_group cfg jobs hashListPrev preData listed
    · intro hash data found
      exact ((published_makeNewBlocks cfg jobs hashListPrev preData).addressed hash data found).1
  · intro state run
    have holds : ContentAddressed state := by
      refine Run.invariant ContentAddressed ?_ (ContentAddressed.begun stored cached) run
      intro before event after holds taken _
      exact holds.faultyStep taken
    exact ⟨fun client hash data found => (holds.cached client hash data found).2,
      fun hash data found => (holds.stored hash data found).2⟩

theorem WriteSystem.exists_faultyRun {cfg : TiFsConfig} (first : WriteSystem cfg)
    (events : List FaultyEvent) (check : WriteSystem cfg → Bool)
    (ran : (runAll (restrict (fun _ _ => True) WriteSystem.faultyStep) first events).any check = true) :
    ∃ last, Run WriteSystem.FaultyStep (fun _ _ => True) first last ∧ check last = true :=
  Run.of_restrict (fun _ _ _ taken => taken) events check ran

def oneWrite : List FaultyEvent :=
  [.work (.start 0 10 [⟨[7, 7], 0⟩]), .work (.proceed 0), .work (.proceed 0), .work (.proceed 0),
    .work (.transact 0 ⟨0, 0⟩), .work (.transact 0 ⟨0, 0⟩), .work (.transact 0 ⟨0, 0⟩)]

/-- The block of a write is stored and cached under its hash. -/
theorem blocks_content_addressed_written :
    ∃ state : WriteSystem (paddingConfig 2 (by decide)),
      Run WriteSystem.FaultyStep (fun _ _ => True) ⟨⟨newFile 10, []⟩, fun _ => ∅, []⟩ state ∧
      (state.caches 0).lookup (padHash 3 [7, 7]) = some [7, 7] ∧
      blockData state.blocks.store (padHash 3 [7, 7]) = some [7, 7] ∧
      ∀ hash data, blockData state.blocks.store hash = some data → padHash 3 data = hash := by
  obtain ⟨state, run, checked⟩ := WriteSystem.exists_faultyRun
    (⟨⟨newFile 10, []⟩, fun _ => ∅, []⟩ : WriteSystem (paddingConfig 2 (by decide))) oneWrite
    (fun state => (state.caches 0).lookup (padHash 3 [7, 7]) = some [7, 7] ∧
      blockData state.blocks.store (padHash 3 [7, 7]) = some [7, 7]) (by decide +kernel)
  obtain ⟨inCache, inStore⟩ := of_decide_eq_true checked
  have addressed := (blocks_content_addressed _ (newFile 10) (fun _ => ∅)
    (fun _ _ found => by cases found) (fun _ _ _ found => by cases found)).2 state run
  exact ⟨state, run, inCache, inStore, addressed.2⟩

end TiFs
