import TiFs.WriteCall

namespace TiFs

open KeyValue Tables

/-- One read: what the cache has dropped since the last one, and the requested hashes as
the scans of the mappings return them. -/
structure BlockRequest (cfg : TiFsConfig) where
  evicted : List TiFsHash
  hashList : List TiFsHash
  lengths : ∀ hash ∈ hashList, hash.length = cfg.hashLen

def evictAll (cache : BlocksData) (evicted : List TiFsHash) : BlocksData :=
  evicted.foldl (fun cache hash => cache.erase hash) cache

namespace BlockRequest

variable {cfg : TiFsConfig}

def serve (store : Store) (cache : BlocksData) (request : BlockRequest cfg) :
    Except FsError BlocksData × BlocksData :=
  hbGetBlockDataByHashesCached cfg request.hashList (evictAll cache request.evicted) store

def serveAll (store : Store) (cache : BlocksData) (requests : List (BlockRequest cfg)) : BlocksData :=
  requests.foldl (fun cache request => (request.serve store cache).2) cache

/-- The data stored under a hash has another hash. -/
def Corrupted (cfg : TiFsConfig) (store : Store) (hash : TiFsHash) : Prop :=
  ∃ data, blockData store hash = some data ∧ cfg.calculateHash data ≠ hash

def Unknown (cache : BlocksData) (requests : List (BlockRequest cfg)) (hash : TiFsHash) : Prop :=
  hash ∉ cache ∨ ∃ request ∈ requests, hash ∈ request.evicted

/-- A read has fetched the hash, and the cache has not dropped it since. -/
def Kept (cache : BlocksData) (requests : List (BlockRequest cfg)) (hash : TiFsHash) : Prop :=
  ∃ before fetch after, requests = before ++ fetch :: after ∧ hash ∈ fetch.hashList ∧
    Unknown cache (before ++ [fetch]) hash ∧ ∀ request ∈ after, hash ∉ request.evicted

theorem lookup_evictAll (cache : BlocksData) (evicted : List TiFsHash) (hash : TiFsHash) :
    (evictAll cache evicted).lookup hash = if hash ∈ evicted then none else cache.lookup hash := by
  unfold evictAll
  induction evicted generalizing cache with
  | nil => rw [List.foldl_nil, if_neg List.not_mem_nil]
  | cons head tail ih =>
      rw [List.foldl_cons, ih]
      by_cases inTail : hash ∈ tail
      · rw [if_pos inTail, if_pos (List.mem_cons_of_mem head inTail)]
      · rw [if_neg inTail]
        by_cases isHead : hash = head
        · rw [isHead, AList.lookup_erase, if_pos List.mem_cons_self]
        · rw [AList.lookup_erase_ne isHead, if_neg (by simp [isHead, inTail])]

theorem lookup_serve (store : Store) (cache : BlocksData) (request : BlockRequest cfg)
    (hash : TiFsHash) :
    (request.serve store cache).2.lookup hash =
      ((evictAll cache request.evicted).lookup hash).or
        (if hash ∈ request.hashList then blockData store hash else none) := by
  unfold serve hbGetBlockDataByHashesCached
  generalize evictAll cache request.evicted = present
  by_cases all : (request.hashList.filter fun hash => hash ∉ present).length = 0
  · simp only [if_pos all]
    by_cases requested : hash ∈ request.hashList
    · obtain ⟨data, hit⟩ := Option.isSome_iff_exists.mp (AList.lookup_isSome.mpr (mem_of_no_misses all requested))
      rw [hit, Option.some_or]
    · rw [if_neg requested, Option.or_none]
  · obtain ⟨blocks, fetched, inBlocks⟩ := fetch_spec cfg store
      (request.hashList.filter fun hash => hash ∉ present)
      fun hash member => request.lengths hash (List.mem_of_mem_filter member)
    have filled : (extend present (blocks.entries.map fun entry => (entry.1, entry.2))).lookup hash =
        (present.lookup hash).or (if hash ∈ request.hashList then blockData store hash else none) := by
      rw [lookup_extend_entries, inBlocks]
      cases hit : present.lookup hash with
      | none =>
          have missing : hash ∉ present := AList.lookup_eq_none.mp hit
          simp [missing]
      | some data =>
          have isPresent : hash ∈ present := AList.lookup_isSome.mp (by rw [hit]; rfl)
          simp [isPresent]
    simp only [if_neg all, fetched]
    split
    · exact filled
    · exact filled

/-- A validating read fails if it fetches a corrupted block, and otherwise returns what
the cache and the store have. -/
theorem serve_cases (validate : cfg.validateReadHashes = true) (store : Store) (cache : BlocksData)
    (request : BlockRequest cfg) :
    (∃ issue, (request.serve store cache).1 = .error issue ∧
      ∃ hash ∈ request.hashList, hash ∉ evictAll cache request.evicted ∧ Corrupted cfg store hash) ∨
    (∃ found, (request.serve store cache).1 = .ok found ∧
      (∀ hash ∈ request.hashList, hash ∉ evictAll cache request.evicted → ¬ Corrupted cfg store hash) ∧
      ∀ hash, found.lookup hash = if hash ∈ request.hashList then
        ((evictAll cache request.evicted).lookup hash).or (blockData store hash) else none) := by
  unfold serve hbGetBlockDataByHashesCached
  generalize evictAll cache request.evicted = present
  have inResult := lookup_collect_graph request.hashList fun hash => present.lookup hash
  by_cases all : (request.hashList.filter fun hash => hash ∉ present).length = 0
  · have cached : ∀ hash ∈ request.hashList, hash ∈ present := fun _ => mem_of_no_misses all
    right
    simp only [if_pos all]
    refine ⟨_, rfl, fun hash requested missing => absurd (cached hash requested) missing, ?_⟩
    intro hash
    rw [inResult]
    by_cases requested : hash ∈ request.hashList
    · obtain ⟨data, hit⟩ := Option.isSome_iff_exists.mp (AList.lookup_isSome.mpr (cached hash requested))
      rw [if_pos requested, if_pos requested, hit, Option.some_or]
    · rw [if_neg requested, if_neg requested]
  · obtain ⟨blocks, fetched, inBlocks⟩ := fetch_spec cfg store
      (request.hashList.filter fun hash => hash ∉ present)
      fun hash member => request.lengths hash (List.mem_of_mem_filter member)
    have blocks_iff : ∀ hash data, blocks.lookup hash = some data ↔
        (hash ∈ request.hashList ∧ hash ∉ present) ∧ blockData store hash = some data := by
      intro hash data
      rw [inBlocks]
      split
      · next listed =>
          have fetches : hash ∈ request.hashList ∧ hash ∉ present := by simpa using listed
          simp only [fetches, not_false_eq_true, and_self, true_and]
      · next unlisted =>
          have kept : ¬ (hash ∈ request.hashList ∧ hash ∉ present) := by simpa using unlisted
          simp only [reduceCtorEq, kept, false_and]
    simp only [if_neg all, fetched, validate]
    cases bad : (blocks.entries.map fun entry => (entry.1, entry.2)).find?
        (fun pair => decide (pair.1 ≠ cfg.calculateHash pair.2)) with
    | some pair =>
        left
        obtain ⟨entry, member, rfl⟩ := List.mem_map.mp (List.mem_of_find?_eq_some bad)
        obtain ⟨fetches, stored⟩ := (blocks_iff entry.1 entry.2).mp (AList.mem_lookup_iff.mpr member)
        have differs : entry.1 ≠ cfg.calculateHash entry.2 := by simpa using List.find?_some bad
        exact ⟨_, rfl, entry.1, fetches.1, fetches.2, entry.2, stored, differs.symm⟩
    | none =>
        right
        refine ⟨_, rfl, ?_, ?_⟩
        · rintro hash requested missing ⟨data, stored, differs⟩
          have inEntries := AList.mem_lookup_iff.mp
            ((blocks_iff hash data).mpr ⟨⟨requested, missing⟩, stored⟩)
          have fine := List.find?_eq_none.mp bad (hash, data) (List.mem_map.mpr ⟨_, inEntries, rfl⟩)
          exact differs (by simpa using fine : hash = cfg.calculateHash data).symm
        · intro hash
          rw [lookup_extend_entries, inBlocks, inResult]
          by_cases requested : hash ∈ request.hashList
          · cases hit : present.lookup hash with
            | none =>
                have missing : hash ∉ present := AList.lookup_eq_none.mp hit
                simp [requested, missing]
            | some data =>
                have isPresent : hash ∈ present := AList.lookup_isSome.mp (by rw [hit]; rfl)
                simp [requested, isPresent]
          · simp [requested]

section History

variable (store : Store) (cache : BlocksData)

theorem kept_snoc (requests : List (BlockRequest cfg)) (last : BlockRequest cfg) (hash : TiFsHash) :
    Kept cache (requests ++ [last]) hash ↔
      (Kept cache requests hash ∧ hash ∉ last.evicted) ∨
        (hash ∈ last.hashList ∧ Unknown cache (requests ++ [last]) hash) := by
  constructor
  · rintro ⟨before, fetch, after, whole, requested, unknown, stays⟩
    induction after using List.reverseRecOn with
    | nil =>
        right
        obtain ⟨rfl, same⟩ := List.append_inj' whole rfl
        obtain rfl := List.singleton_inj.mp same
        exact ⟨requested, unknown⟩
    | append_singleton front final _ =>
        left
        rw [← List.cons_append, ← List.append_assoc] at whole
        obtain ⟨rfl, same⟩ := List.append_inj' whole rfl
        obtain rfl := List.singleton_inj.mp same
        refine ⟨⟨before, fetch, front, rfl, requested, unknown, ?_⟩, stays last (by simp)⟩
        intro request member
        exact stays request (List.mem_append_left _ member)
  · rintro (⟨⟨before, fetch, after, rfl, requested, unknown, stays⟩, notDropped⟩ | ⟨requested, unknown⟩)
    · refine ⟨before, fetch, after ++ [last], by simp, requested, unknown, ?_⟩
      intro request member
      rcases List.mem_append.mp member with earlier | isLast
      · exact stays request earlier
      · rw [List.mem_singleton.mp isLast]
        exact notDropped
    · exact ⟨requests, last, [], rfl, requested, unknown, fun _ member => absurd member List.not_mem_nil⟩

theorem unknown_snoc (requests : List (BlockRequest cfg)) (last : BlockRequest cfg) (hash : TiFsHash) :
    Unknown cache (requests ++ [last]) hash ↔ Unknown cache requests hash ∨ hash ∈ last.evicted := by
  simp only [Unknown, List.mem_append, List.mem_singleton, or_assoc]
  constructor
  · rintro (missing | ⟨request, earlier | rfl, dropped⟩)
    · exact Or.inl missing
    · exact Or.inr (Or.inl ⟨request, earlier, dropped⟩)
    · exact Or.inr (Or.inr dropped)
  · rintro (missing | ⟨request, earlier, dropped⟩ | dropped)
    · exact Or.inl missing
    · exact Or.inr ⟨request, Or.inl earlier, dropped⟩
    · exact Or.inr ⟨last, Or.inr rfl, dropped⟩

/-- What a sequence of reads leaves under a hash: what it has fetched and kept, or what
was there at first. -/
theorem lookup_serveAll (requests : List (BlockRequest cfg)) (hash : TiFsHash) :
    (Kept cache requests hash → (serveAll store cache requests).lookup hash = blockData store hash) ∧
    (¬ Kept cache requests hash → Unknown cache requests hash →
      (serveAll store cache requests).lookup hash = none) ∧
    (¬ Kept cache requests hash → ¬ Unknown cache requests hash →
      (serveAll store cache requests).lookup hash = cache.lookup hash) := by
  induction requests using List.reverseRecOn with
  | nil =>
      refine ⟨?_, ?_, fun _ _ => rfl⟩
      · rintro ⟨before, fetch, after, whole, _⟩
        cases before <;> cases whole
      · rintro _ (missing | ⟨request, member, _⟩)
        · exact AList.lookup_eq_none.mpr missing
        · cases member
  | append_singleton front last ih =>
      obtain ⟨fetched, dropped, initial⟩ := ih
      have afterLast : (serveAll store cache (front ++ [last])).lookup hash =
          (if hash ∈ last.evicted then none else (serveAll store cache front).lookup hash).or
            (if hash ∈ last.hashList then blockData store hash else none) := by
        rw [← lookup_evictAll, ← lookup_serve, serveAll, List.foldl_append]
        rfl
      rw [kept_snoc, unknown_snoc, afterLast]
      by_cases gone : hash ∈ last.evicted
      · by_cases requested : hash ∈ last.hashList <;> simp [gone, requested]
      · by_cases kept : Kept cache front hash
        · rw [fetched kept]
          by_cases requested : hash ∈ last.hashList <;> simp [gone, kept, requested]
        · by_cases unknown : Unknown cache front hash
          · rw [dropped kept unknown]
            by_cases requested : hash ∈ last.hashList <;> simp [gone, kept, unknown, requested]
          · have known : hash ∈ cache := by
              by_contra missing
              exact unknown (Or.inl missing)
            obtain ⟨data, hit⟩ := Option.isSome_iff_exists.mp (AList.lookup_isSome.mpr known)
            rw [initial kept unknown, hit]
            simp [gone, kept, unknown]

end History

/-- A read that returns blocks returns those whose hashes were requested. -/
def ReturnsValid (store : Store) (cache : BlocksData) (earlier : List (BlockRequest cfg))
    (request : BlockRequest cfg) : Prop :=
  ∀ found, (request.serve store (serveAll store cache earlier)).1 = .ok found →
    ∀ hash data, found.lookup hash = some data → cfg.calculateHash data = hash

def Reuses (cache : BlocksData) (earlier : List (BlockRequest cfg)) (request : BlockRequest cfg)
    (hash : TiFsHash) : Prop :=
  Kept cache earlier hash ∧ hash ∉ request.evicted

def Fetches (cache : BlocksData) (earlier : List (BlockRequest cfg)) (request : BlockRequest cfg)
    (hash : TiFsHash) : Prop :=
  Unknown cache (earlier ++ [request]) hash ∧ ¬ Reuses cache earlier request hash

section Valid

variable {store : Store} {cache : BlocksData} {earlier : List (BlockRequest cfg)}
  {request : BlockRequest cfg} {hash : TiFsHash}

theorem lookup_reused (reuses : Reuses cache earlier request hash) :
    (evictAll (serveAll store cache earlier) request.evicted).lookup hash = blockData store hash := by
  rw [lookup_evictAll, if_neg reuses.2]
  exact (lookup_serveAll store cache earlier hash).1 reuses.1

theorem lookup_fetched (fetches : Fetches cache earlier request hash) :
    (evictAll (serveAll store cache earlier) request.evicted).lookup hash = none := by
  rw [lookup_evictAll]
  split
  · rfl
  · next stays =>
      have notKept : ¬ Kept cache earlier hash := fun kept => fetches.2 ⟨kept, stays⟩
      have unknown := ((unknown_snoc cache earlier request hash).mp fetches.1).resolve_right stays
      exact (lookup_serveAll store cache earlier hash).2.1 notKept unknown

theorem lookup_initial (known : ¬ Unknown cache (earlier ++ [request]) hash)
    (notReused : ¬ Reuses cache earlier request hash) :
    (evictAll (serveAll store cache earlier) request.evicted).lookup hash = cache.lookup hash := by
  rw [unknown_snoc, not_or] at known
  rw [lookup_evictAll, if_neg known.2]
  exact (lookup_serveAll store cache earlier hash).2.2 (fun kept => notReused ⟨kept, known.2⟩) known.1

theorem fetches_iff (corrupted : Corrupted cfg store hash) :
    hash ∉ evictAll (serveAll store cache earlier) request.evicted ↔
      Fetches cache earlier request hash := by
  rw [← AList.lookup_eq_none]
  constructor
  · intro missing
    have notReused : ¬ Reuses cache earlier request hash := by
      intro reuses
      obtain ⟨data, stored, _⟩ := corrupted
      rw [lookup_reused reuses, stored] at missing
      cases missing
    refine ⟨?_, notReused⟩
    by_contra known
    rw [lookup_initial known notReused] at missing
    exact known (Or.inl (AList.lookup_eq_none.mp missing))
  · exact lookup_fetched

theorem present_valid {data : Bytes}
    (cached : ∀ hash data, cache.lookup hash = some data → cfg.calculateHash data = hash)
    (fine : Corrupted cfg store hash → ¬ Reuses cache earlier request hash)
    (hit : (evictAll (serveAll store cache earlier) request.evicted).lookup hash = some data) :
    cfg.calculateHash data = hash := by
  by_cases reuses : Reuses cache earlier request hash
  · rw [lookup_reused reuses] at hit
    by_contra differs
    exact fine ⟨data, hit, differs⟩ reuses
  · by_cases unknown : Unknown cache (earlier ++ [request]) hash
    · rw [lookup_fetched ⟨unknown, reuses⟩] at hit
      cases hit
    · rw [lookup_initial unknown reuses] at hit
      exact cached hash data hit

end Valid

/-- With validation, and with a cache that is sound at first: a read returns valid blocks
or none exactly if none of its hashes is one whose corrupted block an earlier read has
left in the cache, or else if it fetches a corrupted block itself. -/
theorem returnsValid_iff (validate : cfg.validateReadHashes = true) (store : Store) (cache : BlocksData)
    (cached : ∀ hash data, cache.lookup hash = some data → cfg.calculateHash data = hash)
    (earlier : List (BlockRequest cfg)) (request : BlockRequest cfg) :
    ReturnsValid store cache earlier request ↔
      (∀ hash ∈ request.hashList, Corrupted cfg store hash → ¬ Reuses cache earlier request hash) ∨
      ∃ hash ∈ request.hashList, Corrupted cfg store hash ∧ Fetches cache earlier request hash := by
  rcases serve_cases validate store (serveAll store cache earlier) request with
    ⟨issue, failed, hash, requested, missing, corrupted⟩ | ⟨found, returned, intact, inFound⟩
  · constructor
    · intro _
      exact Or.inr ⟨hash, requested, corrupted, (fetches_iff corrupted).mp missing⟩
    · intro _ found returned
      rw [failed] at returned
      cases returned
  · constructor
    · intro valid
      left
      rintro hash requested ⟨data, stored, differs⟩ reuses
      apply differs
      apply valid found returned hash data
      rw [inFound, if_pos requested, lookup_reused reuses, stored, Option.some_or]
    · rintro (notReused | ⟨hash, requested, corrupted, fetches⟩)
      · intro other isOther hash data hit
        obtain rfl := Except.ok.inj (returned.symm.trans isOther)
        rw [inFound] at hit
        split at hit
        · next requested =>
            rcases Option.or_eq_some_iff.mp hit with present | ⟨missing, stored⟩
            · exact present_valid cached (notReused hash requested) present
            · by_contra differs
              exact intact hash requested (AList.lookup_eq_none.mp missing) ⟨data, stored, differs⟩
        · cases hit
      · exact absurd corrupted (intact hash requested ((fetches_iff corrupted).mpr fetches))

def damagedStore : Store :=
  applyAll ∅ [Mutation.put (.hashedBlock (padHash 3 [7, 7])) [7, 8],
    Mutation.put (.hashedBlock (padHash 3 [9, 9])) [9, 9]]

def ofBlock (data : Bytes) : BlockRequest (paddingConfig 2 Nat.two_pos) where
  evicted := []
  hashList := [padHash 3 data]
  lengths hash member := by
    rw [List.mem_singleton.mp member]
    exact padHash_length 3 data

/-- After a read of the damaged block has failed, one of the other block is valid. -/
theorem returnsValid_other_block :
    ReturnsValid damagedStore ∅ [ofBlock [7, 7]] (ofBlock [9, 9]) := by
  refine (returnsValid_iff rfl damagedStore ∅ (fun _ _ found => by cases found) [ofBlock [7, 7]]
    (ofBlock [9, 9])).mpr (Or.inl ?_)
  rintro hash requested ⟨data, stored, differs⟩ _
  rw [List.mem_singleton.mp requested] at stored differs
  have isData : blockData damagedStore (padHash 3 [9, 9]) = some [9, 9] := by decide +kernel
  obtain rfl := Option.some.inj (isData.symm.trans stored)
  exact differs rfl

/-- The second read of the damaged block returns it from the cache. -/
theorem damaged_block_returned :
    ¬ ∀ (cfg : TiFsConfig) (store : Store) (cache : BlocksData), cfg.validateReadHashes = true →
      (∀ hash data, cache.lookup hash = some data → cfg.calculateHash data = hash) →
      ∀ (earlier : List (BlockRequest cfg)) (request : BlockRequest cfg),
        ReturnsValid store cache earlier request := by
  intro claim
  have valid := claim (paddingConfig 2 Nat.two_pos) damagedStore ∅ rfl (fun _ _ found => by cases found)
    [ofBlock [7, 7]] (ofBlock [7, 7])
  have served : ((ofBlock [7, 7]).serve damagedStore
      (serveAll damagedStore ∅ [ofBlock [7, 7]])).1.toOption.bind
        (fun found => found.lookup (padHash 3 [7, 7])) = some [7, 8] := by decide +kernel
  cases ran : ((ofBlock [7, 7]).serve damagedStore (serveAll damagedStore ∅ [ofBlock [7, 7]])).1 with
  | error issue =>
      rw [ran] at served
      cases served
  | ok found =>
      rw [ran] at served
      have wrong := valid found ran (padHash 3 [7, 7]) [7, 8] served
      revert wrong
      decide

end BlockRequest

end TiFs
