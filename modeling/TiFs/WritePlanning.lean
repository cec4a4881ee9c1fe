import TiFs.BlockOps
import TiFs.BlockSplitter

/-! What `hb_write_data` computes between its reads and its writes: the new
blocks of a list of jobs over the previous blocks, the unchanged ones dropped and
the others grouped by their hashes. -/

namespace TiFs

open Overlay Tables

/-- `HashedBlock::update_data_range_in_vec`. -/
def updateDataRangeInVec (startWritePos : Nat) (blockWriteData dest : Bytes) : Bytes :=
  overlay 0 startWritePos blockWriteData dest

structure UpdateIrregularBlock where
  blockSplitterData : BlockIndexAndData
  blockSplitterDataStartPosition : Nat
  originalDataHash : Option TiFsHash
  deriving DecidableEq, Repr

structure NewBlocks where
  newBlocks : BlocksData
  newBlockIndexHash : BlockHashes

def tryInsert (blocks : BlocksData) (hash : TiFsHash) (data : Bytes) : BlocksData :=
  if hash ∈ blocks then blocks else blocks.insert hash data

namespace UpdateIrregularBlock

/-- The original hash is also what the handler adds to the requested hashes. -/
def getAndAddOriginalBlockHash (blockSplitterData : BlockIndexAndData) (startPosition : Nat)
    (hashListPrev : BlockHashes) : UpdateIrregularBlock where
  blockSplitterData := blockSplitterData
  blockSplitterDataStartPosition := startPosition
  originalDataHash :=
    if blockSplitterData.data.length > 0 then hashListPrev.lookup blockSplitterData.blockIndex
    else none

def getAndModifyBlockAndPublishHash (cfg : TiFsConfig) (handler : UpdateIrregularBlock)
    (preData : BlocksData) (new : NewBlocks) : NewBlocks :=
  if handler.blockSplitterData.data.length > 0 then
    let original := handler.originalDataHash.bind fun hash => preData.lookup hash
    let modified := updateDataRangeInVec handler.blockSplitterDataStartPosition
      handler.blockSplitterData.data (original.getD [])
    let newHash := cfg.calculateHash modified
    ⟨tryInsert new.newBlocks newHash modified,
      new.newBlockIndexHash.insert handler.blockSplitterData.blockIndex newHash⟩
  else new

end UpdateIrregularBlock

section Plan

variable (cfg : TiFsConfig) (jobs : List WriteTaskData) (hashListPrev : BlockHashes)

def bsList : List BlockSplitterWrite :=
  jobs.map fun job => BlockSplitterWrite.new cfg.blockSize job.start job.data

def dataHandlers : List (UpdateIrregularBlock × UpdateIrregularBlock) :=
  (bsList cfg jobs).map fun bs =>
    (.getAndAddOriginalBlockHash bs.firstData bs.firstDataStartPosition hashListPrev,
      .getAndAddOriginalBlockHash bs.lastData 0 hashListPrev)

def preDataHashRequest : List TiFsHash :=
  ((dataHandlers cfg jobs hashListPrev).flatMap fun handlers =>
    handlers.1.originalDataHash.toList ++ handlers.2.originalDataHash.toList).dedup

def publishMidBlocks (new : NewBlocks) (bs : BlockSplitterWrite) : NewBlocks :=
  bs.midParts.foldl (fun new part =>
    let hash := cfg.calculateHash part.data
    ⟨new.newBlocks.insert hash part.data, new.newBlockIndexHash.insert part.index hash⟩) new

/-- All irregular parts first, then all full blocks; a later one replaces the
hash of an earlier one. -/
def makeNewBlocks (preData : BlocksData) : NewBlocks :=
  let irregular := (dataHandlers cfg jobs hashListPrev).foldl (fun new handlers =>
    handlers.2.getAndModifyBlockAndPublishHash cfg preData
      (handlers.1.getAndModifyBlockAndPublishHash cfg preData new)) ⟨∅, ∅⟩
  (bsList cfg jobs).foldl (publishMidBlocks cfg) irregular

/-- The new hashes without those of unchanged blocks. -/
def changedBlocks (new : NewBlocks) : BlockHashes :=
  eraseSame new.newBlockIndexHash hashListPrev.entries

def blockGroups (new : NewBlocks) : List BlockGroup :=
  (invert (changedBlocks hashListPrev new).entries).entries.map fun entry =>
    ⟨entry.1, (new.newBlocks.lookup entry.1).getD [], entry.2⟩

end Plan

def writeParts (blockSize : Nat) (jobs : List WriteTaskData) : List Part :=
  (jobs.flatMap fun job => (BlockSplitterWrite.new blockSize job.start job.data).irregularParts) ++
    jobs.flatMap fun job => (BlockSplitterWrite.new blockSize job.start job.data).midParts

/-- The part whose block is published last under an index. -/
def lastPart (blockSize : Nat) (jobs : List WriteTaskData) (index : Nat) : Option Part :=
  ((writeParts blockSize jobs).filter fun part => part.index = index).getLast?

section Parts

variable {blockSize : Nat} {jobs : List WriteTaskData}

theorem parts_of_empty (positive : 0 < blockSize) {job : WriteTaskData} (empty : job.data.length = 0)
    (part : Part) :
    part ∉ (BlockSplitterWrite.new blockSize job.start job.data).irregularParts ∧
      part ∉ (BlockSplitterWrite.new blockSize job.start job.data).midParts := by
  have noData : job.data = [] := List.eq_nil_of_length_eq_zero empty
  have noFull : ¬ 0 = blockSize := by omega
  constructor
  · rw [noData]
    simp [BlockSplitterWrite.irregularParts, BlockSplitterWrite.new, splitFirst, noFull]
  · intro listed
    obtain ⟨k, inside, _⟩ := mem_midParts.mp listed
    have noMid : (BlockSplitterWrite.new blockSize job.start job.data).midData.data = [] := by
      rw [noData]
      simp [BlockSplitterWrite.new, splitFirst, noFull]
    have none : divCeil 0 blockSize = 0 := by
      rw [divCeil, Nat.div_eq_of_lt (by omega)]
    rw [noMid, List.length_nil] at inside
    simp only [BlockSplitterWrite.new] at inside
    omega

theorem job_of_part (positive : 0 < blockSize) {part : Part} (listed : part ∈ writeParts blockSize jobs) :
    ∃ job ∈ jobs, 0 < job.data.length ∧ partAt blockSize job part.index = some part := by
  rw [writeParts, List.mem_append, List.mem_flatMap, List.mem_flatMap] at listed
  rcases listed with ⟨job, member, isPart⟩ | ⟨job, member, isPart⟩
  · have nonempty : 0 < job.data.length :=
      Nat.pos_of_ne_zero fun empty => (parts_of_empty positive empty part).1 isPart
    exact ⟨job, member, nonempty, ((mem_irregularParts_iff positive nonempty).mp isPart).1⟩
  · have nonempty : 0 < job.data.length :=
      Nat.pos_of_ne_zero fun empty => (parts_of_empty positive empty part).2 isPart
    exact ⟨job, member, nonempty, ((mem_midParts_iff positive nonempty).mp isPart).1⟩

theorem part_bound (positive : 0 < blockSize) {part : Part} (listed : part ∈ writeParts blockSize jobs) :
    part.position + part.data.length ≤ blockSize := by
  obtain ⟨job, _, _, found⟩ := job_of_part positive listed
  exact (partAt_bound found).2

theorem irregular_of_part (positive : 0 < blockSize) {part : Part}
    (listed : part ∈ writeParts blockSize jobs) (short : part.data.length < blockSize) :
    ∃ job ∈ jobs, part ∈ (BlockSplitterWrite.new blockSize job.start job.data).irregularParts := by
  obtain ⟨job, member, nonempty, found⟩ := job_of_part positive listed
  exact ⟨job, member, (mem_irregularParts_iff positive nonempty).mpr ⟨found, short⟩⟩

theorem mem_writeParts (positive : 0 < blockSize) (nonempty : ∀ job ∈ jobs, 0 < job.data.length)
    {part : Part} :
    part ∈ writeParts blockSize jobs ↔ ∃ job ∈ jobs, partAt blockSize job part.index = some part := by
  rw [writeParts, List.mem_append, List.mem_flatMap, List.mem_flatMap]
  constructor
  · rintro (⟨job, member, listed⟩ | ⟨job, member, listed⟩)
    · exact ⟨job, member, ((mem_irregularParts_iff positive (nonempty job member)).mp listed).1⟩
    · exact ⟨job, member, ((mem_midParts_iff positive (nonempty job member)).mp listed).1⟩
  · rintro ⟨job, member, found⟩
    have bound := partAt_bound found
    by_cases full : part.data.length = blockSize
    · exact Or.inr ⟨job, member, (mem_midParts_iff positive (nonempty job member)).mpr ⟨found, full⟩⟩
    · have less : part.data.length < blockSize := by omega
      exact Or.inl ⟨job, member,
        (mem_irregularParts_iff positive (nonempty job member)).mpr ⟨found, less⟩⟩

theorem lastPart_eq_none (positive : 0 < blockSize) (nonempty : ∀ job ∈ jobs, 0 < job.data.length)
    (index : Nat) :
    lastPart blockSize jobs index = none ↔ ∀ job ∈ jobs, partAt blockSize job index = none := by
  rw [lastPart, List.getLast?_eq_none_iff, List.filter_eq_nil_iff]
  constructor
  · intro absent job member
    cases found : partAt blockSize job index with
    | none => rfl
    | some part =>
        have same := partAt_index found
        have listed := (mem_writeParts positive nonempty).mpr ⟨job, member, by rw [same]; exact found⟩
        exact absurd (by simpa using same) (absent part listed)
  · intro untouched part listed same
    obtain ⟨job, member, found⟩ := (mem_writeParts positive nonempty).mp listed
    rw [of_decide_eq_true same, untouched job member] at found
    cases found

theorem lastPart_eq_some (positive : 0 < blockSize) (nonempty : ∀ job ∈ jobs, 0 < job.data.length)
    {index : Nat} {part : Part} (found : lastPart blockSize jobs index = some part) :
    part ∈ writeParts blockSize jobs ∧ ∃ job ∈ jobs, partAt blockSize job index = some part := by
  have listed := List.mem_of_getLast? found
  obtain ⟨member, same⟩ := List.mem_filter.mp listed
  refine ⟨member, ?_⟩
  have at_ := (mem_writeParts positive nonempty).mp member
  rw [of_decide_eq_true same] at at_
  exact at_

theorem lastPart_singleton (positive : 0 < blockSize) {job : WriteTaskData}
    (nonempty : 0 < job.data.length) (index : Nat) :
    lastPart blockSize [job] index = partAt blockSize job index := by
  have all : ∀ other ∈ [job], 0 < other.data.length := by simpa using nonempty
  cases found : lastPart blockSize [job] index with
  | none => exact ((lastPart_eq_none positive all index).mp found job (by simp)).symm
  | some part =>
      obtain ⟨_, other, member, isPart⟩ := lastPart_eq_some positive all found
      rw [List.mem_singleton.mp member] at isPart
      exact isPart.symm

end Parts

def partContent (cfg : TiFsConfig) (hashListPrev : BlockHashes) (preData : BlocksData) (part : Part) :
    Bytes :=
  if part.data.length = cfg.blockSize then part.data
  else overlay 0 part.position part.data
    (((hashListPrev.lookup part.index).bind fun hash => preData.lookup hash).getD [])

structure Published (cfg : TiFsConfig) (contents : List (BlockIndex × Bytes)) (new : NewBlocks) :
    Prop where
  indexHash : new.newBlockIndexHash =
    collect (contents.map fun content => (content.1, cfg.calculateHash content.2))
  addressed : ∀ hash data, new.newBlocks.lookup hash = some data →
    cfg.calculateHash data = hash ∧ data ∈ contents.map Prod.snd
  present : ∀ content ∈ contents, cfg.calculateHash content.2 ∈ new.newBlocks

section Published

variable {cfg : TiFsConfig} {contents : List (BlockIndex × Bytes)} {new : NewBlocks}

theorem published_empty : Published cfg [] ⟨∅, ∅⟩ :=
  ⟨rfl, fun _ _ found => absurd found (by simp), fun _ listed => absurd listed List.not_mem_nil⟩

theorem Published.snoc (published : Published cfg contents new) (index : Nat) (data : Bytes)
    {blocks : BlocksData}
    (inserted : blocks = tryInsert new.newBlocks (cfg.calculateHash data) data ∨
      blocks = new.newBlocks.insert (cfg.calculateHash data) data) :
    Published cfg (contents ++ [(index, data)])
      ⟨blocks, new.newBlockIndexHash.insert index (cfg.calculateHash data)⟩ := by
  have lookups : ∀ hash found, blocks.lookup hash = some found →
      new.newBlocks.lookup hash = some found ∨ (hash = cfg.calculateHash data ∧ found = data) := by
    have afterInsert : ∀ hash found,
        (new.newBlocks.insert (cfg.calculateHash data) data).lookup hash = some found →
        new.newBlocks.lookup hash = some found ∨ (hash = cfg.calculateHash data ∧ found = data) := by
      intro hash found isFound
      by_cases same : hash = cfg.calculateHash data
      · rw [same, AList.lookup_insert] at isFound
        exact Or.inr ⟨same, (Option.some.inj isFound).symm⟩
      · rw [AList.lookup_insert_ne same] at isFound
        exact Or.inl isFound
    intro hash found isFound
    rcases inserted with rfl | rfl
    · unfold tryInsert at isFound
      split at isFound
      · exact Or.inl isFound
      · exact afterInsert hash found isFound
    · exact afterInsert hash found isFound
  have members : ∀ hash, hash ∈ new.newBlocks ∨ hash = cfg.calculateHash data → hash ∈ blocks := by
    intro hash listed
    rcases inserted with rfl | rfl
    · unfold tryInsert
      split
      · next there =>
          rcases listed with old | rfl
          · exact old
          · exact there
      · exact (AList.mem_insert _).mpr listed.symm
    · exact (AList.mem_insert _).mpr listed.symm
  constructor
  · rw [published.indexHash, collect, collect, List.map_append, extend_append]
    rfl
  · intro hash found isFound
    rcases lookups hash found isFound with old | ⟨rfl, rfl⟩
    · obtain ⟨isHash, listed⟩ := published.addressed hash found old
      refine ⟨isHash, ?_⟩
      rw [List.map_append]
      exact List.mem_append_left _ listed
    · exact ⟨rfl, by simp⟩
  · intro content listed
    rcases List.mem_append.mp listed with old | isNew
    · exact members _ (Or.inl (published.present content old))
    · rw [List.mem_singleton.mp isNew]
      exact members _ (Or.inr rfl)

theorem Published.handler (published : Published cfg contents new) (data : BlockIndexAndData)
    (position : Nat) (hashListPrev : BlockHashes) (preData : BlocksData)
    (irregular : data.data.length ≠ cfg.blockSize) :
    Published cfg
      (contents ++ ([⟨data.blockIndex, position, data.data⟩].filter fun part => part.data.length > 0).map
        fun part => (part.index, partContent cfg hashListPrev preData part))
      ((UpdateIrregularBlock.getAndAddOriginalBlockHash data position
        hashListPrev).getAndModifyBlockAndPublishHash cfg preData new) := by
  by_cases some : data.data.length > 0
  · have content : partContent cfg hashListPrev preData ⟨data.blockIndex, position, data.data⟩ =
        updateDataRangeInVec position data.data
          (((hashListPrev.lookup data.blockIndex).bind fun hash => preData.lookup hash).getD []) := by
      rw [partContent, if_neg irregular]
      rfl
    rw [List.filter_cons_of_pos (by simpa using some), List.filter_nil, List.map_cons, List.map_nil,
      content]
    simp only [UpdateIrregularBlock.getAndModifyBlockAndPublishHash,
      UpdateIrregularBlock.getAndAddOriginalBlockHash, some, if_true]
    exact published.snoc data.blockIndex _ (Or.inl rfl)
  · rw [List.filter_cons_of_neg (by simpa using some), List.filter_nil, List.map_nil, List.append_nil]
    simp only [UpdateIrregularBlock.getAndModifyBlockAndPublishHash,
      UpdateIrregularBlock.getAndAddOriginalBlockHash, some, if_false]
    exact published

theorem Published.mids (published : Published cfg contents new) {bs : BlockSplitterWrite}
    {hashListPrev : BlockHashes} {preData : BlocksData}
    (full : ∀ part ∈ bs.midParts, part.data.length = cfg.blockSize) :
    Published cfg
      (contents ++ bs.midParts.map fun part => (part.index, partContent cfg hashListPrev preData part))
      (publishMidBlocks cfg new bs) := by
  unfold publishMidBlocks
  generalize bs.midParts = parts at full
  induction parts generalizing contents new with
  | nil =>
      rw [List.map_nil, List.append_nil]
      exact published
  | cons head tail ih =>
      have content : partContent cfg hashListPrev preData head = head.data := by
        rw [partContent, if_pos (full head (by simp))]
      rw [List.map_cons, content, List.foldl_cons, List.append_cons]
      exact ih (published.snoc head.index head.data (Or.inr rfl)) fun part member =>
        full part (List.mem_cons_of_mem _ member)

end Published

theorem ends_irregular {blockSize : Nat} (positive : 0 < blockSize) (start : Nat) (data : Bytes) :
    (BlockSplitterWrite.new blockSize start data).firstData.data.length ≠ blockSize ∧
      (BlockSplitterWrite.new blockSize start data).lastData.data.length ≠ blockSize := by
  constructor
  · simp only [BlockSplitterWrite.new]
    rcases splitFirst_cases positive start data with ⟨_, _, equal⟩ | ⟨size, isMin, less, equal⟩
    · rw [equal]
      simp only [List.length_nil]
      omega
    · rw [equal]
      simp only [List.length_take]
      omega
  · simp only [BlockSplitterWrite.new, List.length_drop]
    have rest := Nat.mod_lt (splitFirst blockSize start data).2.2.length positive
    have whole := Nat.div_add_mod (splitFirst blockSize start data).2.2.length blockSize
    rw [Nat.mul_comm] at whole
    omega

theorem midParts_full {blockSize : Nat} (positive : 0 < blockSize) (job : WriteTaskData) {part : Part}
    (listed : part ∈ (BlockSplitterWrite.new blockSize job.start job.data).midParts) :
    part.data.length = blockSize := by
  by_cases nonempty : 0 < job.data.length
  · exact ((mem_midParts_iff positive nonempty).mp listed).2
  · exact absurd listed (parts_of_empty positive (Nat.eq_zero_of_not_pos nonempty) part).2

section Plan

variable (cfg : TiFsConfig) (jobs : List WriteTaskData) (hashListPrev : BlockHashes)
  (preData : BlocksData)

def publishedContents : List (BlockIndex × Bytes) :=
  (writeParts cfg.blockSize jobs).map fun part =>
    (part.index, partContent cfg hashListPrev preData part)

theorem published_handlers :
    Published cfg
      ((jobs.flatMap fun job =>
          (BlockSplitterWrite.new cfg.blockSize job.start job.data).irregularParts).map
        fun part => (part.index, partContent cfg hashListPrev preData part))
      ((dataHandlers cfg jobs hashListPrev).foldl (fun new handlers =>
        handlers.2.getAndModifyBlockAndPublishHash cfg preData
          (handlers.1.getAndModifyBlockAndPublishHash cfg preData new)) ⟨∅, ∅⟩) := by
  unfold dataHandlers bsList
  induction jobs using List.reverseRecOn with
  | nil => exact published_empty
  | append_singleton front last ih =>
      have ends := ends_irregular cfg.blockSize_pos last.start last.data
      rw [List.flatMap_append, List.map_append, List.map_append, List.map_append, List.foldl_append]
      have first := ih.handler _ (last.start % cfg.blockSize) hashListPrev preData ends.1
      have both := first.handler _ 0 hashListPrev preData ends.2
      rw [List.append_assoc, ← List.map_append, ← List.filter_append] at both
      rw [List.flatMap_cons, List.flatMap_nil, List.append_nil]
      exact both

theorem published_makeNewBlocks :
    Published cfg (publishedContents cfg jobs hashListPrev preData)
      (makeNewBlocks cfg jobs hashListPrev preData) := by
  have irregular := published_handlers cfg jobs hashListPrev preData
  have mids : ∀ (rest : List WriteTaskData) (contents : List (BlockIndex × Bytes)) (new : NewBlocks),
      Published cfg contents new →
      Published cfg (contents ++ (rest.flatMap fun job =>
          (BlockSplitterWrite.new cfg.blockSize job.start job.data).midParts).map
        fun part => (part.index, partContent cfg hashListPrev preData part))
        ((bsList cfg rest).foldl (publishMidBlocks cfg) new) := by
    intro rest
    induction rest with
    | nil =>
        intro contents new published
        simpa [bsList] using published
    | cons head tail ih =>
        intro contents new published
        rw [List.flatMap_cons, List.map_append, ← List.append_assoc, bsList, List.map_cons,
          List.foldl_cons]
        exact ih _ _ (published.mids fun part listed => midParts_full cfg.blockSize_pos head listed)
  have all := mids jobs _ _ irregular
  rw [← List.map_append] at all
  exact all

theorem lookup_newBlockIndexHash (index : Nat) :
    (makeNewBlocks cfg jobs hashListPrev preData).newBlockIndexHash.lookup index =
      (lastPart cfg.blockSize jobs index).map fun part =>
        cfg.calculateHash (partContent cfg hashListPrev preData part) := by
  rw [(published_makeNewBlocks cfg jobs hashListPrev preData).indexHash, collect, lookup_extend,
    publishedContents, List.map_map, List.filter_map, List.getLast?_map, lastPart]
  cases found : ((writeParts cfg.blockSize jobs).filter fun part => part.index = index).getLast? with
  | none =>
      have empty : ((writeParts cfg.blockSize jobs).filter
          ((fun pair : BlockIndex × TiFsHash => decide (pair.1 = index)) ∘
            ((fun content : BlockIndex × Bytes => (content.1, cfg.calculateHash content.2)) ∘
              fun part => (part.index, partContent cfg hashListPrev preData part)))).getLast? = none := found
      rw [empty]
      rfl
  | some part =>
      have last : ((writeParts cfg.blockSize jobs).filter
          ((fun pair : BlockIndex × TiFsHash => decide (pair.1 = index)) ∘
            ((fun content : BlockIndex × Bytes => (content.1, cfg.calculateHash content.2)) ∘
              fun part => (part.index, partContent cfg hashListPrev preData part)))).getLast? =
          some part := found
      rw [last]
      rfl

/-- A block is written if it has a new hash and that is not the previous one. -/
theorem lookup_changedBlocks (new : NewBlocks) (index : Nat) (hash : TiFsHash) :
    (changedBlocks hashListPrev new).lookup index = some hash ↔
      new.newBlockIndexHash.lookup index = some hash ∧ hashListPrev.lookup index ≠ some hash := by
  rw [changedBlocks, lookup_eraseSame]
  by_cases same : ∃ entry ∈ hashListPrev.entries,
      entry.1 = index ∧ new.newBlockIndexHash.lookup index = some entry.2
  · rw [if_pos same]
    obtain ⟨⟨key, previous⟩, member, rfl, isNew⟩ := same
    simp only [reduceCtorEq, false_iff, not_and, not_not]
    intro found
    rw [← found, isNew]
    exact AList.mem_lookup_iff.mpr member
  · rw [if_neg same]
    constructor
    · intro found
      refine ⟨found, ?_⟩
      intro previous
      exact same ⟨⟨index, hash⟩, AList.mem_lookup_iff.mp previous, rfl, found⟩
    · intro both
      exact both.1

theorem blockGroups_hashes (new : NewBlocks) :
    (blockGroups hashListPrev new).map BlockGroup.hash =
      (invert (changedBlocks hashListPrev new).entries).keys := by
  simp only [blockGroups, List.map_map]
  rfl

theorem blockGroups_ids (new : NewBlocks) :
    (blockGroups hashListPrev new).flatMap BlockGroup.ids =
      (invert (changedBlocks hashListPrev new).entries).entries.flatMap Sigma.snd := by
  simp only [blockGroups, List.flatMap_map]

theorem mem_blockGroups {hashListPrev : BlockHashes} {new : NewBlocks} {group : BlockGroup}
    (listed : group ∈ blockGroups hashListPrev new) :
    (∀ index, index ∈ group.ids ↔
      (changedBlocks hashListPrev new).lookup index = some group.hash) ∧
    (∃ index, (changedBlocks hashListPrev new).lookup index = some group.hash) ∧
    group.data = (new.newBlocks.lookup group.hash).getD [] := by
  obtain ⟨⟨hash, ids⟩, member, rfl⟩ := List.mem_map.mp listed
  refine ⟨fun index => mem_invert_entries _ member index, ?_, rfl⟩
  have isKey : hash ∈ invert (changedBlocks hashListPrev new).entries := List.mem_keys_of_mem member
  obtain ⟨entry, present, same⟩ := (mem_invert _ hash).mp isKey
  refine ⟨entry.1, ?_⟩
  rw [← same]
  exact AList.mem_lookup_iff.mpr present

theorem group_of_changed {hashListPrev : BlockHashes} {new : NewBlocks} {index : Nat} {hash : TiFsHash}
    (changed : (changedBlocks hashListPrev new).lookup index = some hash) :
    ∃ group ∈ blockGroups hashListPrev new, group.hash = hash ∧ index ∈ group.ids := by
  have isKey := (mem_invert (changedBlocks hashListPrev new).entries hash).mpr
    ⟨_, AList.mem_lookup_iff.mp changed, rfl⟩
  obtain ⟨ids, found⟩ := Option.isSome_iff_exists.mp (AList.lookup_isSome.mpr isKey)
  have entry := AList.mem_lookup_iff.mp found
  exact ⟨_, List.mem_map_of_mem entry, rfl, (mem_invert_entries _ entry index).mpr changed⟩

theorem blockGroups_data {group : BlockGroup}
    (listed : group ∈ blockGroups hashListPrev (makeNewBlocks cfg jobs hashListPrev preData)) :
    group.hash = cfg.calculateHash group.data ∧
      ∃ part ∈ writeParts cfg.blockSize jobs, group.data = partContent cfg hashListPrev preData part := by
  have published := published_makeNewBlocks cfg jobs hashListPrev preData
  obtain ⟨_, ⟨index, changed⟩, isData⟩ := mem_blockGroups listed
  have isNew := ((lookup_changedBlocks hashListPrev _ index group.hash).mp changed).1
  rw [lookup_newBlockIndexHash] at isNew
  obtain ⟨part, last, isHash⟩ := Option.map_eq_some_iff.mp isNew
  have inParts := List.mem_of_mem_filter (List.mem_of_getLast? last)
  have present := published.present (part.index, partContent cfg hashListPrev preData part)
    (List.mem_map.mpr ⟨part, inParts, rfl⟩)
  obtain ⟨data, found⟩ := Option.isSome_iff_exists.mp (AList.lookup_isSome.mpr present)
  rw [isHash] at found
  obtain ⟨addressed, among⟩ := published.addressed group.hash data found
  rw [isData, found]
  refine ⟨addressed.symm, ?_⟩
  obtain ⟨content, inContents, rfl⟩ := List.mem_map.mp among
  obtain ⟨other, isPart, rfl⟩ := List.mem_map.mp inContents
  exact ⟨other, isPart, rfl⟩

def writePlan : WritePlan cfg where
  groups := blockGroups hashListPrev (makeNewBlocks cfg jobs hashListPrev preData)
  hash_eq group listed := (blockGroups_data cfg jobs hashListPrev preData listed).1
  hashes_nodup := by
    rw [blockGroups_hashes]
    exact AList.keys_nodup _
  ids_nodup := by
    rw [blockGroups_ids]
    exact invert_entries_nodup _

def WritePlan.Filled {cfg : TiFsConfig} (plan : WritePlan cfg) : Prop :=
  ∀ group ∈ plan.groups, group.ids ≠ []

theorem writePlan_filled : (writePlan cfg jobs hashListPrev preData).Filled := by
  intro group listed
  obtain ⟨isIndex, ⟨index, found⟩, _⟩ := mem_blockGroups listed
  exact List.ne_nil_of_mem ((isIndex index).mpr found)

def WritePlan.single {cfg : TiFsConfig} (plan : WritePlan cfg) (group : BlockGroup)
    (member : group ∈ plan.groups) : WritePlan cfg where
  groups := [group]
  hash_eq other listed := by
    rw [List.mem_singleton.mp listed]
    exact plan.hash_eq group member
  hashes_nodup := List.nodup_singleton _
  ids_nodup := by
    rw [List.flatMap_cons, List.flatMap_nil, List.append_nil]
    exact (List.nodup_flatMap.mp plan.ids_nodup).1 group member

theorem mem_addressesToModify {cfg : TiFsConfig} (plan : WritePlan cfg) {ino : StorageIno}
    {address : BlockAddress × Option TiFsHash} :
    address ∈ plan.addressesToModify ino ↔
      ∃ group ∈ plan.groups, ∃ id ∈ group.ids, address = (⟨ino, id⟩, some group.hash) := by
  simp only [WritePlan.addressesToModify, List.mem_flatMap, List.mem_map, eq_comm]

end Plan

end TiFs
