import TiFs.CallProgress
import TiFs.FileBytes

namespace TiFs

open KeyValue Tables

/-- One round of the loop of `hb_read_from_blocks`. -/
def readBlock (bs : BlockSplitterRead) (blockData result : Bytes) (blockIndex : Nat) : Bytes :=
  let relIndex := blockIndex - bs.firstBlockIndex
  let rdStart := if relIndex = 0 then bs.firstBlockReadOffset else 0
  let rdSize := if relIndex = 0 then bs.bytesToReadFirstBlock
    else min (bs.size - result.length) bs.blockSize
  if rdStart < blockData.length then
    let rdEnd := min (rdStart + rdSize) blockData.length
    result ++ (blockData.take rdEnd).drop rdStart
  else result

/-- The loop over the blocks of a read; a block without data adds nothing. -/
def readBlocks (bs : BlockSplitterRead) (block : Nat → Bytes) : Bytes :=
  (List.range' bs.firstBlockIndex (bs.endBlockIndex - bs.firstBlockIndex)).foldl
    (fun result blockIndex => readBlock bs (block blockIndex) result blockIndex) []

def hbReadFromBlocks (bs : BlockSplitterRead) (blockHashes : BlockHashes) (blocksData : BlocksData) :
    Bytes :=
  readBlocks bs fun blockIndex =>
    ((blockHashes.lookup blockIndex).bind fun blockHash => blocksData.lookup blockHash).getD []

def inodeReadBlockHashesDataRange (cfg : TiFsConfig) (ino : StorageIno) (startAddr readSize : Nat) :
    Mini BlockHashes :=
  hbGetBlockHashListByBlockRangeChunked cfg ino
    (startAddr / cfg.blockSize, divCeil (startAddr + readSize) cfg.blockSize)

/-- The bytes read, and the client's cache afterwards. -/
def hbReadData (cfg : TiFsConfig) (ino : StorageIno) (start : Nat) (chunkSize : Option Nat)
    (cache : BlocksData) (store : Store) : Except FsError Bytes × BlocksData :=
  let size := chunkSize.getD cfg.blockSize
  match atomically (inodeReadBlockHashesDataRange cfg ino start size) store with
  | .error issue => (.error issue, cache)
  | .ok (blockHashes, _) =>
      let bs := BlockSplitterRead.new cfg.blockSize start size
      match hbGetBlockDataByHashesCached cfg (blockHashes.entries.map Sigma.snd).dedup cache store with
      | (.error issue, filled) => (.error issue, filled)
      | (.ok blocksData, filled) => (.ok (hbReadFromBlocks bs blockHashes blocksData), filled)

section Loop

variable {blockSize start size : Nat}

theorem readBlock_eq (bs : BlockSplitterRead) (blockData result : Bytes) (blockIndex : Nat) :
    readBlock bs blockData result blockIndex =
      if blockIndex - bs.firstBlockIndex = 0 then
        result ++ (blockData.drop bs.firstBlockReadOffset).take bs.bytesToReadFirstBlock
      else result ++ blockData.take (min (bs.size - result.length) bs.blockSize) := by
  have slice : ∀ rdStart rdSize : Nat,
      (if rdStart < blockData.length then
        result ++ (blockData.take (min (rdStart + rdSize) blockData.length)).drop rdStart
      else result) = result ++ (blockData.drop rdStart).take rdSize := by
    intro rdStart rdSize
    split
    · rw [List.drop_take, List.take_eq_take_iff.mpr]
      rw [List.length_drop]
      omega
    · rw [List.drop_eq_nil_of_le (by omega), List.take_nil, List.append_nil]
  by_cases first : blockIndex - bs.firstBlockIndex = 0
  · simp only [readBlock, if_pos first]
    exact slice _ _
  · simp only [readBlock, if_neg first]
    exact slice 0 _

theorem readRange_bounds (positive : 0 < blockSize) {index : Nat}
    (lower : start / blockSize ≤ index)
    (upper : index < (BlockSplitterRead.new blockSize start size).endBlockIndex) :
    index * blockSize < start + size := by
  have whole := Nat.div_add_mod start blockSize
  have inBlock := Nat.mod_lt start positive
  rw [Nat.mul_comm] at whole
  simp only [BlockSplitterRead.new] at upper
  have some : 0 < size := by
    by_contra none
    have zero : size = 0 := by omega
    simp only [zero, Nat.min_zero, Nat.sub_zero, Nat.zero_div, Nat.zero_mod] at upper
    simp only [Nat.add_zero, Nat.sub_self, Nat.lt_irrefl, if_false] at upper
    omega
  have rest := Nat.div_add_mod (size - min (blockSize - start % blockSize) size) blockSize
  rw [Nat.mul_comm] at rest
  generalize start / blockSize = first at *
  generalize start % blockSize = offset at *
  generalize (size - min (blockSize - offset) size) / blockSize = blocks at *
  have count : index ≤ first + blocks ∨ index = first + blocks + 1 ∧
      0 < (size - min (blockSize - offset) size) % blockSize := by
    split at upper <;> split at upper <;> omega
  rcases count with within | ⟨rfl, more⟩
  · have bound := Nat.mul_le_mul_right blockSize within
    rw [Nat.add_mul] at bound
    by_cases none : blocks = 0
    · subst none
      omega
    · have atLeast := Nat.mul_le_mul_right blockSize (Nat.one_le_iff_ne_zero.mpr none)
      omega
  · rw [Nat.add_mul, Nat.add_mul]
    omega

theorem readRange_end (positive : 0 < blockSize) (some : 0 < size) :
    start + size ≤ (BlockSplitterRead.new blockSize start size).endBlockIndex * blockSize := by
  have whole := Nat.div_add_mod start blockSize
  have inBlock := Nat.mod_lt start positive
  rw [Nat.mul_comm] at whole
  simp only [BlockSplitterRead.new]
  have rest := Nat.div_add_mod (size - min (blockSize - start % blockSize) size) blockSize
  have restBound := Nat.mod_lt (size - min (blockSize - start % blockSize) size) positive
  rw [Nat.mul_comm] at rest
  generalize start / blockSize = first at *
  generalize start % blockSize = offset at *
  generalize (size - min (blockSize - offset) size) / blockSize = blocks at *
  rw [if_pos (by omega), Nat.add_sub_cancel_left]
  split
  · rw [Nat.add_mul, Nat.add_mul, Nat.add_mul]
    omega
  · rw [Nat.add_mul, Nat.add_mul, Nat.add_mul]
    omega

theorem firstBlock_bytes (positive : 0 < blockSize) {block : Nat → Bytes} {data : Bytes}
    (fits : data.length ≤ size)
    (bytes : ∀ k < size, (block ((start + k) / blockSize))[(start + k) % blockSize]? = data[k]?) :
    ((block (start / blockSize)).drop (start % blockSize)).take (min (blockSize - start % blockSize) size) =
      data.take ((start / blockSize + 1) * blockSize - start) := by
  have whole := Nat.div_add_mod start blockSize
  have inBlock := Nat.mod_lt start positive
  rw [Nat.mul_comm] at whole
  have left : (start / blockSize + 1) * blockSize - start = blockSize - start % blockSize := by
    rw [Nat.add_mul]
    omega
  rw [left]
  refine List.ext_getElem? fun k => ?_
  by_cases inside : k < blockSize - start % blockSize ∧ k < size
  · have isBlock : (start + k) / blockSize = start / blockSize := by
      rw [Nat.div_eq_iff positive]
      constructor <;> omega
    have isOffset : (start + k) % blockSize = start % blockSize + k := by
      have same := Nat.div_add_mod (start + k) blockSize
      rw [isBlock, Nat.mul_comm] at same
      omega
    have isByte := bytes k inside.2
    rw [isBlock, isOffset] at isByte
    rw [List.getElem?_take_of_lt (by omega), List.getElem?_take_of_lt inside.1, List.getElem?_drop]
    exact isByte
  · rw [List.getElem?_eq_none (by simp only [List.length_take]; omega),
      List.getElem?_eq_none (by simp only [List.length_take]; omega)]

theorem laterBlock_bytes (positive : 0 < blockSize) {block : Nat → Bytes} {data : Bytes} {index : Nat}
    (fits : data.length ≤ size)
    (bytes : ∀ k < size, (block ((start + k) / blockSize))[(start + k) % blockSize]? = data[k]?)
    (lower : start ≤ index * blockSize) (upper : index * blockSize < start + size) :
    (block index).take (min (size - (data.take (index * blockSize - start)).length) blockSize) =
      (data.drop (index * blockSize - start)).take blockSize := by
  have inBlock : ∀ k < blockSize, index * blockSize - start + k < size →
      (block index)[k]? = data[index * blockSize - start + k]? := by
    intro k below within
    have isByte := bytes (index * blockSize - start + k) within
    have isPos : start + (index * blockSize - start + k) = index * blockSize + k := by omega
    have isBlock : (index * blockSize + k) / blockSize = index := by
      rw [Nat.div_eq_iff positive]
      constructor <;> omega
    have isOffset : (index * blockSize + k) % blockSize = k := by
      have same := Nat.div_add_mod (index * blockSize + k) blockSize
      rw [isBlock, Nat.mul_comm] at same
      omega
    rw [isPos, isBlock, isOffset] at isByte
    exact isByte
  rw [List.length_take]
  by_cases ended : data.length ≤ index * blockSize - start
  · -- The bytes are over, so the block has none.
    have first := inBlock 0 positive (by omega)
    have noByte : data[index * blockSize - start + 0]? = none := List.getElem?_eq_none (by omega)
    rw [noByte] at first
    have none : block index = [] := by
      cases isBlock : block index with
      | nil => rfl
      | cons head tail =>
          rw [isBlock] at first
          cases first
    rw [none, List.take_nil, List.drop_eq_nil_of_le ended, List.take_nil]
  · refine List.ext_getElem? fun k => ?_
    by_cases inside : k < blockSize ∧ index * blockSize - start + k < size
    · rw [List.getElem?_take_of_lt (by omega), List.getElem?_take_of_lt inside.1, List.getElem?_drop]
      exact inBlock k inside.1 inside.2
    · rw [List.getElem?_eq_none (by simp only [List.length_take]; omega),
        List.getElem?_eq_none (by simp only [List.length_take, List.length_drop]; omega)]

theorem readBlocks_eq (positive : 0 < blockSize) {block : Nat → Bytes} {data : Bytes}
    (fits : data.length ≤ size)
    (bytes : ∀ k < size, (block ((start + k) / blockSize))[(start + k) % blockSize]? = data[k]?) :
    readBlocks (BlockSplitterRead.new blockSize start size) block = data := by
  have below := Nat.div_mul_le_self start blockSize
  -- On the number of blocks visited: all bytes up to the end of the last one are there.
  have rounds : ∀ count, start / blockSize + count ≤
      (BlockSplitterRead.new blockSize start size).endBlockIndex →
      (List.range' (start / blockSize) count).foldl (fun result blockIndex =>
        readBlock (BlockSplitterRead.new blockSize start size) (block blockIndex) result blockIndex) [] =
        data.take ((start / blockSize + count) * blockSize - start) := by
    intro count
    induction count with
    | zero =>
        intro _
        rw [Nat.add_zero, Nat.sub_eq_zero_of_le below, List.take_zero]
        rfl
    | succ count ih =>
        intro within
        have upper : (start / blockSize + count) * blockSize < start + size :=
          readRange_bounds positive (by omega) (by omega)
        rw [List.range'_1_concat, List.foldl_append, ih (by omega), List.foldl_cons, List.foldl_nil,
          readBlock_eq]
        cases count with
        | zero =>
            rw [if_pos (by simp [BlockSplitterRead.new]), Nat.add_zero, Nat.sub_eq_zero_of_le below,
              List.take_zero, List.nil_append]
            exact firstBlock_bytes positive fits bytes
        | succ count =>
            have lower : start ≤ (start / blockSize + (count + 1)) * blockSize := by
              have next := Nat.lt_div_mul_add (a := start) positive
              rw [Nat.add_mul, Nat.add_mul]
              omega
            rw [if_neg (by simp only [BlockSplitterRead.new]; omega)]
            have more := laterBlock_bytes positive fits bytes lower upper
            simp only [BlockSplitterRead.new] at more ⊢
            rw [more, ← List.take_add]
            have next : (start / blockSize + (count + 1 + 1)) * blockSize =
                (start / blockSize + (count + 1)) * blockSize + blockSize := by
              rw [← Nat.add_assoc, Nat.add_mul, Nat.one_mul]
            rw [next]
            congr 1
            omega
  have first : (BlockSplitterRead.new blockSize start size).firstBlockIndex = start / blockSize := rfl
  have order : start / blockSize ≤ (BlockSplitterRead.new blockSize start size).endBlockIndex :=
    Nat.le_add_right _ _
  rw [readBlocks, first, rounds _ (by omega), Nat.add_sub_cancel' order]
  apply List.take_of_length_le
  by_cases some : 0 < size
  · have far : start + size ≤ (BlockSplitterRead.new blockSize start size).endBlockIndex * blockSize :=
      readRange_end positive some
    omega
  · omega

end Loop

theorem readBlocks_congr {bs : BlockSplitterRead} {block other : Nat → Bytes}
    (same : ∀ index, bs.firstBlockIndex ≤ index → index < bs.endBlockIndex → block index = other index) :
    readBlocks bs block = readBlocks bs other := by
  apply List.foldl_ext
  intro result index listed
  rw [List.mem_range'_1] at listed
  rw [same index listed.1 (by omega)]

section Fetch

variable {cfg : TiFsConfig} {ino : StorageIno} {involved : Set Bytes} {store : Store} {cache : BlocksData}

/-- The data of the blocks whose hashes were read, put together. -/
theorem fetched_spec (involved : Set Bytes) (store : Store) (cache : BlocksData) {found : BlockHashes}
    (bs : BlockSplitterRead)
    (lengths : ∀ index hash, found.lookup index = some hash → hash.length = cfg.hashLen)
    (stored : ∀ hash data, blockData store hash = some data → Addressed cfg involved hash data)
    (cached : ∀ hash data, cache.lookup hash = some data → Addressed cfg involved hash data) :
    ∃ blocks filled, hbGetBlockDataByHashesCached cfg (found.entries.map Sigma.snd).dedup cache store =
        (.ok blocks, filled) ∧
      hbReadFromBlocks bs found blocks = readBlocks bs (fun index =>
        ((found.lookup index).bind fun hash => (cache.lookup hash).or (blockData store hash)).getD []) ∧
      ∀ hash data, filled.lookup hash = some data → Addressed cfg involved hash data := by
  have allLengths : ∀ hash ∈ (found.entries.map Sigma.snd).dedup, hash.length = cfg.hashLen := by
    intro hash listed
    obtain ⟨entry, member, rfl⟩ := List.mem_map.mp (List.mem_dedup.mp listed)
    exact lengths entry.1 entry.2 (AList.mem_lookup_iff.mpr member)
  obtain ⟨blocks, filled, dataRead, inBlocks, sound⟩ := cached_spec cfg involved store cache _
    allLengths stored cached
  refine ⟨blocks, filled, dataRead, ?_, sound⟩
  apply readBlocks_congr
  intro index _ _
  cases isHash : found.lookup index with
  | none => rfl
  | some hash =>
      have listed : hash ∈ (found.entries.map Sigma.snd).dedup :=
        List.mem_dedup.mpr (List.mem_map.mpr ⟨⟨index, hash⟩, AList.mem_lookup_iff.mp isHash, rfl⟩)
      rw [Option.bind_some, Option.bind_some, inBlocks hash listed]

theorem readRange_inRange (cfg : TiFsConfig) {start size index : Nat}
    (lower : (BlockSplitterRead.new cfg.blockSize start size).firstBlockIndex ≤ index)
    (upper : index < (BlockSplitterRead.new cfg.blockSize start size).endBlockIndex) :
    start / cfg.blockSize ≤ index ∧ index < divCeil (start + size) cfg.blockSize := by
  refine ⟨lower, ?_⟩
  have positive := cfg.blockSize_pos
  have before := readRange_bounds positive lower upper
  rw [divCeil, Nat.lt_div_iff_mul_lt cfg.blockSize_pos]
  omega

theorem scanned_length {index : Nat} {hash : TiFsHash} (found : scanned cfg store ino index = some hash) :
    hash.length = cfg.hashLen := by
  simpa using (Option.filter_eq_some_iff.mp found).2

/-- A read sees what is stored under the mapped hashes, in the cache or in the store. -/
theorem hbReadData_scanned (ino : StorageIno) (start : Nat) (chunkSize : Option Nat)
    (stored : ∀ hash data, blockData store hash = some data → Addressed cfg involved hash data)
    (cached : ∀ hash data, cache.lookup hash = some data → Addressed cfg involved hash data) :
    ∃ filled, hbReadData cfg ino start chunkSize cache store =
        (.ok (readBlocks (BlockSplitterRead.new cfg.blockSize start (chunkSize.getD cfg.blockSize))
          fun index => ((scanned cfg store ino index).bind fun hash =>
            (cache.lookup hash).or (blockData store hash)).getD []), filled) ∧
      ∀ hash data, filled.lookup hash = some data → Addressed cfg involved hash data := by
  obtain ⟨found, hashesRead, inFound⟩ := readRange_spec cfg store ino
    (start / cfg.blockSize, divCeil (start + chunkSize.getD cfg.blockSize) cfg.blockSize)
  have lengths : ∀ index hash, found.lookup index = some hash → hash.length = cfg.hashLen := by
    intro index hash isHash
    rw [inFound] at isHash
    split at isHash
    · exact scanned_length isHash
    · cases isHash
  obtain ⟨blocks, filled, dataRead, isRead, sound⟩ := fetched_spec involved store cache
    (BlockSplitterRead.new cfg.blockSize start (chunkSize.getD cfg.blockSize)) lengths stored cached
  refine ⟨filled, ?_, sound⟩
  simp only [hbReadData, inodeReadBlockHashesDataRange, hashesRead, dataRead, isRead]
  congr 2
  apply readBlocks_congr
  intro index lower upper
  rw [inFound, if_pos (readRange_inRange cfg lower upper)]

end Fetch

section Read

variable {cfg : TiFsConfig} {ino : StorageIno} {involved : Set Bytes} {state : IdleState}

section Contents

variable {store : Store} {cache : BlocksData} (injective : Set.InjOn cfg.calculateHash involved)
  (stored : ∀ hash data, blockData store hash = some data → Addressed cfg involved hash data)
  (cached : ∀ hash data, cache.lookup hash = some data → Addressed cfg involved hash data)
  {start size : Nat} (mappings : ∀ index, start / cfg.blockSize ≤ index → index * cfg.blockSize < start + size →
    mapping store ⟨ino, index⟩ = ((storedFile store ino).content index).map cfg.calculateHash)

include injective stored cached mappings

theorem hbReadData_contents :
    ∃ filled, hbReadData cfg ino start (some size) cache store =
        (.ok (readBlocks (BlockSplitterRead.new cfg.blockSize start size)
          fun index => ((storedFile store ino).content index).getD []), filled) ∧
      ∀ hash data, filled.lookup hash = some data → Addressed cfg involved hash data := by
  have isContent : ∀ index, start / cfg.blockSize ≤ index → index * cfg.blockSize < start + size →
      scanned cfg store ino index = ((storedFile store ino).content index).map cfg.calculateHash := by
    intro index lower upper
    rw [scanned, mappings index lower upper]
    cases (storedFile store ino).content index with
    | none => rfl
    | some data => simp [cfg.hash_length data]
  obtain ⟨filled, isRead, sound⟩ := hbReadData_scanned ino start (some size) stored cached
  refine ⟨filled, isRead.trans ?_, sound⟩
  congr 2
  apply readBlocks_congr
  intro index lower upper
  rw [isContent index lower (readRange_bounds cfg.blockSize_pos lower upper)]
  cases content : (storedFile store ino).content index with
  | none => rfl
  | some data =>
      obtain ⟨hash, _, isStored⟩ := content_stored content
      have here := stored hash data isStored
      rw [Option.map_some, Option.bind_some]
      cases hit : cache.lookup (cfg.calculateHash data) with
      | none => rw [Option.none_or, here.2, isStored]
      | some other =>
          obtain ⟨isInvolved, sameHash⟩ := cached _ other hit
          rw [Option.some_or, injective isInvolved here.1 sameHash]

theorem hbReadData_contents_bytes {data : Bytes} (fits : data.length ≤ size)
    (bytes : ∀ k < size, (storedFile store ino).byte cfg.blockSize (start + k) = data[k]?) :
    ∃ filled, hbReadData cfg ino start (some size) cache store = (.ok data, filled) ∧
      ∀ hash data, filled.lookup hash = some data → Addressed cfg involved hash data := by
  obtain ⟨filled, isRead, sound⟩ := hbReadData_contents injective stored cached mappings
  refine ⟨filled, ?_, sound⟩
  rw [isRead, readBlocks_eq cfg.blockSize_pos fits]
  intro k inside
  rw [← bytes k inside, FileMap.byte]
  cases (storedFile store ino).content ((start + k) / cfg.blockSize) <;> rfl

end Contents

theorem IdleState.InOrder.addressed (inOrder : state.InOrder cfg ino) (present : state.blocks ⊆ involved)
    (reader : Nat) :
    (∀ hash data, blockData state.store hash = some data → Addressed cfg involved hash data) ∧
      ∀ hash data, (state.caches reader).lookup hash = some data → Addressed cfg involved hash data :=
  ⟨fun hash data found => ⟨present (Or.inl ⟨hash, found⟩), inOrder.consistent.addressed hash data found⟩,
    fun hash data found => ⟨present (Or.inr ⟨reader, hash, found⟩), inOrder.sound reader hash data found⟩⟩

theorem hbReadData_spec (inOrder : state.InOrder cfg ino) (present : state.blocks ⊆ involved)
    (injective : Set.InjOn cfg.calculateHash involved) (reader start size : Nat) :
    ∃ filled, hbReadData cfg ino start (some size) (state.caches reader) state.store =
        (.ok (readBlocks (BlockSplitterRead.new cfg.blockSize start size)
          fun index => ((state.file ino).content index).getD []), filled) ∧
      ∀ hash data, filled.lookup hash = some data → Addressed cfg involved hash data := by
  obtain ⟨stored, cached⟩ := inOrder.addressed present reader
  exact hbReadData_contents injective stored cached fun index _ _ => inOrder.consistent.mapping_eq index

theorem hbReadData_bytes (inOrder : state.InOrder cfg ino) (present : state.blocks ⊆ involved)
    (injective : Set.InjOn cfg.calculateHash involved) (reader start : Nat) {size : Nat} {data : Bytes}
    (fits : data.length ≤ size)
    (bytes : ∀ k < size, (state.file ino).byte cfg.blockSize (start + k) = data[k]?) :
    ∃ filled, hbReadData cfg ino start (some size) (state.caches reader) state.store = (.ok data, filled) ∧
      ∀ hash data, filled.lookup hash = some data → Addressed cfg involved hash data := by
  obtain ⟨stored, cached⟩ := inOrder.addressed present reader
  exact hbReadData_contents_bytes injective stored cached (fun index _ _ => inOrder.consistent.mapping_eq index)
    fits bytes

end Read

end TiFs
