import TiFs.SplitterArithmetic

namespace TiFs

open CheckedWord Tables

/-- The bytes of an allocation are counted by `isize`. -/
def maxCapacity : Nat := 2 ^ 63 - 1

def vecWithCapacity (capacity : Nat) : Option Bytes := if capacity ≤ maxCapacity then some [] else none

def extendFromSlice (result part : Bytes) : Option Bytes :=
  if result.length + part.length ≤ maxCapacity then some (result ++ part) else none

def checkedReadBlock (bs : BlockSplitterRead) (blockData result : Bytes) (blockIndex : Nat) : Option Bytes := do
  let relIndex ← sub blockIndex bs.firstBlockIndex
  let (rdStart, rdSize) ←
    if relIndex = 0 then some (bs.firstBlockReadOffset, bs.bytesToReadFirstBlock)
    else (sub bs.size result.length).map fun rest => (0, min rest bs.blockSize)
  if rdStart < blockData.length then
    let stop ← add 64 rdStart rdSize
    let part ← subslice blockData rdStart (min stop blockData.length)
    extendFromSlice result part
  else some result

def blockAt (blockHashes : BlockHashes) (blocksData : BlocksData) (blockIndex : Nat) : Option Bytes :=
  (blockHashes.lookup blockIndex).bind blocksData.lookup

def checkedReadFromBlocks (bs : BlockSplitterRead) (blockHashes : BlockHashes) (blocksData : BlocksData) :
    Option Bytes := do
  let capacity ← mul 64 bs.blockSize blockHashes.keys.length
  let result ← vecWithCapacity capacity
  (List.range' bs.firstBlockIndex (bs.endBlockIndex - bs.firstBlockIndex)).foldlM
    (fun result blockIndex =>
      checkedReadBlock bs ((blockAt blockHashes blocksData blockIndex).getD []) result blockIndex) result

/-- Full blocks up to the one with index `m`, and nothing behind that one. -/
structure Dense (blockSize : Nat) (block : Nat → Option Bytes) (m : Nat) : Prop where
  full : ∀ i < m, ∃ data, block i = some data ∧ data.length = blockSize
  last : ∀ data, block m = some data → data.length ≤ blockSize
  beyond : ∀ i, m < i → block i = none

def concatenated (block : Nat → Option Bytes) (m : Nat) : Bytes :=
  (List.range (m + 1)).flatMap fun i => (block i).getD []

/-- The read returns, no more than was asked for, and from dense blocks just what they hold there. -/
def Reassembles (blockSize start size : Nat) (blockHashes : BlockHashes) (blocksData : BlocksData) : Prop :=
  ∃ bs result, BlockSplitterRead.checkedNew blockSize start size = some bs ∧
    checkedReadFromBlocks bs blockHashes blocksData = some result ∧ result.length ≤ size ∧
    ∀ m, Dense blockSize (blockAt blockHashes blocksData) m →
      result = ((concatenated (blockAt blockHashes blocksData) m).drop start).take size

section Round

variable {bs : BlockSplitterRead} {blockData result : Bytes} {blockIndex : Nat}

theorem checkedReadBlock_eq (lower : bs.firstBlockIndex ≤ blockIndex) (within : result.length ≤ bs.size)
    (word : bs.firstBlockReadOffset + bs.bytesToReadFirstBlock < 2 ^ 64) (size : bs.size < 2 ^ 64)
    (fits : (readBlock bs blockData result blockIndex).length ≤ maxCapacity) :
    checkedReadBlock bs blockData result blockIndex = some (readBlock bs blockData result blockIndex) := by
  have round : ∀ rdStart rdSize, rdStart + rdSize < 2 ^ 64 →
      (result ++ (blockData.take (min (rdStart + rdSize) blockData.length)).drop rdStart).length ≤ maxCapacity ∨
        ¬ rdStart < blockData.length →
      (if rdStart < blockData.length then
        (add 64 rdStart rdSize).bind fun stop =>
          (subslice blockData rdStart (min stop blockData.length)).bind fun part => extendFromSlice result part
      else some result) =
        some (if rdStart < blockData.length then
          result ++ (blockData.take (min (rdStart + rdSize) blockData.length)).drop rdStart else result) := by
    intro rdStart rdSize sum room
    by_cases inside : rdStart < blockData.length
    · have short := room.resolve_right (not_not_intro inside)
      rw [List.length_append] at short
      rw [if_pos inside, if_pos inside, add_of_lt sum, Option.bind_some, subslice_of_le (by omega) (by omega),
        Option.bind_some, extendFromSlice, if_pos short]
    · rw [if_neg inside, if_neg inside]
  simp only [checkedReadBlock, readBlock, sub_of_le lower, sub_of_le within, Option.bind_eq_bind,
    Option.bind_some, Option.map_some] at fits ⊢
  by_cases first : blockIndex - bs.firstBlockIndex = 0
  · simp only [if_pos first] at fits ⊢
    refine round _ _ word ?_
    by_cases inside : bs.firstBlockReadOffset < blockData.length
    · exact Or.inl (by rwa [if_pos inside] at fits)
    · exact Or.inr inside
  · simp only [if_neg first] at fits ⊢
    refine round _ _ (by omega) ?_
    by_cases inside : 0 < blockData.length
    · exact Or.inl (by rwa [if_pos inside] at fits)
    · exact Or.inr inside

end Round

section Loop

variable {blockSize start size : Nat}

def readPrefix (bs : BlockSplitterRead) (block : Nat → Bytes) (count : Nat) : Bytes :=
  (List.range' bs.firstBlockIndex count).foldl
    (fun result blockIndex => readBlock bs (block blockIndex) result blockIndex) []

theorem readPrefix_succ (bs : BlockSplitterRead) (block : Nat → Bytes) (count : Nat) :
    readPrefix bs block (count + 1) =
      readBlock bs (block (bs.firstBlockIndex + count)) (readPrefix bs block count) (bs.firstBlockIndex + count) := by
  rw [readPrefix, List.range'_1_concat, List.foldl_append, List.foldl_cons, List.foldl_nil, readPrefix]

theorem readPrefix_extra (block : Nat → Bytes) (count : Nat) :
    ∃ extra, readPrefix (BlockSplitterRead.new blockSize start size) block (count + 1) =
        readPrefix (BlockSplitterRead.new blockSize start size) block count ++ extra ∧
      extra.length ≤ size - (readPrefix (BlockSplitterRead.new blockSize start size) block count).length ∧
      extra.length ≤ blockSize ∧ extra.length ≤ (block (start / blockSize + count)).length := by
  have first : (BlockSplitterRead.new blockSize start size).firstBlockIndex = start / blockSize := rfl
  rw [readPrefix_succ, readBlock_eq, first, Nat.add_sub_cancel_left]
  cases count with
  | zero =>
      have offset : (BlockSplitterRead.new blockSize start size).bytesToReadFirstBlock =
          min (blockSize - start % blockSize) size := rfl
      refine ⟨_, if_pos rfl, ?_⟩
      simp only [readPrefix, List.range'_zero, List.foldl_nil, List.length_take, List.length_drop,
        List.length_nil, offset]
      omega
  | succ count =>
      have isSize : (BlockSplitterRead.new blockSize start size).size = size := rfl
      have block : (BlockSplitterRead.new blockSize start size).blockSize = blockSize := rfl
      refine ⟨_, if_neg (Nat.succ_ne_zero count), ?_⟩
      simp only [List.length_take, isSize, block]
      omega

/-- The result has no more than was asked for, and no more than a block for each round that finds data. -/
theorem readPrefix_bound (block : Nat → Bytes) (count : Nat) :
    (readPrefix (BlockSplitterRead.new blockSize start size) block count).length ≤ size ∧
      (readPrefix (BlockSplitterRead.new blockSize start size) block count).length ≤
        blockSize * ((List.range' (start / blockSize) count).filter fun i => 0 < (block i).length).length := by
  induction count with
  | zero => exact ⟨Nat.zero_le _, Nat.zero_le _⟩
  | succ count ih =>
      obtain ⟨short, covered⟩ := ih
      obtain ⟨extra, isNext, missing, inBlock, inData⟩ := @readPrefix_extra blockSize start size block count
      rw [isNext, List.length_append, List.range'_1_concat, List.filter_append, List.length_append, Nat.mul_add]
      refine ⟨by omega, Nat.add_le_add covered ?_⟩
      by_cases some : 0 < (block (start / blockSize + count)).length
      · simp only [List.filter_cons, some, decide_true, if_true, List.filter_nil, List.length_singleton, Nat.mul_one]
        exact inBlock
      · omega

theorem length_filter_le (blockHashes : BlockHashes) (blocksData : BlocksData) (first count : Nat) :
    ((List.range' first count).filter fun i =>
      0 < ((blockAt blockHashes blocksData i).getD []).length).length ≤ blockHashes.keys.length := by
  apply List.Subperm.length_le
  apply List.subperm_of_subset (List.Nodup.filter _ (List.nodup_range' 1))
  intro i listed
  have found := of_decide_eq_true (List.mem_filter.mp listed).2
  rw [← AList.mem_keys, ← AList.lookup_isSome]
  cases known : blockHashes.lookup i with
  | some hash => rfl
  | none =>
      rw [blockAt, known] at found
      exact absurd found (Nat.lt_irrefl 0)

/-- With room for a block for each hash all rounds succeed. -/
theorem foldlM_eq (fits : start + size < 2 ^ 64) (blockHashes : BlockHashes) (blocksData : BlocksData)
    (room : blockSize * blockHashes.keys.length ≤ maxCapacity) (count : Nat) :
    (List.range' (start / blockSize) count).foldlM (fun result blockIndex =>
        checkedReadBlock (BlockSplitterRead.new blockSize start size)
          ((blockAt blockHashes blocksData blockIndex).getD []) result blockIndex) [] =
      some (readPrefix (BlockSplitterRead.new blockSize start size)
        (fun i => (blockAt blockHashes blocksData i).getD []) count) := by
  induction count with
  | zero => rfl
  | succ count ih =>
      have ⟨short, _⟩ := @readPrefix_bound blockSize start size
        (fun i => (blockAt blockHashes blocksData i).getD []) count
      have ⟨_, covered⟩ := @readPrefix_bound blockSize start size
        (fun i => (blockAt blockHashes blocksData i).getD []) (count + 1)
      have blocks := length_filter_le blockHashes blocksData (start / blockSize) (count + 1)
      have offset : (BlockSplitterRead.new blockSize start size).firstBlockReadOffset +
          (BlockSplitterRead.new blockSize start size).bytesToReadFirstBlock ≤ start + size :=
        Nat.add_le_add (Nat.mod_le _ _) (Nat.min_le_right _ _)
      have index : (BlockSplitterRead.new blockSize start size).firstBlockIndex = start / blockSize := rfl
      rw [readPrefix_succ, index] at covered
      have round := checkedReadBlock_eq (index ▸ Nat.le_add_right _ _) short (by omega)
        (Nat.lt_of_le_of_lt (Nat.le_add_left _ _) fits)
        ((covered.trans (Nat.mul_le_mul_left _ blocks)).trans room)
      rw [List.range'_1_concat, List.foldlM_append, ih, readPrefix_succ, index]
      simp only [Option.bind_eq_bind, Option.bind_some, List.foldlM_cons, List.foldlM_nil, round]
      rfl

theorem checkedReadFromBlocks_eq (fits : start + size < 2 ^ 64) (blockHashes : BlockHashes)
    (blocksData : BlocksData) (room : blockSize * blockHashes.keys.length ≤ maxCapacity) :
    checkedReadFromBlocks (BlockSplitterRead.new blockSize start size) blockHashes blocksData =
      some (hbReadFromBlocks (BlockSplitterRead.new blockSize start size) blockHashes blocksData) := by
  have word : blockSize * blockHashes.keys.length < 2 ^ 64 := room.trans_lt (by decide)
  have rounds := foldlM_eq fits blockHashes blocksData room
    ((BlockSplitterRead.new blockSize start size).endBlockIndex - start / blockSize)
  have isBlock : (BlockSplitterRead.new blockSize start size).blockSize = blockSize := rfl
  rw [checkedReadFromBlocks, isBlock, mul_of_lt word, Option.bind_eq_bind, Option.bind_some, vecWithCapacity,
    if_pos room]
  exact rounds

end Loop

section Dense

variable {blockSize m : Nat} {block : Nat → Option Bytes}

theorem getElem?_concatenated (dense : Dense blockSize block m) {i r : Nat} (inBlock : r < blockSize) :
    (concatenated block m)[i * blockSize + r]? = ((block i).getD [])[r]? := by
  -- On the number of blocks in front, all of them full.
  have front : ∀ count ≤ m,
      ((List.range count).flatMap fun i => (block i).getD []).length = count * blockSize ∧
      ∀ i < count, ((List.range count).flatMap fun i => (block i).getD [])[i * blockSize + r]? =
        ((block i).getD [])[r]? := by
    intro count
    induction count with
    | zero => exact fun _ => ⟨(Nat.zero_mul _).symm, nofun⟩
    | succ count ih =>
        intro within
        obtain ⟨length, bytes⟩ := ih (by omega)
        obtain ⟨data, isData, full⟩ := dense.full count within
        rw [List.range_succ, List.flatMap_append, List.flatMap_singleton, isData, Option.getD_some]
        refine ⟨by rw [List.length_append, length, full, Nat.succ_mul], ?_⟩
        intro i below
        rcases Nat.lt_succ_iff_lt_or_eq.mp below with before | rfl
        · have room := Nat.mul_le_mul_right blockSize (Nat.succ_le_of_lt before)
          rw [Nat.succ_mul] at room
          rw [List.getElem?_append_left (by omega)]
          exact bytes i before
        · rw [List.getElem?_append_right (by omega), length, Nat.add_sub_cancel_left, isData, Option.getD_some]
  obtain ⟨length, bytes⟩ := front m le_rfl
  rw [concatenated, List.range_succ, List.flatMap_append, List.flatMap_singleton]
  rcases Nat.lt_trichotomy i m with before | rfl | behind
  · have room := Nat.mul_le_mul_right blockSize (Nat.succ_le_of_lt before)
    rw [Nat.succ_mul] at room
    rw [List.getElem?_append_left (by omega)]
    exact bytes i before
  · rw [List.getElem?_append_right (by omega), length, Nat.add_sub_cancel_left]
  · have short : ((block m).getD []).length ≤ blockSize := by
      cases isData : block m with
      | some data => exact dense.last data isData
      | none => exact Nat.zero_le _
    have room := Nat.mul_le_mul_right blockSize (Nat.succ_le_of_lt behind)
    rw [Nat.succ_mul] at room
    rw [dense.beyond i behind, List.getElem?_eq_none (by rw [List.length_append]; omega)]
    rfl

theorem read_dense {start size : Nat} (positive : 0 < blockSize) (dense : Dense blockSize block m) :
    readBlocks (BlockSplitterRead.new blockSize start size) (fun i => (block i).getD []) =
      ((concatenated block m).drop start).take size := by
  apply readBlocks_eq positive (List.length_take_le _ _)
  intro k within
  rw [List.getElem?_take_of_lt within, List.getElem?_drop, ← getElem?_concatenated dense (Nat.mod_lt _ positive)]
  congr 1
  rw [Nat.mul_comm]
  exact Nat.div_add_mod _ _

end Dense

/-- Reading from blocks is safe and exact exactly if the buffer for a block for each hash can
be allocated; no other operation fails. -/
theorem reassembles_iff (blockSize start size : Nat) (blockHashes : BlockHashes) (blocksData : BlocksData)
    (positive : 1 ≤ blockSize) (fits : start + size < 2 ^ 64) :
    Reassembles blockSize start size blockHashes blocksData ↔
      blockSize * blockHashes.keys.length ≤ 2 ^ 63 - 1 := by
  have cut := @BlockSplitterRead.checkedNew_eq blockSize start size positive fits
  constructor
  · rintro ⟨bs, result, isCut, returned, _⟩
    rw [← Option.some.inj (cut.symm.trans isCut)] at returned
    obtain ⟨capacity, product, allocated⟩ := Option.bind_eq_some_iff.mp returned
    obtain ⟨empty, isBuffer, _⟩ := Option.bind_eq_some_iff.mp allocated
    obtain ⟨_, isProduct⟩ := Option.ite_none_right_eq_some.mp product
    obtain ⟨room, _⟩ := Option.ite_none_right_eq_some.mp isBuffer
    rw [← Option.some.inj isProduct] at room
    exact room
  · intro room
    refine ⟨_, _, cut, checkedReadFromBlocks_eq fits blockHashes blocksData room, ?_, ?_⟩
    · exact (readPrefix_bound _ _).1
    · intro m dense
      exact read_dense positive dense

/-- A hole between two blocks, the second of them longer than a block. -/
theorem reassembles_sparse :
    Reassembles 4 2 9 (collect [(0, [7]), (2, [8])]) (collect [([7], [1, 2, 3]), ([8], [4, 5, 6, 7, 8])]) :=
  (reassembles_iff 4 2 9 (collect [(0, [7]), (2, [8])]) (collect [([7], [1, 2, 3]), ([8], [4, 5, 6, 7, 8])])
    (by decide) (by decide)).mpr (by decide)

/-- The buffer for one block of 2^63 bytes cannot be allocated, although one byte is asked for. -/
theorem reassembly_panics :
    ∃ bs, BlockSplitterRead.checkedNew (2 ^ 63) 0 1 = some bs ∧
      checkedReadFromBlocks bs (collect [(0, [7])]) (collect [([7], [1])]) = none ∧
      ¬ Reassembles (2 ^ 63) 0 1 (collect [(0, [7])]) (collect [([7], [1])]) := by
  refine ⟨_, BlockSplitterRead.checkedNew_eq (by decide) (by decide), by decide, ?_⟩
  rintro ⟨bs, result, isCut, returned, _⟩
  have cut := @BlockSplitterRead.checkedNew_eq (2 ^ 63) 0 1 (by decide) (by decide)
  have refused : checkedReadFromBlocks (BlockSplitterRead.new (2 ^ 63) 0 1) (collect [(0, [7])])
      (collect [([7], [1])]) = none := by decide
  rw [← Option.some.inj (cut.symm.trans isCut), refused] at returned
  cases returned

end TiFs
