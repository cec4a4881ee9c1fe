import Mathlib.Data.List.Nodup
import Mathlib.Data.List.Perm.Basic
import Mathlib.Data.List.Range
import TiFs.Library.Overlay
import TiFs.Store

/-! How a write is cut into an irregular first part, full middle blocks and an
irregular last part, and how a read range is cut into blocks. -/

namespace TiFs

open Overlay

structure WriteTaskData where
  data : Bytes
  start : Nat
  deriving DecidableEq, Repr

structure BlockIndexAndData where
  blockIndex : BlockIndex
  data : Bytes
  deriving DecidableEq, Repr

structure BlockSplitterWrite where
  blockSize : Nat
  start : Nat
  data : Bytes
  firstDataStartPosition : Nat
  firstData : BlockIndexAndData
  midData : BlockIndexAndData
  lastData : BlockIndexAndData
  deriving DecidableEq, Repr

/-- The first part is empty when the write starts with a full block. -/
def splitFirst (blockSize start : Nat) (data : Bytes) : Bytes × BlockIndex × Bytes :=
  let firstBlockRemainingSpace := blockSize - start % blockSize
  let firstBlockWriteLength := min firstBlockRemainingSpace data.length
  if firstBlockWriteLength = blockSize then
    ([], start / blockSize, data)
  else
    (data.take firstBlockWriteLength, start / blockSize + 1, data.drop firstBlockWriteLength)

def BlockSplitterWrite.new (blockSize start : Nat) (data : Bytes) : BlockSplitterWrite :=
  let first := (splitFirst blockSize start data).1
  let blockIndex := (splitFirst blockSize start data).2.1
  let rest := (splitFirst blockSize start data).2.2
  let fullBlocks := rest.length / blockSize
  let beginOfLastIrregularBlock := fullBlocks * blockSize
  let endBlock := rest.drop beginOfLastIrregularBlock
  { blockSize := blockSize
    start := start
    data := data
    firstDataStartPosition := start % blockSize
    firstData := ⟨start / blockSize, first⟩
    midData := ⟨blockIndex, rest.take beginOfLastIrregularBlock⟩
    -- Without an end block the index is that of the last valid block.
    lastData := ⟨if endBlock.length > 0 then blockIndex + fullBlocks else blockIndex + fullBlocks - 1,
      endBlock⟩ }

/-- Half open, as the source's range of block indices. -/
def BlockSplitterWrite.getRange (bs : BlockSplitterWrite) : BlockIndex × BlockIndex :=
  (bs.firstData.blockIndex, bs.lastData.blockIndex + 1)

structure BlockSplitterRead where
  blockSize : Nat
  start : Nat
  size : Nat
  firstBlockIndex : Nat
  firstBlockReadOffset : Nat
  bytesToReadFirstBlock : Nat
  blockCount : Nat
  endBlockIndex : Nat
  deriving DecidableEq, Repr

def BlockSplitterRead.new (blockSize start size : Nat) : BlockSplitterRead :=
  let firstBlock := start / blockSize
  let firstBlockReadOffset := start % blockSize
  let bytesFirstBlock := min (blockSize - firstBlockReadOffset) size
  let remainingSize := size - bytesFirstBlock
  let lastBlock := firstBlock + remainingSize / blockSize
  let remainingBytesLastBlock := remainingSize % blockSize
  let blockCount := lastBlock - firstBlock + (if bytesFirstBlock > 0 then 1 else 0) +
    (if remainingBytesLastBlock > 0 then 1 else 0)
  { blockSize := blockSize
    start := start
    size := size
    firstBlockIndex := firstBlock
    firstBlockReadOffset := firstBlockReadOffset
    bytesToReadFirstBlock := bytesFirstBlock
    blockCount := blockCount
    endBlockIndex := firstBlock + blockCount }

def chunks (size : Nat) (data : Bytes) : List Bytes :=
  (List.range (divCeil data.length size)).map fun k => (data.drop (k * size)).take size

structure Part where
  index : Nat
  position : Nat
  data : Bytes
  deriving DecidableEq, Repr

/-- The parts handled by `UpdateIrregularBlock`. -/
def BlockSplitterWrite.irregularParts (bs : BlockSplitterWrite) : List Part :=
  [⟨bs.firstData.blockIndex, bs.firstDataStartPosition, bs.firstData.data⟩,
   ⟨bs.lastData.blockIndex, 0, bs.lastData.data⟩].filter fun part => part.data.length > 0

def BlockSplitterWrite.midParts (bs : BlockSplitterWrite) : List Part :=
  (chunks bs.blockSize bs.midData.data).mapIdx fun index chunk =>
    ⟨bs.midData.blockIndex + index, 0, chunk⟩

def partAt (blockSize : Nat) (job : WriteTaskData) (index : Nat) : Option Part :=
  let lower := max job.start (index * blockSize)
  let upper := min (job.start + job.data.length) (index * blockSize + blockSize)
  if lower < upper then
    some ⟨index, lower - index * blockSize,
      (job.data.drop (lower - job.start)).take (upper - lower)⟩
  else none

section PartAt

variable {blockSize : Nat} {job : WriteTaskData} {index : Nat} {part : Part}

theorem partAt_eq_some_iff :
    partAt blockSize job index = some part ↔
      max job.start (index * blockSize) <
        min (job.start + job.data.length) (index * blockSize + blockSize) ∧
      part = ⟨index, max job.start (index * blockSize) - index * blockSize,
        (job.data.drop (max job.start (index * blockSize) - job.start)).take
          (min (job.start + job.data.length) (index * blockSize + blockSize) -
            max job.start (index * blockSize))⟩ := by
  unfold partAt
  by_cases inside : max job.start (index * blockSize) <
      min (job.start + job.data.length) (index * blockSize + blockSize)
  · simp only [inside, if_true, Option.some.injEq, true_and]
    exact eq_comm
  · simp only [inside, if_false, reduceCtorEq, false_and]

theorem partAt_index (found : partAt blockSize job index = some part) : part.index = index := by
  obtain ⟨_, rfl⟩ := partAt_eq_some_iff.mp found
  rfl

theorem partAt_length (found : partAt blockSize job index = some part) :
    part.data.length = min (job.start + job.data.length) (index * blockSize + blockSize) -
      max job.start (index * blockSize) := by
  obtain ⟨inside, rfl⟩ := partAt_eq_some_iff.mp found
  simp only [List.length_take, List.length_drop]
  omega

theorem partAt_bound (found : partAt blockSize job index = some part) :
    0 < part.data.length ∧ part.position + part.data.length ≤ blockSize := by
  have size := partAt_length found
  obtain ⟨inside, rfl⟩ := partAt_eq_some_iff.mp found
  simp only at size ⊢
  omega

end PartAt

theorem length_chunks (size : Nat) (data : Bytes) :
    (chunks size data).length = divCeil data.length size := by
  simp only [chunks, List.length_map, List.length_range]

theorem mem_midParts {bs : BlockSplitterWrite} {part : Part} :
    part ∈ bs.midParts ↔ ∃ k < divCeil bs.midData.data.length bs.blockSize,
      part = ⟨bs.midData.blockIndex + k, 0,
        (bs.midData.data.drop (k * bs.blockSize)).take bs.blockSize⟩ := by
  simp only [BlockSplitterWrite.midParts, List.mem_iff_getElem?, List.getElem?_mapIdx]
  constructor
  · rintro ⟨k, found⟩
    obtain ⟨chunk, listed, rfl⟩ := Option.map_eq_some_iff.mp found
    obtain ⟨bound, rfl⟩ := List.getElem?_eq_some_iff.mp listed
    rw [length_chunks] at bound
    exact ⟨k, bound, by simp only [chunks, List.getElem_map, List.getElem_range]⟩
  · rintro ⟨k, bound, rfl⟩
    refine ⟨k, ?_⟩
    rw [chunks, List.getElem?_map, List.getElem?_range bound]
    rfl

/-- Either the write starts with a full block, or its first part ends in the
block it starts in. -/
theorem splitFirst_cases {blockSize : Nat} (positive : 0 < blockSize) (start : Nat) (data : Bytes) :
    (start % blockSize = 0 ∧ blockSize ≤ data.length ∧
      splitFirst blockSize start data = ([], start / blockSize, data)) ∨
    ∃ size, size = min (blockSize - start % blockSize) data.length ∧ size < blockSize ∧
      splitFirst blockSize start data =
        (data.take size, start / blockSize + 1, data.drop size) := by
  have offset := Nat.mod_lt start positive
  by_cases full : min (blockSize - start % blockSize) data.length = blockSize
  · left
    refine ⟨by omega, by omega, ?_⟩
    simp only [splitFirst, full, if_true]
  · right
    refine ⟨_, rfl, by omega, ?_⟩
    simp only [splitFirst, full, if_false]

theorem midChunk_eq_partAt {blockSize start : Nat} {data : Bytes} {offset index k : Nat}
    (bounded : offset + (k + 1) * blockSize ≤ data.length)
    (aligned : start + offset = index * blockSize) (positive : 0 < blockSize) :
    partAt blockSize ⟨data, start⟩ (index + k) =
      some ⟨index + k, 0, (data.drop (offset + k * blockSize)).take blockSize⟩ := by
  rw [Nat.add_mul] at bounded
  rw [partAt_eq_some_iff]
  simp only [Nat.add_mul, Part.mk.injEq, true_and]
  have lower : max start (index * blockSize + k * blockSize) = start + offset + k * blockSize := by
    omega
  have upper : min (start + data.length) (index * blockSize + k * blockSize + blockSize) =
      start + offset + k * blockSize + blockSize := by omega
  rw [lower, upper]
  refine ⟨by omega, by omega, ?_⟩
  congr 1
  · omega
  · congr 1
    omega

theorem lastPart_eq_partAt {blockSize start : Nat} {data : Bytes} {offset index full : Nat}
    (more : offset + full * blockSize < data.length)
    (less : data.length < offset + full * blockSize + blockSize)
    (aligned : start + offset = index * blockSize) :
    partAt blockSize ⟨data, start⟩ (index + full) =
      some ⟨index + full, 0, data.drop (offset + full * blockSize)⟩ := by
  rw [partAt_eq_some_iff]
  simp only [Nat.add_mul, Part.mk.injEq, true_and]
  have lower : max start (index * blockSize + full * blockSize) =
      start + offset + full * blockSize := by omega
  have upper : min (start + data.length) (index * blockSize + full * blockSize + blockSize) =
      start + data.length := by omega
  rw [lower, upper]
  refine ⟨by omega, by omega, ?_⟩
  rw [List.take_of_length_le (by simp only [List.length_drop]; omega)]
  congr 1
  omega

theorem firstPart_eq_partAt {blockSize start : Nat} {data : Bytes} (positive : 0 < blockSize)
    (nonempty : 0 < data.length) :
    partAt blockSize ⟨data, start⟩ (start / blockSize) =
      some ⟨start / blockSize, start % blockSize,
        data.take (min (blockSize - start % blockSize) data.length)⟩ := by
  have offset := Nat.mod_lt start positive
  have whole : start / blockSize * blockSize + start % blockSize = start := by
    rw [Nat.mul_comm]
    exact Nat.div_add_mod start blockSize
  rw [partAt_eq_some_iff]
  simp only [Part.mk.injEq, true_and]
  have lower : max start (start / blockSize * blockSize) = start := by omega
  rw [lower]
  refine ⟨by omega, by omega, ?_⟩
  rw [Nat.sub_self, List.drop_zero]
  congr 1
  omega

structure Split (blockSize : Nat) (job : WriteTaskData) (offset index full : Nat) : Prop where
  bounded : offset + full * blockSize ≤ job.data.length
  less : job.data.length < offset + full * blockSize + blockSize
  aligned : offset < job.data.length → job.start + offset = index * blockSize
  first : (offset = 0 ∧ index = job.start / blockSize ∧ 0 < full) ∨
    (offset = min (blockSize - job.start % blockSize) job.data.length ∧ 0 < offset ∧
      offset < blockSize ∧ index = job.start / blockSize + 1)

theorem split_of_new {blockSize : Nat} (positive : 0 < blockSize) (job : WriteTaskData)
    (nonempty : 0 < job.data.length) :
    ∃ offset index full, Split blockSize job offset index full ∧
      BlockSplitterWrite.new blockSize job.start job.data =
        { blockSize := blockSize
          start := job.start
          data := job.data
          firstDataStartPosition := job.start % blockSize
          firstData := ⟨job.start / blockSize, job.data.take offset⟩
          midData := ⟨index, (job.data.drop offset).take (full * blockSize)⟩
          lastData := ⟨if offset + full * blockSize < job.data.length then index + full
            else index + full - 1, job.data.drop (offset + full * blockSize)⟩ } := by
  have offset := Nat.mod_lt job.start positive
  have whole : job.start / blockSize * blockSize + job.start % blockSize = job.start := by
    rw [Nat.mul_comm]
    exact Nat.div_add_mod job.start blockSize
  rcases splitFirst_cases positive job.start job.data with ⟨boundary, long, split⟩ | ⟨size, isSize, short, split⟩
  · have quotient := Nat.div_add_mod job.data.length blockSize
    have remainder := Nat.mod_lt job.data.length positive
    rw [Nat.mul_comm] at quotient
    refine ⟨0, job.start / blockSize, job.data.length / blockSize, ⟨by omega, by omega, ?_, ?_⟩, ?_⟩
    · intro _
      omega
    · exact Or.inl ⟨rfl, rfl, Nat.div_pos long positive⟩
    · simp only [BlockSplitterWrite.new, split, List.take_zero, List.drop_zero, Nat.zero_add,
        List.length_drop, gt_iff_lt, Nat.sub_pos_iff_lt]
  · have quotient := Nat.div_add_mod (job.data.length - size) blockSize
    have remainder := Nat.mod_lt (job.data.length - size) positive
    rw [Nat.mul_comm] at quotient
    refine ⟨size, job.start / blockSize + 1, (job.data.length - size) / blockSize,
      ⟨by omega, by omega, ?_, ?_⟩, ?_⟩
    · intro more
      rw [Nat.add_mul]
      omega
    · exact Or.inr ⟨isSize, by omega, short, rfl⟩
    · simp only [BlockSplitterWrite.new, split, List.length_drop, List.drop_drop, gt_iff_lt,
        BlockSplitterWrite.mk.injEq, BlockIndexAndData.mk.injEq, true_and, and_true]
      congr 1
      rw [eq_iff_iff]
      omega

section Parts

variable {blockSize : Nat} {job : WriteTaskData} {part : Part}

theorem divCeil_mul {size : Nat} (positive : 0 < size) (count : Nat) :
    divCeil (count * size) size = count := by
  rw [divCeil, Nat.div_eq_iff positive]
  omega

theorem Split.mid_length {offset index full : Nat} (split : Split blockSize job offset index full) :
    ((job.data.drop offset).take (full * blockSize)).length = full * blockSize := by
  have bounded := split.bounded
  simp only [List.length_take, List.length_drop]
  omega

theorem mid_chunk {offset full k : Nat} (inside : k < full) :
    (((job.data.drop offset).take (full * blockSize)).drop (k * blockSize)).take blockSize =
      (job.data.drop (offset + k * blockSize)).take blockSize := by
  have room : k * blockSize + blockSize ≤ full * blockSize := by
    rw [← Nat.succ_mul]
    exact Nat.mul_le_mul_right blockSize inside
  rw [List.drop_take, List.drop_drop, List.take_take]
  congr 1
  omega

theorem Split.mid_eq_partAt {offset index full k : Nat} (positive : 0 < blockSize)
    (split : Split blockSize job offset index full) (inside : k < full) :
    partAt blockSize job (index + k) =
      some ⟨index + k, 0, (job.data.drop (offset + k * blockSize)).take blockSize⟩ := by
  have room : (k + 1) * blockSize ≤ full * blockSize := Nat.mul_le_mul_right blockSize inside
  have bounded := split.bounded
  have some : 0 < (k + 1) * blockSize := Nat.mul_pos (by omega) positive
  exact midChunk_eq_partAt (by omega) (split.aligned (by omega)) positive

theorem Split.index_cases {offset index full : Nat} (positive : 0 < blockSize)
    (split : Split blockSize job offset index full) {i : Nat}
    (found : partAt blockSize job i = some part) :
    (0 < offset ∧ i = job.start / blockSize) ∨ (∃ k < full, i = index + k) ∨
      (offset + full * blockSize < job.data.length ∧ i = index + full) := by
  obtain ⟨inside, _⟩ := partAt_eq_some_iff.mp found
  have position := Nat.mod_lt job.start positive
  have whole : job.start / blockSize * blockSize + job.start % blockSize = job.start := by
    rw [Nat.mul_comm]
    exact Nat.div_add_mod job.start blockSize
  have least : job.start / blockSize ≤ i := by
    by_contra below
    have step := Nat.mul_le_mul_right blockSize (Nat.succ_le_of_lt (Nat.lt_of_not_le below))
    rw [Nat.succ_mul] at step
    omega
  by_cases early : i < index
  · left
    rcases split.first with ⟨_, same, _⟩ | ⟨_, some, _, next⟩
    · omega
    · exact ⟨some, by omega⟩
  · right
    obtain ⟨k, rfl⟩ := Nat.exists_eq_add_of_le (Nat.le_of_not_lt early)
    rw [Nat.add_mul] at inside
    have rest : offset < job.data.length := by
      by_contra all
      have bounded := split.bounded
      rcases split.first with ⟨none, _, some⟩ | ⟨isSize, _, _, next⟩
      · have block := Nat.mul_pos some positive
        omega
      · have indexed : index * blockSize = job.start / blockSize * blockSize + blockSize := by
          rw [next, Nat.succ_mul]
        omega
    have aligned := split.aligned rest
    have less := split.less
    rcases Nat.lt_trichotomy k full with mid | last | beyond
    · exact Or.inl ⟨k, mid, rfl⟩
    · rw [last] at inside ⊢
      exact Or.inr ⟨by omega, rfl⟩
    · have step := Nat.mul_le_mul_right blockSize (Nat.succ_le_of_lt beyond)
      rw [Nat.succ_mul] at step
      omega

/-- The range that is read for a write has every block that the write touches. -/
theorem mem_getRange (positive : 0 < blockSize) (nonempty : 0 < job.data.length) {i : Nat}
    (found : partAt blockSize job i = some part) :
    (BlockSplitterWrite.new blockSize job.start job.data).getRange.1 ≤ i ∧
      i < (BlockSplitterWrite.new blockSize job.start job.data).getRange.2 := by
  obtain ⟨offset, index, full, split, equal⟩ := split_of_new positive job nonempty
  rw [equal]
  have lower : job.start / blockSize ≤ index := by
    rcases split.first with ⟨_, same, _⟩ | ⟨_, _, _, next⟩ <;> omega
  have last : index + full ≤
      (if offset + full * blockSize < job.data.length then index + full else index + full - 1) + 1 := by
    split_ifs <;> omega
  have upper : ∀ bound, index + full ≤ bound + 1 → i < index + full → job.start / blockSize ≤ i →
      job.start / blockSize ≤ i ∧ i < bound + 1 := by
    intro bound reach inside above
    omega
  rcases split.index_cases positive found with ⟨some, rfl⟩ | ⟨k, inside, rfl⟩ | ⟨more, rfl⟩
  · refine upper _ last ?_ le_rfl
    rcases split.first with ⟨none, _, _⟩ | ⟨_, _, _, next⟩ <;> omega
  · exact upper _ last (by omega) (by omega)
  · simp only [BlockSplitterWrite.getRange, if_pos more]
    exact ⟨lower.trans (Nat.le_add_right _ _), Nat.lt_succ_self _⟩

theorem mem_irregularParts_iff (positive : 0 < blockSize) (nonempty : 0 < job.data.length) :
    part ∈ (BlockSplitterWrite.new blockSize job.start job.data).irregularParts ↔
      partAt blockSize job part.index = some part ∧ part.data.length < blockSize := by
  obtain ⟨offset, index, full, split, equal⟩ := split_of_new positive job nonempty
  have bounded := split.bounded
  have less := split.less
  rw [equal, BlockSplitterWrite.irregularParts, List.mem_filter]
  simp only [List.mem_cons, List.not_mem_nil, or_false, gt_iff_lt, decide_eq_true_eq]
  constructor
  · rintro ⟨rfl | rfl, some⟩
    · simp only [List.length_take] at some ⊢
      rcases split.first with ⟨none, _, _⟩ | ⟨isSize, _, short, _⟩
      · omega
      · refine ⟨?_, by omega⟩
        rw [isSize]
        exact firstPart_eq_partAt positive nonempty
    · simp only [List.length_drop] at some ⊢
      have more : offset + full * blockSize < job.data.length := by omega
      rw [if_pos more]
      exact ⟨lastPart_eq_partAt more less (split.aligned (by omega)), by omega⟩
  · rintro ⟨found, short⟩
    rcases split.index_cases positive found with ⟨some, isFirst⟩ | ⟨k, inside, isMid⟩ | ⟨more, isLast⟩
    · have expected := @firstPart_eq_partAt blockSize job.start job.data positive nonempty
      rw [← isFirst] at expected
      have same := Option.some.inj (found.symm.trans expected)
      rcases split.first with ⟨none, _, _⟩ | ⟨isSize, _, _, _⟩
      · omega
      · rw [same, isFirst, isSize]
        simp only [List.length_take]
        exact ⟨Or.inl trivial, by omega⟩
    · have expected := split.mid_eq_partAt positive inside
      rw [← isMid] at expected
      have room : (k + 1) * blockSize ≤ full * blockSize := Nat.mul_le_mul_right blockSize inside
      rw [Nat.succ_mul] at room
      have long := congrArg (fun part => part.data.length) (Option.some.inj (found.symm.trans expected))
      simp only [List.length_take, List.length_drop] at long
      omega
    · have expected := lastPart_eq_partAt more less (split.aligned (by omega))
      rw [← isLast] at expected
      have same := Option.some.inj (found.symm.trans expected)
      rw [same, isLast, if_pos more]
      simp only [List.length_drop]
      exact ⟨Or.inr trivial, by omega⟩

theorem mem_midParts_iff (positive : 0 < blockSize) (nonempty : 0 < job.data.length) :
    part ∈ (BlockSplitterWrite.new blockSize job.start job.data).midParts ↔
      partAt blockSize job part.index = some part ∧ part.data.length = blockSize := by
  obtain ⟨offset, index, full, split, equal⟩ := split_of_new positive job nonempty
  have bounded := split.bounded
  have less := split.less
  rw [equal, mem_midParts]
  simp only [split.mid_length, divCeil_mul positive]
  constructor
  · rintro ⟨k, inside, rfl⟩
    simp only [mid_chunk inside]
    refine ⟨split.mid_eq_partAt positive inside, ?_⟩
    have room : (k + 1) * blockSize ≤ full * blockSize := Nat.mul_le_mul_right blockSize inside
    rw [Nat.succ_mul] at room
    simp only [List.length_take, List.length_drop]
    omega
  · rintro ⟨found, long⟩
    rcases split.index_cases positive found with ⟨some, isFirst⟩ | ⟨k, inside, isMid⟩ | ⟨more, isLast⟩
    · have expected := @firstPart_eq_partAt blockSize job.start job.data positive nonempty
      rw [← isFirst] at expected
      have same := congrArg (fun part => part.data.length) (Option.some.inj (found.symm.trans expected))
      simp only [List.length_take] at same
      rcases split.first with ⟨none, _, _⟩ | ⟨isSize, _, short, _⟩
      · omega
      · omega
    · have expected := split.mid_eq_partAt positive inside
      rw [← isMid] at expected
      refine ⟨k, inside, ?_⟩
      rw [mid_chunk inside, ← isMid]
      exact Option.some.inj (found.symm.trans expected)
    · have expected := lastPart_eq_partAt more less (split.aligned (by omega))
      rw [← isLast] at expected
      have same := congrArg (fun part => part.data.length) (Option.some.inj (found.symm.trans expected))
      simp only [List.length_drop] at same
      omega

end Parts

end TiFs
