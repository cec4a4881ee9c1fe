import TiFs.BlockRead
import TiFs.Library.CheckedWord

namespace TiFs

open CheckedWord

def checkedSplitFirst (blockSize start : Nat) (data : Bytes) : Option (Bytes × BlockIndex × Bytes) := do
  let blockIndex ← div start blockSize
  let firstDataStartPosition ← rem start blockSize
  let firstBlockRemainingSpace ← sub blockSize firstDataStartPosition
  let firstBlockWriteLength := min firstBlockRemainingSpace data.length
  if firstBlockWriteLength = blockSize then
    some ([], blockIndex, data)
  else
    let (firstBlock, rest) ← splitAt data firstBlockWriteLength
    let blockIndex ← add 64 blockIndex 1
    some (firstBlock, blockIndex, rest)

def BlockSplitterWrite.checkedNew (blockSize start : Nat) (data : Bytes) : Option BlockSplitterWrite := do
  let firstIndex ← div start blockSize
  let firstDataStartPosition ← rem start blockSize
  let (first, blockIndex, rest) ← checkedSplitFirst blockSize start data
  let fullBlocks ← div rest.length blockSize
  let beginOfLastIrregularBlock ← mul 64 fullBlocks blockSize
  let (mid, endBlock) ← splitAt rest beginOfLastIrregularBlock
  let lastIndex ← add 64 blockIndex fullBlocks
  let lastIndex ← if endBlock.length > 0 then some lastIndex else sub lastIndex 1
  some
    { blockSize := blockSize
      start := start
      data := data
      firstDataStartPosition := firstDataStartPosition
      firstData := ⟨firstIndex, first⟩
      midData := ⟨blockIndex, mid⟩
      lastData := ⟨lastIndex, endBlock⟩ }

def BlockSplitterWrite.checkedGetRange (bs : BlockSplitterWrite) : Option (BlockIndex × BlockIndex) := do
  let stop ← add 64 bs.lastData.blockIndex 1
  some (bs.firstData.blockIndex, stop)

def BlockSplitterRead.checkedNew (blockSize start size : Nat) : Option BlockSplitterRead := do
  let firstBlock ← div start blockSize
  let firstBlockReadOffset ← rem start blockSize
  let firstBlockRest ← sub blockSize firstBlockReadOffset
  let bytesFirstBlock := min firstBlockRest size
  let remainingSize ← sub size bytesFirstBlock
  let remainingBlocks ← div remainingSize blockSize
  let lastBlock ← add 64 firstBlock remainingBlocks
  let remainingBytesLastBlock ← rem remainingSize blockSize
  let blockCount ← sub lastBlock firstBlock
  let blockCount ← if bytesFirstBlock > 0 then add 64 blockCount 1 else some blockCount
  let blockCount ← if remainingBytesLastBlock > 0 then add 64 blockCount 1 else some blockCount
  let endBlockIndex ← add 64 firstBlock blockCount
  some
    { blockSize := blockSize
      start := start
      size := size
      firstBlockIndex := firstBlock
      firstBlockReadOffset := firstBlockReadOffset
      bytesToReadFirstBlock := bytesFirstBlock
      blockCount := blockCount
      endBlockIndex := endBlockIndex }

def BlockSplitterRead.blockRange (bs : BlockSplitterRead) : Nat × Nat :=
  (bs.firstBlockIndex, bs.endBlockIndex)

section Arithmetic

variable {blockSize start : Nat} {data : Bytes}

theorem checkedSplitFirst_eq (positive : 0 < blockSize) (room : start + 1 < 2 ^ 64) :
    checkedSplitFirst blockSize start data = some (splitFirst blockSize start data) := by
  have offset := Nat.mod_lt start positive
  have quotient := Nat.div_le_self start blockSize
  simp only [checkedSplitFirst, div_of_pos positive, rem_of_pos positive, sub_of_le offset.le,
    Option.bind_eq_bind, Option.bind_some, splitFirst]
  split
  · rfl
  · rw [splitAt_of_le (Nat.min_le_right _ _), Option.bind_some, add_of_lt (by omega)]
    rfl

theorem splitFirst_bounds (positive : 0 < blockSize) (room : start + 1 < 2 ^ 64)
    (fits : start + data.length < 2 ^ 64) :
    ∃ (first : Bytes) (index : Nat) (rest : Bytes), splitFirst blockSize start data = (first, index, rest) ∧
      rest.length ≤ data.length ∧ index + rest.length / blockSize < 2 ^ 64 ∧
      0 < index + rest.length / blockSize := by
  have quotient := Nat.div_le_self start blockSize
  rcases splitFirst_cases positive start data with ⟨_, long, split⟩ | ⟨size, isSize, _, split⟩
  · have blocks := Nat.div_le_self data.length blockSize
    have some := Nat.div_pos long positive
    exact ⟨_, _, _, split, le_rfl, by omega, Nat.add_pos_right _ some⟩
  · have blocks := Nat.div_le_self (data.length - size) blockSize
    have offset := Nat.mod_lt start positive
    refine ⟨_, _, _, split, ?_⟩
    rw [List.length_drop]
    exact ⟨Nat.sub_le _ _, by omega, Nat.add_pos_left (Nat.succ_pos _) _⟩

theorem BlockSplitterWrite.checkedNew_eq (positive : 0 < blockSize) (room : start + 1 < 2 ^ 64)
    (fits : start + data.length < 2 ^ 64) :
    BlockSplitterWrite.checkedNew blockSize start data = some (BlockSplitterWrite.new blockSize start data) := by
  obtain ⟨first, blockIndex, rest, split, shorter, index, before⟩ :=
    @splitFirst_bounds blockSize start data positive room fits
  have whole := Nat.div_mul_le_self rest.length blockSize
  simp only [BlockSplitterWrite.checkedNew, BlockSplitterWrite.new, div_of_pos positive,
    rem_of_pos positive, checkedSplitFirst_eq positive room, split, Option.bind_eq_bind, Option.bind_some]
  rw [mul_of_lt (by omega), Option.bind_some, splitAt_of_le whole, Option.bind_some, add_of_lt index,
    Option.bind_some]
  split
  · rfl
  · rw [sub_of_le before]
    rfl

theorem BlockSplitterRead.checkedNew_eq {size : Nat} (positive : 0 < blockSize)
    (fits : start + size < 2 ^ 64) :
    BlockSplitterRead.checkedNew blockSize start size = some (BlockSplitterRead.new blockSize start size) := by
  have offset := Nat.mod_lt start positive
  have quotient := Nat.div_le_self start blockSize
  simp only [BlockSplitterRead.checkedNew, BlockSplitterRead.new, div_of_pos positive,
    rem_of_pos positive, sub_of_le offset.le, Option.bind_eq_bind, Option.bind_some]
  generalize bytes : min (blockSize - start % blockSize) size = first
  have within : first ≤ size := by omega
  rw [sub_of_le within, Option.bind_some]
  have blocks := Nat.div_add_mod (size - first) blockSize
  have atLeast := Nat.le_mul_of_pos_left ((size - first) / blockSize) positive
  have last : start / blockSize + (size - first) / blockSize < 2 ^ 64 := by omega
  rw [add_of_lt last, Option.bind_some, sub_of_le (Nat.le_add_right _ _), Option.bind_some,
    Nat.add_sub_cancel_left]
  generalize (size - first) / blockSize = full at blocks atLeast last ⊢
  generalize (size - first) % blockSize = remaining at blocks ⊢
  by_cases some : first > 0
  · rw [if_pos some, if_pos some, add_of_lt (by omega), Option.bind_some]
    by_cases more : remaining > 0
    · rw [if_pos more, if_pos more, add_of_lt (by omega), Option.bind_some, add_of_lt (by omega)]
      rfl
    · rw [if_neg more, if_neg more, add_of_lt (by omega)]
      rfl
  · -- Without bytes in the first block there is nothing to read at all.
    have empty : size = 0 := by omega
    rw [if_neg some, if_neg some, if_neg (by omega), if_neg (by omega), add_of_lt (by omega)]
    rfl

end Arithmetic

def HasByte (blockSize start size index : Nat) : Prop :=
  ∃ byte, start ≤ byte ∧ byte < start + size ∧ byte / blockSize = index

def BlockSplitterWrite.sections (bs : BlockSplitterWrite) : List (Nat × Nat) :=
  [(bs.firstData.blockIndex * bs.blockSize + bs.firstDataStartPosition, bs.firstData.data.length),
   (bs.midData.blockIndex * bs.blockSize, bs.midData.data.length),
   (bs.lastData.blockIndex * bs.blockSize, bs.lastData.data.length)]

section HasByte

variable {blockSize start size index : Nat}

theorem hasByte_iff (positive : 0 < blockSize) (some : 0 < size) :
    HasByte blockSize start size index ↔
      start / blockSize ≤ index ∧ index ≤ (start + size - 1) / blockSize := by
  constructor
  · rintro ⟨byte, lower, upper, rfl⟩
    exact ⟨Nat.div_le_div_right lower, Nat.div_le_div_right (by omega)⟩
  · rintro ⟨lower, upper⟩
    have reached := (Nat.le_div_iff_mul_le positive).mp upper
    have after := (Nat.div_lt_iff_lt_mul positive).mp (Nat.lt_succ_of_le lower)
    rw [Nat.succ_mul] at after
    refine ⟨max start (index * blockSize), Nat.le_max_left _ _, by omega, ?_⟩
    rw [Nat.div_eq_iff positive]
    omega

theorem HasByte.lt {bound : Nat} (positive : 0 < blockSize) (stop : start + size ≤ bound * blockSize)
    (touched : HasByte blockSize start size index) : index < bound := by
  obtain ⟨byte, _, upper, rfl⟩ := touched
  exact (Nat.div_lt_iff_lt_mul positive).mpr (by omega)

theorem HasByte.le {bound : Nat} (positive : 0 < blockSize) (begin : bound * blockSize ≤ start)
    (touched : HasByte blockSize start size index) : bound ≤ index := by
  obtain ⟨byte, lower, _, rfl⟩ := touched
  exact (Nat.le_div_iff_mul_le positive).mpr (by omega)

theorem HasByte.pos (touched : HasByte blockSize start size index) : 0 < size := by
  obtain ⟨byte, lower, upper, _⟩ := touched
  omega

end HasByte

section Write

variable {blockSize start : Nat} {data : Bytes}

theorem lastIndex_eq (positive : 0 < blockSize) (nonempty : 0 < data.length) :
    (BlockSplitterWrite.new blockSize start data).lastData.blockIndex =
      (start + data.length - 1) / blockSize := by
  obtain ⟨offset, index, full, split, equal⟩ := split_of_new positive ⟨data, start⟩ nonempty
  have bounded := split.bounded
  have less := split.less
  have aligned := split.aligned
  have whole := Nat.div_add_mod start blockSize
  have position := Nat.mod_lt start positive
  rw [Nat.mul_comm] at whole
  simp only at bounded less aligned equal
  rw [equal]
  symm
  by_cases more : offset + full * blockSize < data.length
  · rw [if_pos more, Nat.div_eq_iff positive, Nat.add_mul]
    have begin := aligned (by omega)
    omega
  · rw [if_neg more, Nat.div_eq_iff positive, Nat.sub_mul, Nat.add_mul]
    by_cases rest : offset < data.length
    · have begin := aligned rest
      have block : blockSize ≤ full * blockSize :=
        Nat.le_mul_of_pos_left _ (Nat.pos_of_ne_zero fun none => by rw [none] at more; omega)
      omega
    · have none : full * blockSize = 0 := by omega
      rcases split.first with ⟨_, _, some⟩ | ⟨isSize, _, _, next⟩
      · have block := Nat.mul_pos some positive
        omega
      · simp only at isSize next
        rw [none, next, Nat.add_mul]
        omega

theorem getRange_eq (positive : 0 < blockSize) (nonempty : 0 < data.length) :
    (BlockSplitterWrite.new blockSize start data).getRange =
      (start / blockSize, (start + data.length - 1) / blockSize + 1) := by
  rw [BlockSplitterWrite.getRange, lastIndex_eq positive nonempty]
  rfl

theorem checkedGetRange_eq (positive : 0 < blockSize) (nonempty : 0 < data.length)
    (fits : start + data.length < 2 ^ 64) :
    (BlockSplitterWrite.new blockSize start data).checkedGetRange =
      some (BlockSplitterWrite.new blockSize start data).getRange := by
  have last := Nat.div_le_self (start + data.length - 1) blockSize
  rw [BlockSplitterWrite.checkedGetRange, lastIndex_eq positive nonempty, add_of_lt (by omega)]
  rw [getRange_eq positive nonempty]
  rfl

structure Placed (blockSize start : Nat) (data : Bytes) (bs : BlockSplitterWrite) : Prop where
  whole : bs.firstData.data ++ bs.midData.data ++ bs.lastData.data = data
  first : bs.firstData.blockIndex = start / blockSize ∧ bs.firstDataStartPosition = start % blockSize
  inFirst : bs.firstData.data.length + bs.firstDataStartPosition ≤ blockSize
  midBlocks : blockSize ∣ bs.midData.data.length
  midBegin : bs.midData.data ≠ [] → bs.midData.blockIndex * blockSize = start + bs.firstData.data.length
  inLast : bs.lastData.data.length < blockSize
  lastBegin : bs.lastData.data ≠ [] →
    bs.lastData.blockIndex * blockSize = start + bs.firstData.data.length + bs.midData.data.length

theorem placed_new (positive : 0 < blockSize) (nonempty : 0 < data.length) :
    Placed blockSize start data (BlockSplitterWrite.new blockSize start data) := by
  obtain ⟨offset, index, full, split, equal⟩ := split_of_new positive ⟨data, start⟩ nonempty
  have bounded := split.bounded
  have less := split.less
  have aligned := split.aligned
  have mid := split.mid_length
  have position := Nat.mod_lt start positive
  simp only at bounded less aligned equal mid
  have inside : offset ≤ data.length := by omega
  rw [equal]
  refine ⟨?_, ⟨rfl, rfl⟩, ?_, ?_, ?_, ?_, ?_⟩
  · rw [List.append_assoc, ← List.drop_drop, List.take_append_drop, List.take_append_drop]
  · simp only [List.length_take_of_le inside]
    rcases split.first with ⟨none, _, _⟩ | ⟨isSize, _, _, _⟩
    · omega
    · simp only at isSize
      omega
  · rw [mid]
    exact Nat.dvd_mul_left _ _
  · intro some
    have long := List.length_pos_of_ne_nil some
    rw [List.length_take_of_le inside]
    rw [mid] at long
    exact (aligned (by omega)).symm
  · simp only [List.length_drop]
    omega
  · intro some
    have long := List.length_pos_of_ne_nil some
    rw [List.length_drop] at long
    have more : offset + full * blockSize < data.length := by omega
    have begin := aligned (by omega)
    simp only [if_pos more, mid, List.length_take_of_le inside]
    rw [Nat.add_mul, begin]

theorem Placed.apart {bs : BlockSplitterWrite} (positive : 0 < blockSize)
    (isSize : bs.blockSize = blockSize) (placed : Placed blockSize start data bs) :
    bs.sections.Pairwise fun one other => ∀ index,
      HasByte blockSize one.1 one.2 index → ¬ HasByte blockSize other.1 other.2 index := by
  have begin := Nat.div_add_mod start blockSize
  rw [Nat.mul_comm] at begin
  have split : ∀ (left size bound right rest index : Nat), left + size ≤ bound * blockSize →
      right = bound * blockSize → HasByte blockSize left size index → ¬ HasByte blockSize right rest index := by
    intro left size bound right rest index stop aligned before behind
    have below := before.lt positive stop
    have above := behind.le positive aligned.ge
    omega
  have midBegin : ∀ index, HasByte blockSize (bs.midData.blockIndex * blockSize) bs.midData.data.length index →
      bs.midData.blockIndex * blockSize = start + bs.firstData.data.length := by
    intro index touched
    exact placed.midBegin (List.ne_nil_of_length_pos touched.pos)
  have lastBegin : ∀ index, HasByte blockSize (bs.lastData.blockIndex * blockSize) bs.lastData.data.length index →
      bs.lastData.blockIndex * blockSize = start + bs.firstData.data.length + bs.midData.data.length := by
    intro index touched
    exact placed.lastBegin (List.ne_nil_of_length_pos touched.pos)
  simp only [BlockSplitterWrite.sections, isSize, placed.first.1, placed.first.2, begin, List.pairwise_cons,
    List.mem_cons, List.not_mem_nil, or_false, forall_eq_or_imp, forall_eq, false_imp_iff, implies_true,
    List.Pairwise.nil, and_true]
  refine ⟨⟨?_, ?_⟩, ?_⟩
  · intro index before behind
    exact split _ _ _ _ _ _ (midBegin index behind).ge rfl before behind
  · intro index before behind
    have stop := lastBegin index behind
    exact split _ _ _ _ _ _ ((Nat.le_add_right _ _).trans stop.ge) rfl before behind
  · intro index before behind
    have stop := lastBegin index behind
    exact split _ _ _ _ _ _ (by rw [stop, midBegin index before]) rfl before behind

/-- A write is cut without overflow into three parts that make up its data, and the range
that is read for it has exactly the blocks that it meets. -/
theorem splitter_partitions (blockSize start : Nat) (data : Bytes) (positive : 1 ≤ blockSize)
    (nonempty : data ≠ []) (fits : start + data.length < 2 ^ 64) :
    ∃ bs range, BlockSplitterWrite.checkedNew blockSize start data = some bs ∧
      bs.checkedGetRange = some range ∧
      bs.firstData.data ++ bs.midData.data ++ bs.lastData.data = data ∧
      (bs.firstData.blockIndex = start / blockSize ∧ bs.firstDataStartPosition = start % blockSize ∧
        bs.firstData.data.length + bs.firstDataStartPosition ≤ blockSize) ∧
      (blockSize ∣ bs.midData.data.length ∧ (bs.midData.data ≠ [] →
        bs.midData.blockIndex * blockSize = start + bs.firstData.data.length)) ∧
      (bs.lastData.data.length < blockSize ∧ (bs.lastData.data ≠ [] →
        bs.lastData.blockIndex * blockSize = start + bs.firstData.data.length + bs.midData.data.length)) ∧
      (bs.sections.Pairwise fun one other => ∀ index,
        HasByte blockSize one.1 one.2 index → ¬ HasByte blockSize other.1 other.2 index) ∧
      ∀ index, range.1 ≤ index ∧ index < range.2 ↔ HasByte blockSize start data.length index := by
  have some := List.length_pos_of_ne_nil nonempty
  have placed := @placed_new blockSize start data positive some
  refine ⟨_, _, BlockSplitterWrite.checkedNew_eq positive (by omega) fits,
    checkedGetRange_eq positive some fits, placed.whole,
    ⟨placed.first.1, placed.first.2, placed.inFirst⟩, ⟨placed.midBlocks, placed.midBegin⟩,
    ⟨placed.inLast, placed.lastBegin⟩, placed.apart positive rfl, ?_⟩
  intro index
  rw [getRange_eq positive some, hasByte_iff positive some, Nat.lt_succ_iff]

theorem splitter_partitions_unaligned :
    ∃ bs range, BlockSplitterWrite.checkedNew 4 6 [1, 2, 3, 4, 5, 6, 7] = some bs ∧
      bs.checkedGetRange = some range ∧ range = (1, 4) ∧
      bs.firstData.data ++ bs.midData.data ++ bs.lastData.data = [1, 2, 3, 4, 5, 6, 7] := by
  obtain ⟨bs, range, cut, ranged, whole, _⟩ :=
    splitter_partitions 4 6 [1, 2, 3, 4, 5, 6, 7] (by decide) (by decide) (by decide)
  refine ⟨bs, range, cut, ranged, ?_, whole⟩
  have known : BlockSplitterWrite.checkedNew 4 6 [1, 2, 3, 4, 5, 6, 7] =
      some ⟨4, 6, [1, 2, 3, 4, 5, 6, 7], 2, ⟨1, [1, 2]⟩, ⟨2, [3, 4, 5, 6]⟩, ⟨3, [7]⟩⟩ := by decide
  rw [← Option.some.inj (known.symm.trans cut)] at ranged
  exact Option.some.inj (ranged.symm.trans (by decide))

end Write

def dataBlockRange (blockSize startAddr readSize : Nat) : Option (Nat × Nat) := do
  let endAddr ← add 64 startAddr readSize
  let startBlock ← div startAddr blockSize
  let endBlock ← ceilDiv 64 endAddr blockSize
  some (startBlock, endBlock)

section Read

variable {blockSize start size : Nat}

theorem dataBlockRange_eq (positive : 0 < blockSize) (fits : start + size < 2 ^ 64) :
    dataBlockRange blockSize start size = some (start / blockSize, divCeil (start + size) blockSize) := by
  simp only [dataBlockRange, add_of_lt fits, div_of_pos positive, ceilDiv_of_pos positive fits,
    Option.bind_eq_bind, Option.bind_some, divCeil]

theorem inodeReadBlockHashesDataRange_eq (cfg : TiFsConfig) (ino : StorageIno) {range : Nat × Nat}
    (fits : start + size < 2 ^ 64) (queried : dataBlockRange cfg.blockSize start size = some range) :
    inodeReadBlockHashesDataRange cfg ino start size =
      hbGetBlockHashListByBlockRangeChunked cfg ino range := by
  rw [dataBlockRange_eq cfg.blockSize_pos fits] at queried
  rw [← Option.some.inj queried]
  rfl

theorem endBlockIndex_eq (positive : 0 < blockSize) (nonempty : 0 < size) :
    (BlockSplitterRead.new blockSize start size).endBlockIndex = (start + size - 1) / blockSize + 1 := by
  have stop := @readRange_end blockSize start size positive nonempty
  have order : start / blockSize < (BlockSplitterRead.new blockSize start size).endBlockIndex := by
    by_contra beyond
    have short := Nat.mul_le_mul_right blockSize (Nat.le_of_not_lt beyond)
    have whole := Nat.div_mul_le_self start blockSize
    omega
  generalize isEnd : (BlockSplitterRead.new blockSize start size).endBlockIndex = bound at stop order ⊢
  obtain ⟨last, rfl⟩ := Nat.exists_eq_succ_of_ne_zero (Nat.ne_zero_of_lt order)
  have inside := readRange_bounds positive (Nat.lt_succ_iff.mp order) (isEnd ▸ Nat.lt_succ_self last)
  rw [Nat.succ_mul] at stop
  rw [Nat.succ_eq_add_one, Nat.add_right_cancel_iff, eq_comm, Nat.div_eq_iff positive]
  omega

theorem divCeil_eq (positive : 0 < blockSize) (nonempty : 0 < size) :
    divCeil (start + size) blockSize = (start + size - 1) / blockSize + 1 := by
  rw [divCeil, ← Nat.add_div_right _ positive]
  congr 1
  omega

theorem inFirstBlock_iff (positive : 0 < blockSize) (byte : Nat) :
    start ≤ byte ∧ byte < start + size ∧ byte / blockSize = start / blockSize ↔
      start / blockSize * blockSize + start % blockSize ≤ byte ∧
        byte < start / blockSize * blockSize + start % blockSize + min (blockSize - start % blockSize) size := by
  have whole := Nat.div_add_mod start blockSize
  have position := Nat.mod_lt start positive
  rw [Nat.mul_comm] at whole
  rw [Nat.div_eq_iff positive]
  omega

/-- The client and the server cut a range of bytes into the same blocks: those that it
meets, the first of them in the bytes that the client takes from it. -/
theorem cut_alike (blockSize start size : Nat) (positive : 1 ≤ blockSize) (nonempty : 1 ≤ size)
    (fits : start + size < 2 ^ 64) :
    ∃ bs, BlockSplitterRead.checkedNew blockSize start size = some bs ∧
      dataBlockRange blockSize start size = some bs.blockRange ∧
      bs.endBlockIndex = bs.firstBlockIndex + bs.blockCount ∧
      (∀ byte, start ≤ byte → byte < start + size →
        bs.firstBlockIndex * blockSize ≤ byte ∧ byte < (bs.firstBlockIndex + bs.blockCount) * blockSize) ∧
      (∀ index, bs.firstBlockIndex ≤ index → index < bs.firstBlockIndex + bs.blockCount →
        HasByte blockSize start size index) ∧
      ∀ byte, start ≤ byte ∧ byte < start + size ∧ byte / blockSize = bs.firstBlockIndex ↔
        bs.firstBlockIndex * blockSize + bs.firstBlockReadOffset ≤ byte ∧
          byte < bs.firstBlockIndex * blockSize + bs.firstBlockReadOffset + bs.bytesToReadFirstBlock := by
  have stop := @endBlockIndex_eq blockSize start size positive nonempty
  have count : (BlockSplitterRead.new blockSize start size).endBlockIndex =
      start / blockSize + (BlockSplitterRead.new blockSize start size).blockCount := rfl
  refine ⟨_, BlockSplitterRead.checkedNew_eq positive fits, ?_, count, ?_, ?_, inFirstBlock_iff positive⟩
  · rw [dataBlockRange_eq positive fits, divCeil_eq positive nonempty, ← stop]
    rfl
  · intro byte lower upper
    have whole := Nat.div_mul_le_self start blockSize
    have last := @readRange_end blockSize start size positive nonempty
    rw [count] at last
    exact ⟨whole.trans lower, upper.trans_le last⟩
  · intro index lower upper
    rw [hasByte_iff positive nonempty]
    exact ⟨lower, Nat.lt_succ_iff.mp (upper.trans_eq stop)⟩

/-- The range of the regression test of the source. -/
theorem cut_alike_issue :
    ∃ bs, BlockSplitterRead.checkedNew 65536 53248 65536 = some bs ∧
      dataBlockRange 65536 53248 65536 = some bs.blockRange ∧ bs.blockRange = (0, 2) := by
  obtain ⟨bs, cut, queried, _⟩ := cut_alike 65536 53248 65536 (by decide) (by decide) (by decide)
  refine ⟨bs, cut, queried, ?_⟩
  have known : dataBlockRange 65536 53248 65536 = some (0, 2) := by decide
  exact Option.some.inj (queried.symm.trans known)

end Read

end TiFs
