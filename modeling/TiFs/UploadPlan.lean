import TiFs.CallProgress

namespace TiFs

open Overlay Tables

section Parts

variable {blockSize : Nat} {jobs : List WriteTaskData}

theorem part_of_last {index : Nat} {part : Part} (last : lastPart blockSize jobs index = some part) :
    part ∈ writeParts blockSize jobs ∧ part.index = index :=
  ⟨List.mem_of_mem_filter (List.mem_of_getLast? last), lastPart_index last⟩

end Parts

/-- The block that a part leaves behind: a full part is not read over. -/
def FileMap.rewritten (blockSize : Nat) (file : FileMap) (part : Part) : Bytes :=
  if part.data.length = blockSize then part.data else file.patched part

/-- The file with the blocks that a call leaves behind. Blocks that stay as they
were do not extend it. -/
def FileMap.rewrite (blockSize : Nat) (jobs : List WriteTaskData) (file : FileMap) : FileMap where
  content index :=
    match lastPart blockSize jobs index with
    | some part => some (file.rewritten blockSize part)
    | none => file.content index
  size := (((writeParts blockSize jobs).filter fun part =>
    lastPart blockSize jobs part.index = some part ∧
      file.content part.index ≠ some (file.rewritten blockSize part)).map fun part =>
        part.index * blockSize + (file.rewritten blockSize part).length).foldl max file.size

theorem foldl_max_cases (values : List Nat) (start : Nat) :
    values.foldl max start = start ∨ values.foldl max start ∈ values := by
  by_contra missed
  push Not at missed
  obtain ⟨above, absent⟩ := missed
  have bounds := (foldl_max_le values start _).mp le_rfl
  have below : values.foldl max start ≤ values.foldl max start - 1 := by
    refine (foldl_max_le values start _).mpr ⟨by omega, ?_⟩
    intro value listed
    have different : value ≠ values.foldl max start := fun same => absent (same ▸ listed)
    have bound := bounds.2 value listed
    omega
  omega

section Rewrite

variable {blockSize : Nat} {jobs : List WriteTaskData} {file : FileMap} {index : Nat}

theorem content_rewrite_of_some {part : Part} (last : lastPart blockSize jobs index = some part) :
    (file.rewrite blockSize jobs).content index = some (file.rewritten blockSize part) := by
  simp only [FileMap.rewrite, last]

theorem content_rewrite_of_none (untouched : lastPart blockSize jobs index = none) :
    (file.rewrite blockSize jobs).content index = file.content index := by
  simp only [FileMap.rewrite, untouched]

theorem le_size_rewrite {part : Part} (last : lastPart blockSize jobs index = some part)
    (changed : file.content index ≠ some (file.rewritten blockSize part)) :
    index * blockSize + (file.rewritten blockSize part).length ≤ (file.rewrite blockSize jobs).size := by
  obtain ⟨listed, rfl⟩ := part_of_last last
  refine ((foldl_max_le _ file.size _).mp le_rfl).2 _ (List.mem_map_of_mem (List.mem_filter.mpr ⟨listed, ?_⟩))
  exact decide_eq_true ⟨last, changed⟩

theorem size_rewrite_cases (blockSize : Nat) (jobs : List WriteTaskData) (file : FileMap) :
    (file.rewrite blockSize jobs).size = file.size ∨ ∃ index part,
      lastPart blockSize jobs index = some part ∧
      file.content index ≠ some (file.rewritten blockSize part) ∧
      index * blockSize + (file.rewritten blockSize part).length = (file.rewrite blockSize jobs).size := by
  rcases foldl_max_cases (((writeParts blockSize jobs).filter fun part =>
    lastPart blockSize jobs part.index = some part ∧
      file.content part.index ≠ some (file.rewritten blockSize part)).map fun part =>
        part.index * blockSize + (file.rewritten blockSize part).length) file.size with same | listed
  · exact Or.inl same
  · obtain ⟨part, member, isSize⟩ := List.mem_map.mp listed
    obtain ⟨last, changed⟩ := of_decide_eq_true (List.mem_filter.mp member).2
    exact Or.inr ⟨part.index, part, last, changed, isSize⟩

end Rewrite

section Plan

variable {cfg : TiFsConfig} {jobs : List WriteTaskData} {hashListPrev : BlockHashes}
  {preData : BlocksData} {file : FileMap} {involved : Set Bytes}

theorem partContent_eq_rewritten (read : PreRead cfg jobs file hashListPrev preData) {part : Part}
    (listed : part ∈ writeParts cfg.blockSize jobs) :
    partContent cfg hashListPrev preData part = file.rewritten cfg.blockSize part := by
  by_cases full : part.data.length = cfg.blockSize
  · rw [partContent, if_pos full, FileMap.rewritten, if_pos full]
  · have bound := part_bound cfg.blockSize_pos listed
    rw [partContent, if_neg full, FileMap.rewritten, if_neg full, FileMap.patched, read.hashes part listed]
    congr 2
    cases old : file.content part.index with
    | none => rfl
    | some data => exact read.data part listed (by omega) data old

structure Distinguished (cfg : TiFsConfig) (jobs : List WriteTaskData) (file : FileMap)
    (involved : Set Bytes) : Prop where
  injective : Set.InjOn cfg.calculateHash involved
  old : ∀ index data, file.content index = some data → data ∈ involved
  new : ∀ part ∈ writeParts cfg.blockSize jobs, file.rewritten cfg.blockSize part ∈ involved

variable (read : PreRead cfg jobs file hashListPrev preData) (blocks : Distinguished cfg jobs file involved)

include read

theorem lookup_rewritten (index : Nat) :
    (makeNewBlocks cfg jobs hashListPrev preData).newBlockIndexHash.lookup index =
      (lastPart cfg.blockSize jobs index).map fun part =>
        cfg.calculateHash (file.rewritten cfg.blockSize part) := by
  rw [lookup_newBlockIndexHash]
  cases last : lastPart cfg.blockSize jobs index with
  | none => rfl
  | some part => simp only [Option.map_some, partContent_eq_rewritten read (part_of_last last).1]

include blocks

theorem rewrite_involved {group : BlockGroup}
    (member : group ∈ (writePlan cfg jobs hashListPrev preData).groups) : group.data ∈ involved := by
  obtain ⟨_, part, listed, isData⟩ := blockGroups_data cfg jobs hashListPrev preData member
  rw [isData, partContent_eq_rewritten read listed]
  exact blocks.new part listed

theorem rewrite_written {group : BlockGroup}
    (member : group ∈ (writePlan cfg jobs hashListPrev preData).groups) {id : Nat} (listed : id ∈ group.ids) :
    ∃ part, lastPart cfg.blockSize jobs id = some part ∧ file.rewritten cfg.blockSize part = group.data ∧
      file.content id ≠ some group.data := by
  have changed := ((mem_blockGroups member).1 id).mp listed
  obtain ⟨isNew, different⟩ := (lookup_changedBlocks hashListPrev _ id group.hash).mp changed
  rw [lookup_rewritten read] at isNew
  obtain ⟨part, last, isHash⟩ := Option.map_eq_some_iff.mp isNew
  obtain ⟨inParts, isIndex⟩ := part_of_last last
  have sameHash := (writePlan cfg jobs hashListPrev preData).hash_eq group member
  refine ⟨part, last, ?_, ?_⟩
  · apply blocks.injective (blocks.new part inParts) (rewrite_involved read blocks member)
    rw [isHash]
    exact sameHash
  · intro same
    apply different
    rw [← isIndex, read.hashes part inParts, isIndex, same, Option.map_some, sameHash]

theorem group_of_rewritten {index : Nat} {part : Part} (last : lastPart cfg.blockSize jobs index = some part)
    (changed : file.content index ≠ some (file.rewritten cfg.blockSize part)) :
    ∃ group ∈ (writePlan cfg jobs hashListPrev preData).groups, index ∈ group.ids := by
  obtain ⟨inParts, isIndex⟩ := part_of_last last
  have isNew := lookup_rewritten read index
  rw [last, Option.map_some] at isNew
  have different : hashListPrev.lookup index ≠ some (cfg.calculateHash (file.rewritten cfg.blockSize part)) := by
    intro previous
    have known := read.hashes part inParts
    rw [isIndex, previous] at known
    obtain ⟨data, old, sameHash⟩ := Option.map_eq_some_iff.mp known.symm
    apply changed
    rw [old, blocks.injective (blocks.old index data old) (blocks.new part inParts) sameHash]
  obtain ⟨group, member, _, listed⟩ :=
    group_of_changed ((lookup_changedBlocks hashListPrev _ index _).mpr ⟨isNew, different⟩)
  exact ⟨group, member, listed⟩

theorem rewrite_planned :
    Planned cfg (writePlan cfg jobs hashListPrev preData).groups (fun _ => True) file
      (file.rewrite cfg.blockSize jobs) := by
  refine ⟨?_, ?_, ?_, ((foldl_max_le _ file.size _).mp le_rfl).1, ?_⟩
  · intro group member id listed
    obtain ⟨part, last, isData, _⟩ := rewrite_written read blocks member listed
    rw [content_rewrite_of_some last, isData]
    exact ⟨trivial, rfl⟩
  · intro index absent
    cases last : lastPart cfg.blockSize jobs index with
    | none => exact content_rewrite_of_none last
    | some part =>
        by_contra changed
        rw [content_rewrite_of_some last] at changed
        obtain ⟨group, member, listed⟩ := group_of_rewritten read blocks last (Ne.symm changed)
        exact absent group member listed
  · intro group member id listed
    obtain ⟨part, last, isData, changed⟩ := rewrite_written read blocks member listed
    rw [← isData] at changed ⊢
    exact le_size_rewrite last changed
  · rcases size_rewrite_cases cfg.blockSize jobs file with same | reached
    · exact Or.inl same
    · obtain ⟨index, part, last, changed, isSize⟩ := reached
      obtain ⟨group, member, listed⟩ := group_of_rewritten read blocks last changed
      obtain ⟨other, otherLast, isData, _⟩ := rewrite_written read blocks member listed
      rw [last] at otherLast
      obtain rfl := Option.some.inj otherLast
      exact Or.inr ⟨group, member, index, listed, by rw [← isData]; exact isSize⟩

end Plan

end TiFs
