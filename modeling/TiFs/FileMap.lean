import TiFs.WritePlanning

namespace TiFs

open Overlay Tables

@[ext] structure FileMap where
  content : Nat → Option Bytes
  size : Nat

def Part.stop (blockSize : Nat) (part : Part) : Nat :=
  part.index * blockSize + part.position + part.data.length

namespace FileMap

def empty : FileMap := ⟨fun _ => none, 0⟩

def patched (file : FileMap) (part : Part) : Bytes :=
  overlay 0 part.position part.data ((file.content part.index).getD [])

/-- One call writes each block with one part: the last published one, over what
the block contained before the call. -/
def writeBatch (blockSize : Nat) (jobs : List WriteTaskData) (file : FileMap) : FileMap where
  content index :=
    match lastPart blockSize jobs index with
    | some part => some (file.patched part)
    | none => file.content index
  size := (((writeParts blockSize jobs).filter fun part =>
    lastPart blockSize jobs part.index = some part).map (Part.stop blockSize)).foldl max file.size

def writeSequence (blockSize : Nat) (jobs : List WriteTaskData) (file : FileMap) : FileMap :=
  jobs.foldl (fun file job => file.writeBatch blockSize [job]) file

/-- No block is longer than the block size or reaches beyond the file's end. -/
def WellFormed (blockSize : Nat) (file : FileMap) : Prop :=
  ∀ index data, file.content index = some data →
    data.length ≤ blockSize ∧ index * blockSize + data.length ≤ file.size

end FileMap

theorem foldl_max_le (values : List Nat) (start bound : Nat) :
    values.foldl max start ≤ bound ↔ start ≤ bound ∧ ∀ value ∈ values, value ≤ bound := by
  induction values generalizing start with
  | nil => simp
  | cons head tail ih =>
      rw [List.foldl_cons, ih, List.forall_mem_cons, max_le_iff, and_assoc]

section Write

variable {blockSize : Nat} {jobs : List WriteTaskData} {file : FileMap}

theorem lastPart_index {index : Nat} {part : Part}
    (found : lastPart blockSize jobs index = some part) : part.index = index :=
  of_decide_eq_true (List.mem_filter.mp (List.mem_of_getLast? found)).2

theorem content_writeBatch_of_some {index : Nat} {part : Part}
    (found : lastPart blockSize jobs index = some part) :
    (file.writeBatch blockSize jobs).content index = some (file.patched part) := by
  simp only [FileMap.writeBatch, found]

theorem content_writeBatch_of_none {index : Nat}
    (untouched : lastPart blockSize jobs index = none) :
    (file.writeBatch blockSize jobs).content index = file.content index := by
  simp only [FileMap.writeBatch, untouched]

theorem size_writeBatch_le (bound : Nat) :
    (file.writeBatch blockSize jobs).size ≤ bound ↔
      file.size ≤ bound ∧ ∀ index part, lastPart blockSize jobs index = some part →
        part.stop blockSize ≤ bound := by
  simp only [FileMap.writeBatch]
  rw [foldl_max_le]
  constructor
  · rintro ⟨old, new⟩
    refine ⟨old, ?_⟩
    intro index part found
    have isIndex := lastPart_index found
    refine new _ (List.mem_map_of_mem (List.mem_filter.mpr ⟨?_, ?_⟩))
    · exact List.mem_of_mem_filter (List.mem_of_getLast? found)
    · rw [isIndex]
      simpa using found
  · rintro ⟨old, new⟩
    refine ⟨old, ?_⟩
    intro value listed
    obtain ⟨part, member, rfl⟩ := List.mem_map.mp listed
    exact new part.index part (of_decide_eq_true (List.mem_filter.mp member).2)

theorem length_patched (file : FileMap) (part : Part) :
    (file.patched part).length =
      max ((file.content part.index).getD []).length (part.position + part.data.length) := by
  rw [FileMap.patched, length_overlay]

theorem patched_bound (wellFormed : file.WellFormed blockSize) {part : Part}
    (bound : part.position + part.data.length ≤ blockSize) :
    (file.patched part).length ≤ blockSize ∧
      ∀ limit, file.size ≤ limit → part.stop blockSize ≤ limit →
        part.index * blockSize + (file.patched part).length ≤ limit := by
  rw [length_patched]
  cases found : file.content part.index with
  | none =>
      simp only [Option.getD_none, List.length_nil, Part.stop]
      refine ⟨by omega, ?_⟩
      intro limit _ stop
      omega
  | some data =>
      have old := wellFormed part.index data found
      simp only [Option.getD_some, Part.stop]
      refine ⟨by omega, ?_⟩
      intro limit size stop
      omega

theorem lastPart_bound (positive : 0 < blockSize) (nonempty : ∀ job ∈ jobs, 0 < job.data.length)
    {index : Nat} {part : Part} (found : lastPart blockSize jobs index = some part) :
    0 < part.data.length ∧ part.position + part.data.length ≤ blockSize := by
  obtain ⟨_, job, _, isPart⟩ := lastPart_eq_some positive nonempty found
  exact partAt_bound isPart

theorem wellFormed_writeBatch (positive : 0 < blockSize)
    (nonempty : ∀ job ∈ jobs, 0 < job.data.length) (wellFormed : file.WellFormed blockSize) :
    (file.writeBatch blockSize jobs).WellFormed blockSize := by
  have sizes := (size_writeBatch_le (file.writeBatch blockSize jobs).size).mp le_rfl
  intro index data found
  cases last : lastPart blockSize jobs index with
  | none =>
      rw [content_writeBatch_of_none last] at found
      obtain ⟨short, below⟩ := wellFormed index data found
      exact ⟨short, below.trans sizes.1⟩
  | some part =>
      rw [content_writeBatch_of_some last] at found
      obtain rfl := Option.some.inj found
      obtain ⟨short, below⟩ := patched_bound wellFormed
        (lastPart_bound positive nonempty last).2
      refine ⟨short, ?_⟩
      rw [← lastPart_index last]
      exact below _ sizes.1 (sizes.2 index part last)

end Write

section Plan

variable {cfg : TiFsConfig} {jobs : List WriteTaskData} {hashListPrev : BlockHashes}
  {preData : BlocksData} {file : FileMap} {involved : Set Bytes}

/-- What a call has read is what the file contains, where it matters. -/
structure PreRead (cfg : TiFsConfig) (jobs : List WriteTaskData) (file : FileMap)
    (hashListPrev : BlockHashes) (preData : BlocksData) : Prop where
  hashes : ∀ part ∈ writeParts cfg.blockSize jobs,
    hashListPrev.lookup part.index = (file.content part.index).map cfg.calculateHash
  data : ∀ part ∈ writeParts cfg.blockSize jobs, part.data.length < cfg.blockSize →
    ∀ data, file.content part.index = some data → preData.lookup (cfg.calculateHash data) = some data

structure Involved (cfg : TiFsConfig) (jobs : List WriteTaskData) (file : FileMap)
    (involved : Set Bytes) : Prop where
  injective : Set.InjOn cfg.calculateHash involved
  old : ∀ index data, file.content index = some data → data ∈ involved
  new : ∀ part ∈ writeParts cfg.blockSize jobs, file.patched part ∈ involved

theorem partContent_eq_patched (nonempty : ∀ job ∈ jobs, 0 < job.data.length)
    (wellFormed : file.WellFormed cfg.blockSize) (read : PreRead cfg jobs file hashListPrev preData)
    {part : Part} (listed : part ∈ writeParts cfg.blockSize jobs) :
    partContent cfg hashListPrev preData part = file.patched part := by
  obtain ⟨job, _, found⟩ := (mem_writeParts cfg.blockSize_pos nonempty).mp listed
  have bound := (partAt_bound found).2
  by_cases full : part.data.length = cfg.blockSize
  · have atStart : part.position = 0 := by omega
    rw [partContent, if_pos full, FileMap.patched, atStart]
    symm
    apply overlay_full
    cases old : file.content part.index with
    | none => exact Nat.zero_le _
    | some data =>
        rw [Option.getD_some, full]
        exact (wellFormed part.index data old).1
  · rw [partContent, if_neg full, FileMap.patched, read.hashes part listed]
    congr 2
    cases old : file.content part.index with
    | none => rfl
    | some data => exact read.data part listed (by omega) data old

theorem lookup_newHash (nonempty : ∀ job ∈ jobs, 0 < job.data.length)
    (wellFormed : file.WellFormed cfg.blockSize) (read : PreRead cfg jobs file hashListPrev preData)
    (index : Nat) :
    (makeNewBlocks cfg jobs hashListPrev preData).newBlockIndexHash.lookup index =
      (lastPart cfg.blockSize jobs index).map fun part => cfg.calculateHash (file.patched part) := by
  rw [lookup_newBlockIndexHash]
  cases last : lastPart cfg.blockSize jobs index with
  | none => rfl
  | some part =>
      have listed := (lastPart_eq_some cfg.blockSize_pos nonempty last).1
      simp only [Option.map_some, partContent_eq_patched nonempty wellFormed read listed]

structure Planned (cfg : TiFsConfig) (groups : List BlockGroup) (touched : Nat → Prop)
    (file after : FileMap) : Prop where
  written : ∀ group ∈ groups, ∀ id ∈ group.ids, touched id ∧ after.content id = some group.data
  kept : ∀ index, (∀ group ∈ groups, index ∉ group.ids) → after.content index = file.content index
  below : ∀ group ∈ groups, ∀ id ∈ group.ids, id * cfg.blockSize + group.data.length ≤ after.size
  reached : file.size ≤ after.size ∧ (after.size = file.size ∨ ∃ group ∈ groups, ∃ id ∈ group.ids,
    id * cfg.blockSize + group.data.length = after.size)

variable (nonempty : ∀ job ∈ jobs, 0 < job.data.length) (wellFormed : file.WellFormed cfg.blockSize)
  (read : PreRead cfg jobs file hashListPrev preData) (blocks : Involved cfg jobs file involved)

include nonempty wellFormed read blocks

theorem writePlan_involved {group : BlockGroup}
    (member : group ∈ (writePlan cfg jobs hashListPrev preData).groups) : group.data ∈ involved := by
  obtain ⟨_, part, listed, isData⟩ := blockGroups_data cfg jobs hashListPrev preData member
  rw [isData, partContent_eq_patched nonempty wellFormed read listed]
  exact blocks.new part listed

theorem writePlan_written {group : BlockGroup}
    (member : group ∈ (writePlan cfg jobs hashListPrev preData).groups) {id : Nat}
    (listed : id ∈ group.ids) :
    lastPart cfg.blockSize jobs id ≠ none ∧
      (file.writeBatch cfg.blockSize jobs).content id = some group.data := by
  have changed := ((mem_blockGroups member).1 id).mp listed
  have isNew := ((lookup_changedBlocks hashListPrev _ id group.hash).mp changed).1
  rw [lookup_newHash nonempty wellFormed read] at isNew
  obtain ⟨part, last, isHash⟩ := Option.map_eq_some_iff.mp isNew
  have inParts := (lastPart_eq_some cfg.blockSize_pos nonempty last).1
  have same : file.patched part = group.data := by
    apply blocks.injective (blocks.new part inParts)
      (writePlan_involved nonempty wellFormed read blocks member)
    rw [isHash]
    exact (writePlan cfg jobs hashListPrev preData).hash_eq group member
  rw [content_writeBatch_of_some last, same]
  exact ⟨by rw [last]; exact Option.some_ne_none part, rfl⟩

theorem writePlan_kept {index : Nat}
    (absent : ∀ group ∈ (writePlan cfg jobs hashListPrev preData).groups, index ∉ group.ids) :
    (file.writeBatch cfg.blockSize jobs).content index = file.content index := by
  cases last : lastPart cfg.blockSize jobs index with
  | none => exact content_writeBatch_of_none last
  | some part =>
      have inParts := (lastPart_eq_some cfg.blockSize_pos nonempty last).1
      have isNew := lookup_newHash nonempty wellFormed read index
      rw [last, Option.map_some] at isNew
      have isIndex := lastPart_index last
      have previous : hashListPrev.lookup index = some (cfg.calculateHash (file.patched part)) := by
        by_contra different
        have changed := (lookup_changedBlocks hashListPrev _ index _).mpr ⟨isNew, different⟩
        obtain ⟨group, member, _, listed⟩ := group_of_changed changed
        exact absent group member listed
      have known := read.hashes part inParts
      rw [isIndex, previous] at known
      obtain ⟨data, old, sameHash⟩ := Option.map_eq_some_iff.mp known.symm
      rw [content_writeBatch_of_some last, old]
      congr 1
      exact blocks.injective (blocks.new part inParts) (blocks.old index data old) sameHash.symm

theorem writePlan_planned :
    Planned cfg (writePlan cfg jobs hashListPrev preData).groups
      (fun index => lastPart cfg.blockSize jobs index ≠ none) file
      (file.writeBatch cfg.blockSize jobs) := by
  have written : ∀ group ∈ (writePlan cfg jobs hashListPrev preData).groups, ∀ id ∈ group.ids,
      lastPart cfg.blockSize jobs id ≠ none ∧
        (file.writeBatch cfg.blockSize jobs).content id = some group.data :=
    fun _ member _ listed => writePlan_written nonempty wellFormed read blocks member listed
  have kept : ∀ index, (∀ group ∈ (writePlan cfg jobs hashListPrev preData).groups,
      index ∉ group.ids) → (file.writeBatch cfg.blockSize jobs).content index = file.content index :=
    fun _ absent => writePlan_kept nonempty wellFormed read blocks absent
  have after := wellFormed_writeBatch cfg.blockSize_pos nonempty wellFormed
  have grown := ((size_writeBatch_le (file.writeBatch cfg.blockSize jobs).size).mp le_rfl).1
  refine ⟨written, kept, ?_, grown, ?_⟩
  · intro group member id listed
    exact (after id group.data (written group member id listed).2).2
  · by_contra missed
    push Not at missed
    obtain ⟨larger, notReached⟩ := missed
    have below : (file.writeBatch cfg.blockSize jobs).size ≤
        (file.writeBatch cfg.blockSize jobs).size - 1 := by
      rw [size_writeBatch_le]
      refine ⟨by omega, ?_⟩
      intro index part last
      have isContent : (file.writeBatch cfg.blockSize jobs).content index = some (file.patched part) :=
        content_writeBatch_of_some last
      have stop : part.stop cfg.blockSize ≤ index * cfg.blockSize + (file.patched part).length := by
        rw [length_patched, Part.stop, lastPart_index last]
        omega
      by_cases planned : ∃ group ∈ (writePlan cfg jobs hashListPrev preData).groups, index ∈ group.ids
      · obtain ⟨group, member, listed⟩ := planned
        have isData := (written group member index listed).2
        rw [isContent] at isData
        rw [Option.some.inj isData] at stop
        have below := (after index group.data (written group member index listed).2).2
        have strict := Nat.lt_of_le_of_ne below (notReached group member index listed)
        omega
      · push Not at planned
        have old := kept index planned
        rw [isContent] at old
        have below := (wellFormed index _ old.symm).2
        omega
    omega

end Plan

end TiFs
