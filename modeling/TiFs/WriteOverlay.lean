import TiFs.BlockRead
import TiFs.PendingCounts

/-! When one write overlays its range: the blocks that it overlaps hold its data at its place
and what they held before around it, and no other block is mapped differently. A block is
uploaded if its hash has not been counted before, so what decides are the counters. -/

namespace TiFs

open Overlay KeyValue Tables

def Overlaps (blockSize start length index : Nat) : Prop :=
  index * blockSize < start + length ∧ start < (index + 1) * blockSize

instance (blockSize start length index : Nat) : Decidable (Overlaps blockSize start length index) :=
  inferInstanceAs (Decidable (_ ∧ _))

def overlapped (blockSize start length : Nat) : Finset Nat :=
  (Finset.range (start + length)).filter (Overlaps blockSize start length)

/-- A block after a write: the data where the write has it, elsewhere what the block held
before, and zero where it held nothing. -/
def overlaid (blockSize start : Nat) (data old : Bytes) (index : Nat) : Bytes :=
  (List.range (max old.length (min blockSize (start + data.length - index * blockSize)))).map fun pos =>
    if start ≤ index * blockSize + pos ∧ index * blockSize + pos < start + data.length then
      data.getD (index * blockSize + pos - start) 0
    else old.getD pos 0

section Overlaid

variable {blockSize start index : Nat} {data : Bytes} {file : FileMap} {part : Part}

theorem overlaps_iff_partAt (positive : 0 < blockSize) (nonempty : 0 < data.length) :
    Overlaps blockSize start data.length index ↔ partAt blockSize ⟨data, start⟩ index ≠ none := by
  rw [Option.ne_none_iff_exists', Overlaps, Nat.add_mul, Nat.one_mul]
  constructor
  · rintro ⟨before, after⟩
    exact ⟨_, partAt_eq_some_iff.mpr ⟨by simp only; omega, rfl⟩⟩
  · rintro ⟨part, found⟩
    have inside := (partAt_eq_some_iff.mp found).1
    simp only at inside
    omega

theorem mem_overlapped (positive : 0 < blockSize) {length : Nat} :
    index ∈ overlapped blockSize start length ↔ Overlaps blockSize start length index := by
  rw [overlapped, Finset.mem_filter, Finset.mem_range, and_iff_right_iff_imp]
  intro overlaps
  exact (Nat.le_mul_of_pos_right index positive).trans_lt overlaps.1

theorem patched_eq_overlaid (found : partAt blockSize ⟨data, start⟩ index = some part)
    (short : ((file.content index).getD []).length ≤ blockSize) :
    file.patched part = overlaid blockSize start data ((file.content index).getD []) index := by
  obtain ⟨inside, isPart⟩ := partAt_eq_some_iff.mp found
  have isPosition : part.position = max start (index * blockSize) - index * blockSize := by rw [isPart]
  have isData : part.data = (data.drop (max start (index * blockSize) - start)).take
      (min (start + data.length) (index * blockSize + blockSize) - max start (index * blockSize)) := by rw [isPart]
  have length := partAt_length found
  simp only at inside length
  apply List.ext_getElem?
  intro k
  rw [FileMap.patched, overlaid, List.getElem?_map, partAt_index found]
  generalize (file.content index).getD [] = old at short ⊢
  by_cases within : k < max old.length (min blockSize (start + data.length - index * blockSize))
  · rw [List.getElem?_range within, Option.map_some]
    by_cases writes : start ≤ index * blockSize + k ∧ index * blockSize + k < start + data.length
    · have isByte : part.data[k - part.position]? = data[index * blockSize + k - start]? := by
        rw [isData, List.getElem?_take_of_lt (by omega), List.getElem?_drop]
        congr 1
        omega
      rw [if_pos writes, getElem?_overlay_of_inside 0 _ _ _ _ (by omega) (by omega), isByte,
        List.getD_eq_getElem?_getD, List.getElem?_eq_getElem (by omega), Option.getD_some]
    · rw [if_neg writes, getElem?_overlay_of_outside 0 _ _ _ _ (by omega), List.getD_eq_getElem?_getD]
      split
      · next beyond => rw [List.getElem?_eq_none beyond.1, Option.getD_none]
      · rw [List.getElem?_eq_getElem (by omega), Option.getD_some]
  · have patchedEnds : (overlay 0 part.position part.data old).length ≤ k := by
      rw [length_overlay]
      omega
    have rangeEnds : (List.range (max old.length (min blockSize (start + data.length - index * blockSize)))).length ≤ k := by
      rw [List.length_range]
      omega
    rw [List.getElem?_eq_none patchedEnds, List.getElem?_eq_none rangeEnds, Option.map_none]

theorem getElem?_overlaid (positive : 0 < blockSize) (old : Bytes) {k : Nat} (inside : k < data.length) :
    (overlaid blockSize start data old ((start + k) / blockSize))[(start + k) % blockSize]? = data[k]? := by
  have isPos := Nat.div_add_mod' (start + k) blockSize
  have inBlock := Nat.mod_lt (start + k) positive
  have within : (start + k) % blockSize <
      max old.length (min blockSize (start + data.length - (start + k) / blockSize * blockSize)) := by omega
  rw [overlaid, List.getElem?_map, List.getElem?_range within, Option.map_some, isPos, if_pos (by omega),
    Nat.add_sub_cancel_left, List.getD_eq_getElem?_getD, List.getElem?_eq_getElem inside, Option.getD_some]

theorem rewritten_eq_overlaid (found : partAt blockSize ⟨data, start⟩ index = some part)
    (short : ((file.content index).getD []).length ≤ blockSize) :
    file.rewritten blockSize part = overlaid blockSize start data ((file.content index).getD []) index := by
  rw [← patched_eq_overlaid found short, FileMap.rewritten]
  split
  · next full =>
      have bound := (partAt_bound found).2
      have atStart : part.position = 0 := by omega
      rw [FileMap.patched, atStart, partAt_index found, overlay_full]
      rwa [full]
  · rfl

end Overlaid

def overlaidBlocks (cfg : TiFsConfig) (ino : StorageIno) (state : IdleState) (start : Nat) (data : Bytes) : Set Bytes :=
  {block | ∃ index, Overlaps cfg.blockSize start data.length index ∧
    block = overlaid cfg.blockSize start data (((state.file ino).content index).getD []) index}

def overlaidHash (cfg : TiFsConfig) (ino : StorageIno) (state : IdleState) (start : Nat) (data : Bytes)
    (index : Nat) : TiFsHash :=
  cfg.calculateHash (overlaid cfg.blockSize start data (((state.file ino).content index).getD []) index)

/-- How many blocks a write maps to a hash that were not mapped to it. -/
def gained (cfg : TiFsConfig) (ino : StorageIno) (state : IdleState) (start : Nat) (data : Bytes)
    (hash : TiFsHash) : Nat :=
  ((overlapped cfg.blockSize start data.length).filter fun index =>
    overlaidHash cfg ino state start data index = hash ∧ mapping state.store ⟨ino, index⟩ ≠ some hash).card

/-- How many blocks a write takes a hash from. -/
def lost (cfg : TiFsConfig) (ino : StorageIno) (state : IdleState) (start : Nat) (data : Bytes)
    (hash : TiFsHash) : Nat :=
  ((overlapped cfg.blockSize start data.length).filter fun index =>
    mapping state.store ⟨ino, index⟩ = some hash ∧ overlaidHash cfg ino state start data index ≠ hash).card

/-- The counter of a hash tells whether its block is stored, and is not used up by a write. -/
structure Backed (cfg : TiFsConfig) (ino : StorageIno) (state : IdleState) (start : Nat) (data : Bytes)
    (hash : TiFsHash) : Prop where
  stored : 0 < counter state.store hash → (blockData state.store hash).isSome
  enough : lost cfg ino state start data hash = 0 ∨
    lost cfg ino state start data hash < counter state.store hash + gained cfg ino state start data hash

/-- An inode whose mapped hashes have their data. Its blocks may be missing or short, and
they may lie behind the end of the file. -/
structure PriorBlocks (cfg : TiFsConfig) (ino : StorageIno) (state : IdleState) : Prop where
  readable : Readable cfg ino state.store
  sized : (inoSize state.store ino).isSome
  short : ∀ index data, (state.file ino).content index = some data → data.length ≤ cfg.blockSize
  sound : SoundCaches cfg state.caches

/-- A write has overlaid its range, and every client reads it back. -/
structure Overlays (cfg : TiFsConfig) (ino : StorageIno) (state : IdleState) (start : Nat) (data : Bytes)
    (after : IdleState) : Prop where
  blocks : ∀ index, Overlaps cfg.blockSize start data.length index → (after.file ino).content index =
    some (overlaid cfg.blockSize start data (((state.file ino).content index).getD []) index)
  others : ∀ index, ¬ Overlaps cfg.blockSize start data.length index →
    mapping after.store ⟨ino, index⟩ = mapping state.store ⟨ino, index⟩
  read : ∀ reader, (hbReadData cfg ino start (some data.length) (after.caches reader) after.store).1 = .ok data

section Plan

variable {cfg : TiFsConfig} {client : Nat} {ino : StorageIno} {state : IdleState} {start : Nat} {data : Bytes}
  {hashListPrev : BlockHashes} {preData : BlocksData}

theorem PriorBlocks.short_content (prior : PriorBlocks cfg ino state) (index : Nat) :
    (((state.file ino).content index).getD []).length ≤ cfg.blockSize := by
  cases found : (state.file ino).content index with
  | none => exact Nat.zero_le _
  | some old => exact prior.short index old found

theorem IdleState.InOrder.prior (inOrder : state.InOrder cfg ino) : PriorBlocks cfg ino state where
  readable := inOrder.consistent.readable
  sized := inOrder.consistent.sized
  short := fun index block found => (inOrder.consistent.bounded index block found).1
  sound := inOrder.sound

theorem lastPart_cases (cfg : TiFsConfig) (start : Nat) (nonempty : 0 < data.length) (index : Nat) :
    (∃ part, lastPart cfg.blockSize [⟨data, start⟩] index = some part ∧
        partAt cfg.blockSize ⟨data, start⟩ index = some part ∧ Overlaps cfg.blockSize start data.length index) ∨
      lastPart cfg.blockSize [⟨data, start⟩] index = none ∧ ¬ Overlaps cfg.blockSize start data.length index := by
  have single := lastPart_singleton cfg.blockSize_pos (show 0 < (WriteTaskData.mk data start).data.length from nonempty)
    index
  rw [single, overlaps_iff_partAt cfg.blockSize_pos nonempty]
  cases found : partAt cfg.blockSize ⟨data, start⟩ index with
  | none => exact Or.inr ⟨rfl, not_not.mpr rfl⟩
  | some part => exact Or.inl ⟨part, rfl, rfl, Option.some_ne_none part⟩

theorem involved_subset (prior : PriorBlocks cfg ino state) (nonempty : 0 < data.length) :
    state.involvedBlocks cfg ino [⟨data, start⟩] ⊆ state.blocks ∪ overlaidBlocks cfg ino state start data := by
  rintro block (present | ⟨part, listed, rfl⟩)
  · exact Or.inl present
  · right
    obtain ⟨job, member, found⟩ := (mem_writeParts cfg.blockSize_pos (by simpa using nonempty)).mp listed
    rw [List.mem_singleton.mp member] at found
    refine ⟨part.index, ?_, rewritten_eq_overlaid found (prior.short_content part.index)⟩
    rw [overlaps_iff_partAt cfg.blockSize_pos nonempty, found]
    exact Option.some_ne_none part

theorem content_overlaid (prior : PriorBlocks cfg ino state) (nonempty : 0 < data.length) (index : Nat) :
    ((state.file ino).rewrite cfg.blockSize [⟨data, start⟩]).content index =
      if Overlaps cfg.blockSize start data.length index then
        some (overlaid cfg.blockSize start data (((state.file ino).content index).getD []) index)
      else (state.file ino).content index := by
  rcases lastPart_cases cfg start nonempty index with ⟨part, last, found, overlaps⟩ | ⟨none, apart⟩
  · rw [if_pos overlaps, content_rewrite_of_some last, rewritten_eq_overlaid found (prior.short_content index)]
  · rw [if_neg apart, content_rewrite_of_none none]

section Read

variable (prior : PriorBlocks cfg ino state) (nonempty : 0 < data.length)
  (read : PreRead cfg [⟨data, start⟩] (state.file ino) hashListPrev preData)

include prior nonempty read

/-- A call changes the blocks that it overlaps and whose hash is another one then. -/
theorem lookup_overlaid (index : Nat) (hash : TiFsHash) :
    (changedBlocks hashListPrev (makeNewBlocks cfg [⟨data, start⟩] hashListPrev preData)).lookup index = some hash ↔
      Overlaps cfg.blockSize start data.length index ∧ overlaidHash cfg ino state start data index = hash ∧
        mapping state.store ⟨ino, index⟩ ≠ some hash := by
  rw [lookup_changedBlocks, lookup_rewritten read]
  rcases lastPart_cases cfg start nonempty index with ⟨part, last, found, overlaps⟩ | ⟨none, apart⟩
  · obtain ⟨inParts, isIndex⟩ := part_of_last last
    have previous := read.hashes part inParts
    rw [isIndex, IdleState.file, ← prior.readable.mapping_eq] at previous
    rw [last, Option.map_some, previous, rewritten_eq_overlaid found (prior.short_content index), Option.some_inj]
    exact ⟨fun both => ⟨overlaps, both⟩, fun all => all.2⟩
  · rw [none]
    constructor
    · rintro ⟨isNew, _⟩
      cases isNew
    · rintro ⟨overlaps, _⟩
      exact absurd overlaps apart

theorem mem_planned {address : BlockAddress × Option TiFsHash} :
    address ∈ (writePlan cfg [⟨data, start⟩] hashListPrev preData).addressesToModify ino ↔
      ∃ index, Overlaps cfg.blockSize start data.length index ∧
        mapping state.store ⟨ino, index⟩ ≠ some (overlaidHash cfg ino state start data index) ∧
        address = (⟨ino, index⟩, some (overlaidHash cfg ino state start data index)) := by
  rw [mem_addressesToModify]
  constructor
  · rintro ⟨group, member, index, listed, rfl⟩
    obtain ⟨overlaps, isHash, changed⟩ :=
      (lookup_overlaid prior nonempty read index group.hash).mp (((mem_blockGroups member).1 index).mp listed)
    rw [← isHash] at changed ⊢
    exact ⟨index, overlaps, changed, rfl⟩
  · rintro ⟨index, overlaps, changed, rfl⟩
    obtain ⟨group, member, isHash, listed⟩ :=
      group_of_changed ((lookup_overlaid prior nonempty read index _).mpr ⟨overlaps, rfl, changed⟩)
    exact ⟨group, member, index, listed, by rw [isHash]⟩

theorem countP_planned (select : BlockAddress × Option TiFsHash → Bool) :
    ((writePlan cfg [⟨data, start⟩] hashListPrev preData).addressesToModify ino).countP select =
      ((overlapped cfg.blockSize start data.length).filter fun index =>
        mapping state.store ⟨ino, index⟩ ≠ some (overlaidHash cfg ino state start data index) ∧
          select (⟨ino, index⟩, some (overlaidHash cfg ino state start data index))).card := by
  rw [← length_filter_eq_card (WritePlan.addresses_nodup _ ino) select,
    ← Finset.card_image_of_injective _ fun first second same => (BlockAddress.mk.inj same).2]
  congr 1
  ext addr
  simp only [List.mem_toFinset, List.mem_map, List.mem_filter, Finset.mem_image, Finset.mem_filter,
    mem_overlapped cfg.blockSize_pos]
  constructor
  · rintro ⟨address, ⟨member, selected⟩, rfl⟩
    obtain ⟨index, overlaps, changed, rfl⟩ := (mem_planned prior nonempty read).mp member
    exact ⟨index, ⟨overlaps, changed, selected⟩, rfl⟩
  · rintro ⟨index, ⟨overlaps, changed, selected⟩, rfl⟩
    exact ⟨_, ⟨(mem_planned prior nonempty read).mpr ⟨index, overlaps, changed, rfl⟩, selected⟩, rfl⟩

theorem mappedBy_planned (hash : TiFsHash) :
    mappedBy ((writePlan cfg [⟨data, start⟩] hashListPrev preData).addressesToModify ino) hash =
      gained cfg ino state start data hash := by
  rw [mappedBy, List.count_filterMap, countP_planned prior nonempty read, gained]
  congr 1
  refine Finset.filter_congr fun index _ => ?_
  rw [beq_iff_eq, Option.some_inj, and_comm]
  exact and_congr_right fun isHash => by rw [isHash]

theorem prevHashes_planned (hash : TiFsHash) :
    (prevHashes state.store ((writePlan cfg [⟨data, start⟩] hashListPrev preData).addressesToModify ino)).count hash =
      lost cfg ino state start data hash := by
  rw [prevHashes, List.count_filterMap, countP_planned prior nonempty read, lost]
  congr 1
  refine Finset.filter_congr fun index _ => ?_
  rw [beq_iff_eq, and_comm]
  refine and_congr_right fun isMapped => ?_
  rw [isMapped, ne_eq, Option.some_inj, eq_comm]

end Read

end Plan

structure WritesStart (cfg : TiFsConfig) (ino : StorageIno) (state : IdleState) (start : Nat) (data : Bytes)
    (tasks : BlockSystem cfg) : Prop where
  store : tasks.store = state.store
  toCount : ∀ hash, tasks.toCount hash = gained cfg ino state start data hash
  toRelease : ∀ hash, tasks.toRelease state.store hash = lost cfg ino state start data hash
  quiet : ∀ hash, ¬ tasks.Uploads hash
  unreplaced : ∀ task, .write task ∈ tasks.ops → task.phase.isReplaced = false

def Overlaying (cfg : TiFsConfig) (ino : StorageIno) (state : IdleState) (start : Nat) (data : Bytes)
    (holds : BlockSystem cfg → Prop) : BlockSystem cfg → Prop :=
  Towards ino (state.involvedBlocks cfg ino [⟨data, start⟩])
    ((state.file ino).rewrite cfg.blockSize [⟨data, start⟩]) state.store holds

section Tasks

variable {cfg : TiFsConfig} {client : Nat} {ino : StorageIno} {state after : IdleState} {start : Nat} {data : Bytes}
  {holds : BlockSystem cfg → Prop} {tasks : BlockSystem cfg} {index : Nat}
  (prior : PriorBlocks cfg ino state) (nonempty : 0 < data.length)

include prior nonempty

theorem Overlaying.mapping_eq (overlaying : Overlaying cfg ino state start data holds tasks)
    (ended : ∀ op ∈ tasks.ops, op.outcome.isSome) (index : Nat) :
    mapping tasks.store ⟨ino, index⟩ =
      if Overlaps cfg.blockSize start data.length index then some (overlaidHash cfg ino state start data index)
      else mapping state.store ⟨ino, index⟩ := by
  rw [overlaying.refines.mapped index, content_overlaid prior nonempty]
  · split
    · rfl
    · exact (prior.readable.mapping_eq index).symm
  · intro op member listed
    obtain ⟨task, rfl, _⟩ := overlaying.refines.tasks op member
    rw [(idle_of_ended (ended _ member)).2.1] at listed
    cases listed

variable (injective : Set.InjOn cfg.calculateHash (state.blocks ∪ overlaidBlocks cfg ino state start data))

include injective

theorem injOn_involved : Set.InjOn cfg.calculateHash (state.involvedBlocks cfg ino [⟨data, start⟩]) :=
  injective.mono (involved_subset prior nonempty)

theorem overlaying_start {hashListPrev : BlockHashes} {preData : BlocksData}
    (read : PreRead cfg [⟨data, start⟩] (state.file ino) hashListPrev preData) :
    Overlaying cfg ino state start data (WritesStart cfg ino state start data)
      ⟨state.store, (writeTasks cfg ino (writePlan cfg [⟨data, start⟩] hashListPrev preData)).map .write⟩ := by
  refine ⟨prior.readable.tasksRefine prior.sized (injOn_involved prior nonempty injective) read,
    replacing_writeTasks (writePlan_filled cfg _ _ _), ?_⟩
  refine ⟨rfl, ?_, ?_, fun hash => not_uploads_writeTasks, fun task => unreplaced_writeTasks⟩
  · exact fun hash => toCount_writeTasks.trans (mappedBy_planned prior nonempty read hash)
  · exact fun hash => toRelease_writeTasks.trans (prevHashes_planned prior nonempty read hash)

/-- What holds of the tasks at their start, and is kept by each of their transactions, holds
when the call has returned. -/
theorem overlaying_done (holds : BlockSystem cfg → Prop)
    (starts : ∀ tasks, WritesStart cfg ino state start data tasks → holds tasks)
    (changes : ∀ tasks next, (∀ hash, BlockChange state.store hash tasks next) → holds tasks → holds next)
    (ran : WriteAlone cfg client ino [⟨data, start⟩] state after) :
    ∃ tasks, Overlaying cfg ino state start data holds tasks ∧ tasks.store = after.store ∧
      (∀ op ∈ tasks.ops, op.outcome.isSome) ∧ CachesInvolved cfg ino [⟨data, start⟩] state after.caches := by
  refine ran.tasks_done _ prior.readable prior.sound (injOn_involved prior nonempty injective) ?_ ?_
  · intro hashListPrev preData read
    obtain ⟨refines, replacing, isStart⟩ := overlaying_start prior nonempty injective read
    exact ⟨refines, replacing, starts _ isStart⟩
  · exact fun tasks k ambient next overlaying taken => overlaying.advance changes taken

theorem mapping_done (ran : WriteAlone cfg client ino [⟨data, start⟩] state after) (index : Nat) :
    mapping after.store ⟨ino, index⟩ =
      if Overlaps cfg.blockSize start data.length index then some (overlaidHash cfg ino state start data index)
      else mapping state.store ⟨ino, index⟩ := by
  obtain ⟨tasks, overlaying, isStore, ended, _⟩ := overlaying_done prior nonempty injective (fun _ => True)
    (fun _ _ => trivial) (fun _ _ _ _ => trivial) ran
  rw [← isStore]
  exact overlaying.mapping_eq prior nonempty ended index

theorem exists_alone (client : Nat) (finished : BlockSystem cfg → Prop)
    (runs : ∀ tasks, Overlaying cfg ino state start data (WritesStart cfg ino state start data) tasks →
      ∃ last, Run BlockSystem.Step TasksOnly tasks last ∧ (∀ op ∈ last.ops, op.outcome = some (.ok ())) ∧
        finished last) :
    ∃ after last, WriteAlone cfg client ino [⟨data, start⟩] state after ∧ finished last ∧
      last.store = after.store :=
  WriteAlone.of_tasks finished prior.readable prior.sound (injOn_involved prior nonempty injective)
    fun _ _ read => runs _ (overlaying_start prior nonempty injective read)

theorem exists_write (client : Nat) : ∃ after, WriteAlone cfg client ino [⟨data, start⟩] state after := by
  obtain ⟨after, _, ran, _⟩ := exists_alone prior nonempty injective client (fun _ => True) fun tasks overlaying => by
    obtain ⟨last, run, done⟩ := overlaying.refines.finish
    exact ⟨last, run, done, trivial⟩
  exact ⟨after, ran⟩

theorem Overlays.stored (overlays : Overlays cfg ino state start data after)
    (ran : WriteAlone cfg client ino [⟨data, start⟩] state after)
    (overlaps : Overlaps cfg.blockSize start data.length index) :
    (blockData after.store (overlaidHash cfg ino state start data index)).isSome := by
  obtain ⟨hash, isMapped, found⟩ := content_stored (overlays.blocks index overlaps)
  rw [mapping_done prior nonempty injective ran, if_pos overlaps, Option.some_inj] at isMapped
  rw [isMapped, found]
  rfl

/-- A counted block that is missing is not uploaded. -/
theorem stored_of_overlays (client : Nat)
    (overlays : ∀ after, WriteAlone cfg client ino [⟨data, start⟩] state after →
      Overlays cfg ino state start data after)
    (overlaps : Overlaps cfg.blockSize start data.length index)
    (counted : 0 < counter state.store (overlaidHash cfg ino state start data index)) :
    (blockData state.store (overlaidHash cfg ino state start data index)).isSome := by
  by_contra missing
  rw [Option.not_isSome_iff_eq_none] at missing
  -- No block is mapped to the hash, so that it is only counted up.
  have none : lost cfg ino state start data (overlaidHash cfg ino state start data index) = 0 := by
    rw [lost, Finset.card_eq_zero, Finset.filter_eq_empty_iff]
    rintro other _ ⟨isMapped, _⟩
    have stored := prior.readable.stored other _ isMapped
    rw [missing] at stored
    cases stored
  obtain ⟨after, ran⟩ := exists_write prior nonempty injective client
  obtain ⟨tasks, overlaying, isStore, _⟩ := overlaying_done prior nonempty injective
    (Withheld state.store (overlaidHash cfg ino state start data index))
    (fun tasks isStart => by
      refine ⟨?_, ?_, isStart.quiet _, (isStart.toRelease _).trans none⟩
      · rwa [isStart.store]
      · rwa [isStart.store])
    (fun _ _ changes holds => holds.change (changes _)) ran
  have stored := (overlays after ran).stored prior nonempty injective ran overlaps
  rw [← isStore, overlaying.holds.missing] at stored
  cases stored

/-- A counter that is used up takes the block away. -/
theorem enough_of_overlays (client : Nat)
    (overlays : ∀ after, WriteAlone cfg client ino [⟨data, start⟩] state after →
      Overlays cfg ino state start data after)
    (overlaps : Overlaps cfg.blockSize start data.length index) :
    lost cfg ino state start data (overlaidHash cfg ino state start data index) = 0 ∨
      lost cfg ino state start data (overlaidHash cfg ino state start data index) <
        counter state.store (overlaidHash cfg ino state start data index) +
          gained cfg ino state start data (overlaidHash cfg ino state start data index) := by
  by_contra usedUp
  push Not at usedUp
  obtain ⟨some, few⟩ := usedUp
  obtain ⟨after, last, ran, gone, isStore⟩ := exists_alone prior nonempty injective client
    (fun last => blockData last.store (overlaidHash cfg ino state start data index) = none) fun tasks overlaying => by
      have isStart := overlaying.holds
      have counting : CountingUp state.store (overlaidHash cfg ino state start data index) tasks := by
        refine ⟨overlaying.replacing, isStart.unreplaced, ?_, ?_⟩
        · rw [isStart.toRelease]
          exact Nat.pos_of_ne_zero some
        · rw [isStart.toRelease, isStart.toCount, isStart.store]
          exact few
      exact counting.exists_gone overlaying.refines
  have stored := (overlays after ran).stored prior nonempty injective ran overlaps
  rw [← isStore, gone] at stored
  cases stored

theorem stored_of_backed (backed : Backed cfg ino state start data (overlaidHash cfg ino state start data index))
    (overlaps : Overlaps cfg.blockSize start data.length index)
    (ran : WriteAlone cfg client ino [⟨data, start⟩] state after) :
    blockData after.store (overlaidHash cfg ino state start data index) =
      some (overlaid cfg.blockSize start data (((state.file ino).content index).getD []) index) := by
  obtain ⟨tasks, overlaying, isStore, ended, _⟩ := overlaying_done prior nonempty injective
    (Retained state.store (overlaidHash cfg ino state start data index))
    (fun tasks isStart => by
      refine ⟨?_, ?_, ?_⟩
      · rw [isStart.toRelease, isStart.toCount, isStart.store]
        exact backed.enough
      · rw [isStart.store]
        exact fun counted => Or.inl (backed.stored counted)
      · -- Either the block has the hash already, or it is to be counted.
        rw [isStart.toCount, isStart.store]
        by_cases same : mapping state.store ⟨ino, index⟩ = some (overlaidHash cfg ino state start data index)
        · exact Or.inl (prior.readable.stored index _ same)
        · refine Or.inr (Or.inl (Finset.card_pos.mpr ⟨index, Finset.mem_filter.mpr ⟨?_, rfl, same⟩⟩))
          exact (mem_overlapped cfg.blockSize_pos).mpr overlaps)
    (fun _ _ changes holds => holds.change (changes _)) ran
  obtain ⟨none, _, quiet⟩ := settled_of_ended overlaying.refines ended state.store
    (overlaidHash cfg ino state start data index)
  rw [← isStore]
  rcases overlaying.holds.present with stored | pending | uploading
  · obtain ⟨block, found⟩ := Option.isSome_iff_exists.mp stored
    obtain ⟨isInvolved, sameHash⟩ := overlaying.refines.addressed _ block found
    rw [found, injective (involved_subset prior nonempty isInvolved) (Or.inr ⟨index, overlaps, rfl⟩) sameHash]
  · exact absurd pending (by omega)
  · exact absurd uploading quiet

theorem content_of_backed (backed : Backed cfg ino state start data (overlaidHash cfg ino state start data index))
    (overlaps : Overlaps cfg.blockSize start data.length index)
    (ran : WriteAlone cfg client ino [⟨data, start⟩] state after) :
    (after.file ino).content index =
      some (overlaid cfg.blockSize start data (((state.file ino).content index).getD []) index) := by
  have isMapped := mapping_done prior nonempty injective ran index
  rw [if_pos overlaps] at isMapped
  exact (congrArg (fun hash => hash.bind (blockData after.store)) isMapped).trans
    (stored_of_backed prior nonempty injective backed overlaps ran)

/-- With all its hashes backed a write overlays its range. -/
theorem overlays_of_backed (backed : ∀ index, Overlaps cfg.blockSize start data.length index →
      Backed cfg ino state start data (overlaidHash cfg ino state start data index))
    (ran : WriteAlone cfg client ino [⟨data, start⟩] state after) : Overlays cfg ino state start data after := by
  have contents := fun index overlaps =>
    content_of_backed prior nonempty injective (backed index overlaps) overlaps ran
  refine ⟨contents, ?_, ?_⟩
  · intro index apart
    rw [mapping_done prior nonempty injective ran, if_neg apart]
  · intro reader
    obtain ⟨tasks, overlaying, isStore, _, cached⟩ := overlaying_done prior nonempty injective (fun _ => True)
      (fun _ _ => trivial) (fun _ _ _ _ => trivial) ran
    have visited : ∀ index, start / cfg.blockSize ≤ index → index * cfg.blockSize < start + data.length →
        Overlaps cfg.blockSize start data.length index := by
      intro index lower upper
      exact ⟨upper, (Nat.div_lt_iff_lt_mul cfg.blockSize_pos).mp (Nat.lt_succ_of_le lower)⟩
    obtain ⟨filled, isRead, _⟩ := hbReadData_contents_bytes (injOn_involved prior nonempty injective)
      (isStore ▸ overlaying.refines.addressed) (cached reader)
      (fun index lower upper => by
        have overlaps := visited index lower upper
        rw [mapping_done prior nonempty injective ran, if_pos overlaps, ← IdleState.file, contents index overlaps]
        rfl)
      le_rfl fun k inside => by
        have lower := Nat.div_le_div_right (c := cfg.blockSize) (Nat.le_add_right start k)
        have upper := (Nat.div_mul_le_self (start + k) cfg.blockSize).trans_lt (Nat.add_lt_add_left inside start)
        rw [FileMap.byte, ← IdleState.file, contents _ (visited _ lower upper), Option.bind_some]
        exact getElem?_overlaid cfg.blockSize_pos _ inside
    rw [isRead]

end Tasks

section Write

variable {cfg : TiFsConfig} {ino : StorageIno} {state : IdleState} {start : Nat} {data : Bytes} {index : Nat}

/-- Where counters cover the mappings they are not used up by a write. -/
theorem backed_of_covered (covered : ∀ hash, mapped state.store hash ≤ counter state.store hash)
    (counted : ∀ hash, 0 < counter state.store hash → (blockData state.store hash).isSome)
    (overlaps : Overlaps cfg.blockSize start data.length index) :
    Backed cfg ino state start data (overlaidHash cfg ino state start data index) := by
  refine ⟨counted _, ?_⟩
  have enough := covered (overlaidHash cfg ino state start data index)
  let losing := ((overlapped cfg.blockSize start data.length).filter fun other =>
    mapping state.store ⟨ino, other⟩ = some (overlaidHash cfg ino state start data index) ∧
      overlaidHash cfg ino state start data other ≠ overlaidHash cfg ino state start data index).image (BlockAddress.mk ino)
  have isLost : lost cfg ino state start data (overlaidHash cfg ino state start data index) = losing.card :=
    (Finset.card_image_of_injective _ fun _ _ same => (BlockAddress.mk.inj same).2).symm
  have mappedBefore : losing ⊆ mappedTo state.store (overlaidHash cfg ino state start data index) := by
    intro addr listed
    obtain ⟨other, member, rfl⟩ := Finset.mem_image.mp listed
    exact (mem_mappedTo _ _ _).mpr (Finset.mem_filter.mp member).2.1
  have atMost := Finset.card_le_card mappedBefore
  have inRange := (mem_overlapped cfg.blockSize_pos).mpr overlaps
  right
  rw [isLost]
  by_cases same : mapping state.store ⟨ino, index⟩ = some (overlaidHash cfg ino state start data index)
  · -- The block itself keeps the hash.
    have kept : (⟨ino, index⟩ : BlockAddress) ∉ losing := by
      intro listed
      obtain ⟨other, member, sameAddr⟩ := Finset.mem_image.mp listed
      obtain rfl := (BlockAddress.mk.inj sameAddr).2
      exact (Finset.mem_filter.mp member).2.2 rfl
    have fewer := Finset.card_lt_card (Finset.ssubset_iff_subset_ne.mpr
      ⟨mappedBefore, fun equal => kept (equal ▸ (mem_mappedTo _ _ _).mpr same)⟩)
    rw [mapped] at enough
    omega
  · have gains : 0 < gained cfg ino state start data (overlaidHash cfg ino state start data index) :=
      Finset.card_pos.mpr ⟨index, Finset.mem_filter.mpr ⟨inRange, rfl, same⟩⟩
    rw [mapped] at enough
    omega

theorem overlaidBlocks_short (prior : PriorBlocks cfg ino state) (start : Nat) (data : Bytes) :
    overlaidBlocks cfg ino state start data ⊆ {block | block.length ≤ cfg.blockSize} := by
  rintro block ⟨index, _, rfl⟩
  have short := prior.short_content index
  change (overlaid _ _ _ _ _).length ≤ cfg.blockSize
  rw [overlaid, List.length_map, List.length_range]
  omega

/-- A write of data comes to its end, overlays the blocks of its range, leaves every other
block mapped as it was and is read back by every client, exactly if the hashes of the blocks
that it leaves behind are backed. -/
theorem write_overlays_iff (cfg : TiFsConfig) (client : Nat) (ino : StorageIno) (state : IdleState) (start : Nat)
    (data : Bytes) (nonempty : data ≠ []) (prior : PriorBlocks cfg ino state)
    (injective : Set.InjOn cfg.calculateHash (state.blocks ∪ overlaidBlocks cfg ino state start data)) :
    ((∃ after, WriteAlone cfg client ino [⟨data, start⟩] state after) ∧
        ∀ after, WriteAlone cfg client ino [⟨data, start⟩] state after → Overlays cfg ino state start data after) ↔
      ∀ index, Overlaps cfg.blockSize start data.length index →
        Backed cfg ino state start data (overlaidHash cfg ino state start data index) := by
  have some := List.length_pos_iff.mpr nonempty
  constructor
  · rintro ⟨_, overlays⟩ index overlaps
    exact ⟨stored_of_overlays prior some injective client overlays overlaps,
      enough_of_overlays prior some injective client overlays overlaps⟩
  · intro backed
    exact ⟨exists_write prior some injective client,
      fun after ran => overlays_of_backed prior some injective backed ran⟩

end Write

/-- Three bytes from the second position on, in blocks of two bytes. -/
theorem write_overlays_three_bytes : ∃ after,
    WriteAlone (paddingConfig 2 Nat.two_pos) 0 10 [⟨[7, 8, 9], 1⟩] (newState 10) after ∧
      (after.file 10).content 0 = some [0, 7] ∧ (after.file 10).content 1 = some [8, 9] ∧
      (hbReadData (paddingConfig 2 Nat.two_pos) 10 1 (some 3) (after.caches 0) after.store).1 = .ok [7, 8, 9] := by
  have inOrder := newState_inOrder (paddingConfig 2 Nat.two_pos) 10
  obtain ⟨⟨after, ran⟩, spec⟩ := (write_overlays_iff (paddingConfig 2 Nat.two_pos) 0 10 (newState 10) 1 [7, 8, 9]
    (by decide) inOrder.prior ((padding_injOn Nat.two_pos).mono
      (Set.union_subset (newState_blocks_short 2 10) (overlaidBlocks_short inOrder.prior 1 _)))).mpr
    fun index overlaps => backed_of_covered inOrder.consistent.covered inOrder.consistent.counted overlaps
  have overlays := spec after ran
  refine ⟨after, ran, ?_, ?_, overlays.read 0⟩
  · refine (overlays.blocks 0 ⟨by decide, by decide⟩).trans ?_
    rw [newState_file]
    rfl
  · refine (overlays.blocks 1 ⟨by decide, by decide⟩).trans ?_
    rw [newState_file]
    rfl

/-- A new file, and the counter of a block whose writer stopped before it uploaded it. -/
def countedState : IdleState where
  store := applyAll (newFile 10) [Mutation.put (.countedNamedUsages (padHash 3 [7, 8])) (1 : Nat)]
  caches _ := ∅

theorem countedState_prior : PriorBlocks (paddingConfig 2 Nat.two_pos) 10 countedState where
  readable :=
    { stored := fun _ _ found => by cases found
      addressed := fun _ _ found => by cases found }
  sized := rfl
  short := fun _ _ found => by cases found
  sound := fun _ _ _ found => by cases found

/-- The write returns, but its block is counted already, so that it is mapped and not stored. -/
theorem write_leaves_hole :
    ¬ ∀ (cfg : TiFsConfig) (client : Nat) (ino : StorageIno) (state : IdleState) (start : Nat) (data : Bytes),
      data ≠ [] → PriorBlocks cfg ino state →
      Set.InjOn cfg.calculateHash (state.blocks ∪ overlaidBlocks cfg ino state start data) →
      ∀ after, WriteAlone cfg client ino [⟨data, start⟩] state after → Overlays cfg ino state start data after := by
  intro claim
  obtain ⟨last, run, checked⟩ := WriteSystem.exists_run
    (WriteSystem.begin (paddingConfig 2 Nat.two_pos) countedState.store countedState.caches
      [WriteCall.start (paddingConfig 2 Nat.two_pos) 0 10 [⟨[7, 8], 0⟩]])
    ([.proceed 0, .proceed 0, .proceed 0] ++ List.replicate 8 (.transact 0 ⟨5, 1⟩) ++ [.proceed 0])
    (fun last => last.calls.all (fun call => call.phase.succeeded) &&
      (hbReadData (paddingConfig 2 Nat.two_pos) 10 0 (some 2) (last.caches 1) last.blocks.store).1.toOption = some [])
    (by decide +kernel)
  obtain ⟨returned, readsNothing⟩ := Bool.and_eq_true_iff.mp checked
  have short : countedState.blocks ⊆ {block | block.length ≤ 2} := by
    rintro block (⟨hash, found⟩ | ⟨client, hash, found⟩)
    · cases found
    · cases found
  have overlays := claim _ 0 10 countedState 0 [7, 8] (by decide) countedState_prior
    ((padding_injOn Nat.two_pos).mono (Set.union_subset short (overlaidBlocks_short countedState_prior 0 _)))
    _ ⟨last, run, List.all_eq_true.mp returned, rfl⟩
  have reads := overlays.read 1
  simp only [List.length_cons, List.length_nil] at reads
  rw [reads] at readsNothing
  exact absurd (of_decide_eq_true readsNothing) (by decide)

end TiFs
