import TiFs.BlockRead

/-! Reads of a new file after writes made one by one, against the array of bytes
that the writes make up. A block that is missing or too short shifts everything
behind it to the front. -/

namespace TiFs

open Overlay KeyValue

/-- The array that writes make up: gaps are zero. -/
def reference (writes : List WriteTaskData) : Bytes :=
  writes.foldl (fun bytes job => overlay 0 job.start job.data bytes) []

/-- Every block that lies below the end of the file has its last byte written. -/
def BlocksReached (blockSize : Nat) (writes : List WriteTaskData) : Prop :=
  ∀ (index : Nat) (job : WriteTaskData), job ∈ writes →
    (index + 1) * blockSize ≤ job.start + job.data.length →
    ∃ other ∈ writes, other.Writes ((index + 1) * blockSize - 1)

structure Mirrors (blockSize : Nat) (file : FileMap) (bytes : Bytes) : Prop where
  same : ∀ pos < bytes.length, bytes[pos]? = some ((file.byte blockSize pos).getD 0)
  within : ∀ pos, (file.byte blockSize pos).isSome → pos < bytes.length
  size : file.size = bytes.length
  last : 0 < bytes.length → (file.byte blockSize (bytes.length - 1)).isSome

section Mirrors

variable {blockSize : Nat} {file : FileMap} {bytes : Bytes} {job : WriteTaskData}

theorem byte_write_isSome (positive : 0 < blockSize) (nonempty : 0 < job.data.length) {pos : Nat}
    (reached : job.Writes pos ∨ (file.byte blockSize pos).isSome) :
    ((file.writeBatch blockSize [job]).byte blockSize pos).isSome := by
  by_cases writes : job.Writes pos
  · rw [byte_write_of_writes positive nonempty writes]
    obtain ⟨lower, upper⟩ := writes
    rw [List.getElem?_eq_getElem (by omega)]
    rfl
  · rcases byte_write_of_not_writes positive nonempty writes with same | ⟨_, _, _, zero⟩
    · rw [same]
      exact reached.resolve_left writes
    · rw [zero]
      rfl

theorem Mirrors.write (positive : 0 < blockSize) (nonempty : 0 < job.data.length)
    (mirrors : Mirrors blockSize file bytes) :
    Mirrors blockSize (file.writeBatch blockSize [job]) (overlay 0 job.start job.data bytes) := by
  have outside : ∀ {pos : Nat}, ¬ job.Writes pos → pos < job.start ∨ job.start + job.data.length ≤ pos := by
    intro pos writes
    unfold WriteTaskData.Writes at writes
    omega
  constructor
  · intro pos below
    rw [length_overlay] at below
    by_cases writes : job.Writes pos
    · have inside : pos - job.start < job.data.length := by
        obtain ⟨lower, upper⟩ := writes
        omega
      rw [byte_write_of_writes positive nonempty writes,
        getElem?_overlay_of_inside 0 _ _ _ _ writes.1 writes.2, List.getElem?_eq_getElem inside]
      rfl
    · have sides := outside writes
      -- A byte that is not there counts as zero, before the write and after it.
      have isSame : ((file.writeBatch blockSize [job]).byte blockSize pos).getD 0 =
          (file.byte blockSize pos).getD 0 := by
        rcases byte_write_of_not_writes positive nonempty writes with same | ⟨none, _, _, zero⟩
        · rw [same]
        · rw [none, zero]
          rfl
      rw [getElem?_overlay_of_outside 0 _ _ _ _ sides, isSame]
      by_cases beyond : bytes.length ≤ pos
      · have none : file.byte blockSize pos = none := by
          cases found : file.byte blockSize pos with
          | none => rfl
          | some value =>
              have old := mirrors.within pos (by rw [found]; rfl)
              omega
        rw [if_pos (by omega), none]
        rfl
      · rw [if_neg (by omega)]
        exact mirrors.same pos (by omega)
  · intro pos found
    rw [length_overlay]
    by_cases writes : job.Writes pos
    · obtain ⟨lower, upper⟩ := writes
      omega
    · rcases byte_write_of_not_writes positive nonempty writes with same | ⟨_, before, _, _⟩
      · rw [same] at found
        have old := mirrors.within pos found
        omega
      · omega
  · rw [size_write positive nonempty, length_overlay, mirrors.size]
  · rw [length_overlay]
    intro some
    apply byte_write_isSome positive nonempty
    by_cases longer : bytes.length ≤ job.start + job.data.length
    · left
      rw [Nat.max_eq_right longer]
      unfold WriteTaskData.Writes
      omega
    · right
      rw [Nat.max_eq_left (by omega)]
      exact mirrors.last (by omega)

theorem mirrors_reference (positive : 0 < blockSize) {writes : List WriteTaskData}
    (nonempty : ∀ job ∈ writes, 0 < job.data.length) :
    Mirrors blockSize (FileMap.empty.writeSequence blockSize writes) (reference writes) := by
  induction writes using List.reverseRecOn with
  | nil =>
      refine ⟨fun pos below => absurd below (Nat.not_lt_zero pos), ?_, rfl,
        fun some => absurd some (Nat.lt_irrefl 0)⟩
      intro pos found
      cases found
  | append_singleton front last ih =>
      have before := ih fun job member => nonempty job (List.mem_append_left _ member)
      rw [FileMap.writeSequence, reference, List.foldl_append, List.foldl_append]
      exact before.write positive (nonempty last (by simp))

theorem Mirrors.byte_eq (positive : 0 < blockSize) (mirrors : Mirrors blockSize file bytes)
    (complete : ∀ index, (index + 1) * blockSize ≤ bytes.length →
      (file.byte blockSize ((index + 1) * blockSize - 1)).isSome) (pos : Nat) :
    file.byte blockSize pos = bytes[pos]? := by
  by_cases below : pos < bytes.length
  · have whole := Nat.div_add_mod pos blockSize
    have inBlock := Nat.mod_lt pos positive
    rw [Nat.mul_comm] at whole
    have next : (pos / blockSize + 1) * blockSize = pos / blockSize * blockSize + blockSize := by
      rw [Nat.add_mul, Nat.one_mul]
    have present : (file.byte blockSize pos).isSome := by
      by_cases full : (pos / blockSize + 1) * blockSize ≤ bytes.length
      · refine byte_isSome_of_later (by omega) ?_ (complete _ full)
        rw [eq_comm, Nat.div_eq_iff positive]
        omega
      · refine byte_isSome_of_later (by omega) ?_ (mirrors.last (by omega))
        rw [eq_comm, Nat.div_eq_iff positive]
        omega
    obtain ⟨value, found⟩ := Option.isSome_iff_exists.mp present
    rw [mirrors.same pos below, found]
    rfl
  · rw [List.getElem?_eq_none (by omega)]
    cases found : file.byte blockSize pos with
    | none => rfl
    | some value => exact absurd (mirrors.within pos (by rw [found]; rfl)) below

theorem lastByte_isSome_iff (positive : 0 < blockSize) {writes : List WriteTaskData}
    (nonempty : ∀ job ∈ writes, 0 < job.data.length) (index : Nat) :
    ((FileMap.empty.writeSequence blockSize writes).byte blockSize
      ((index + 1) * blockSize - 1)).isSome ↔
        ∃ job ∈ writes, job.Writes ((index + 1) * blockSize - 1) := by
  have next : (index + 1) * blockSize = index * blockSize + blockSize := by
    rw [Nat.add_mul, Nat.one_mul]
  have isBlock : ((index + 1) * blockSize - 1) / blockSize = index := by
    rw [Nat.div_eq_iff positive]
    omega
  induction writes using List.reverseRecOn with
  | nil =>
      simp only [FileMap.writeSequence, List.foldl_nil, List.not_mem_nil, false_and, exists_false,
        iff_false]
      intro found
      cases found
  | append_singleton front last ih =>
      have before := ih fun job member => nonempty job (List.mem_append_left _ member)
      have lastNonempty := nonempty last (by simp)
      rw [FileMap.writeSequence, List.foldl_append, List.foldl_cons, List.foldl_nil]
      constructor
      · intro found
        by_cases writes : last.Writes ((index + 1) * blockSize - 1)
        · exact ⟨last, by simp, writes⟩
        · rcases byte_write_of_not_writes positive lastNonempty writes with
            same | ⟨_, behind, sameBlock, _⟩
          · rw [same] at found
            obtain ⟨job, member, isWritten⟩ := before.mp found
            exact ⟨job, List.mem_append_left _ member, isWritten⟩
          · -- Behind the last byte there is no further one of the block.
            rw [isBlock, Nat.div_eq_iff positive] at sameBlock
            omega
      · rintro ⟨job, member, isWritten⟩
        apply byte_write_isSome positive lastNonempty
        rcases List.mem_append.mp member with inFront | isLast
        · exact Or.inr (before.mpr ⟨job, inFront, isWritten⟩)
        · rw [List.mem_singleton.mp isLast] at isWritten
          exact Or.inl isWritten

theorem le_length_reference {writes : List WriteTaskData} {bound : Nat} (some : 0 < bound) :
    bound ≤ (reference writes).length ↔
      ∃ job ∈ writes, bound ≤ job.start + job.data.length := by
  induction writes using List.reverseRecOn with
  | nil =>
      simp only [reference, List.foldl_nil, List.length_nil, List.not_mem_nil, false_and,
        exists_false, iff_false]
      omega
  | append_singleton front last ih =>
      have isLength : (reference (front ++ [last])).length =
          max (reference front).length (last.start + last.data.length) := by
        rw [reference, List.foldl_append, List.foldl_cons, List.foldl_nil, length_overlay]
        rfl
      rw [isLength, le_max_iff, ih]
      simp only [List.mem_append, List.mem_singleton, or_and_right, exists_or, exists_eq_left]

end Mirrors

def ReadsAs (cfg : TiFsConfig) (reader : Nat) (ino : StorageIno) (state : IdleState) (bytes : Bytes) :
    Prop :=
  ∀ start size, (hbReadData cfg ino start (some size) (state.caches reader) state.store).1 =
    .ok ((bytes.drop start).take size)

section Reads

variable {cfg : TiFsConfig} {ino : StorageIno} {involved : Set Bytes} {state : IdleState}
  {bytes : Bytes} (inOrder : state.InOrder cfg ino) (present : state.blocks ⊆ involved)
  (injective : Set.InjOn cfg.calculateHash involved)

include inOrder present injective

theorem readsAs_of_bytes (reader : Nat)
    (same : ∀ pos, (state.file ino).byte cfg.blockSize pos = bytes[pos]?) :
    ReadsAs cfg reader ino state bytes := by
  intro start size
  have fits : ((bytes.drop start).take size).length ≤ size := List.length_take_le _ _
  obtain ⟨filled, isRead, _⟩ := hbReadData_bytes inOrder present injective reader start fits
    fun k inside => by rw [same, List.getElem?_take_of_lt inside, List.getElem?_drop]
  rw [isRead]

theorem read_one_block (reader index : Nat) :
    (hbReadData cfg ino (index * cfg.blockSize) (some cfg.blockSize) (state.caches reader)
      state.store).1 = .ok (((state.file ino).content index).getD []) := by
  have positive := cfg.blockSize_pos
  have short : (((state.file ino).content index).getD []).length ≤ cfg.blockSize := by
    cases content : (state.file ino).content index with
    | none => exact Nat.zero_le _
    | some data => exact (inOrder.consistent.bounded index data content).1
  obtain ⟨filled, isRead, _⟩ := hbReadData_bytes inOrder present injective reader
    (index * cfg.blockSize) short fun k inside => by
      have isBlock : (index * cfg.blockSize + k) / cfg.blockSize = index := by
        rw [Nat.div_eq_iff positive]
        omega
      have isOffset : (index * cfg.blockSize + k) % cfg.blockSize = k := by
        rw [Nat.mul_comm, Nat.mul_add_mod, Nat.mod_eq_of_lt inside]
      rw [FileMap.byte, isBlock, isOffset]
      cases (state.file ino).content index <;> rfl
  rw [isRead]

/-- Reads that return the array need complete blocks. -/
theorem complete_of_readsAs {reader : Nat} (reads : ReadsAs cfg reader ino state bytes) {index : Nat}
    (below : (index + 1) * cfg.blockSize ≤ bytes.length) :
    ((state.file ino).byte cfg.blockSize ((index + 1) * cfg.blockSize - 1)).isSome := by
  have positive := cfg.blockSize_pos
  have next : (index + 1) * cfg.blockSize = index * cfg.blockSize + cfg.blockSize := by
    rw [Nat.add_mul, Nat.one_mul]
  have isRead := reads (index * cfg.blockSize) cfg.blockSize
  rw [read_one_block inOrder present injective] at isRead
  have isLength := congrArg List.length (Except.ok.inj isRead)
  rw [List.length_take, List.length_drop, Nat.min_eq_left (by omega)] at isLength
  have isBlock : ((index + 1) * cfg.blockSize - 1) / cfg.blockSize = index := by
    rw [Nat.div_eq_iff positive]
    omega
  have isOffset : ((index + 1) * cfg.blockSize - 1) % cfg.blockSize = cfg.blockSize - 1 := by
    have whole := Nat.div_add_mod ((index + 1) * cfg.blockSize - 1) cfg.blockSize
    rw [isBlock, Nat.mul_comm] at whole
    omega
  rw [FileMap.byte, isBlock, isOffset]
  cases content : (state.file ino).content index with
  | none =>
      rw [content, Option.getD_none, List.length_nil] at isLength
      omega
  | some data =>
      rw [content, Option.getD_some] at isLength
      rw [Option.bind_some, List.getElem?_eq_getElem (by omega)]
      rfl

end Reads

/-- After writes to a new file, each in a call of its own, the file is as long as
the array they make up, and all reads return the array's bytes exactly if each
block below the end of the file has its last byte written. -/
theorem reads_as_reference_iff (cfg : TiFsConfig) (client reader : Nat) (ino : StorageIno)
    (before : IdleState) (inOrder : before.InOrder cfg ino)
    (isNew : before.file ino = FileMap.empty) (writes : List WriteTaskData)
    (nonempty : ∀ job ∈ writes, 0 < job.data.length)
    (injective : Set.InjOn cfg.calculateHash (before.blocks ∪
      FileMap.empty.writtenBlocks cfg.blockSize (writes.map fun job => [job]))) :
    (∃ after, WritesInTurn cfg client ino (writes.map fun job => [job]) before after) ∧
      ∀ after, WritesInTurn cfg client ino (writes.map fun job => [job]) before after →
        (after.file ino).size = (reference writes).length ∧
        (ReadsAs cfg reader ino after (reference writes) ↔ BlocksReached cfg.blockSize writes) := by
  have positive := cfg.blockSize_pos
  have alone : ∀ batch ∈ writes.map fun job => [job], ∀ job ∈ batch, 0 < job.data.length := by
    simpa using nonempty
  obtain ⟨comesToEnd, spec⟩ := writesInTurn_spec client _ injective inOrder
    (fun data listed => Or.inl listed) alone (by rw [isNew]; exact fun data listed => Or.inr listed)
  refine ⟨comesToEnd, ?_⟩
  intro after run
  obtain ⟨afterInOrder, within, isFile⟩ := spec after run
  rw [isNew, writeBatches_singletons] at isFile
  have mirrors := mirrors_reference positive nonempty
  refine ⟨by rw [isFile]; exact mirrors.size, ?_⟩
  constructor
  · intro reads index job member reaches
    have below : (index + 1) * cfg.blockSize ≤ (reference writes).length :=
      (le_length_reference (Nat.mul_pos (Nat.succ_pos index) positive)).mpr ⟨job, member, reaches⟩
    have complete := complete_of_readsAs afterInOrder within injective reads below
    rw [isFile] at complete
    exact (lastByte_isSome_iff positive nonempty index).mp complete
  · intro reached
    apply readsAs_of_bytes afterInOrder within injective
    rw [isFile]
    apply mirrors.byte_eq positive
    intro index below
    obtain ⟨job, member, reaches⟩ :=
      (le_length_reference (Nat.mul_pos (Nat.succ_pos index) positive)).mp below
    exact (lastByte_isSome_iff positive nonempty index).mpr (reached index job member reaches)

/-- A write of a block and a half. -/
theorem reads_as_reference_three_bytes :
    ∃ after, WritesInTurn (paddingConfig 2 (by decide)) 0 10 [[⟨[7, 8, 9], 0⟩]] (newState 10) after ∧
      ReadsAs (paddingConfig 2 (by decide)) 0 10 after [7, 8, 9] := by
  obtain ⟨⟨after, run⟩, spec⟩ := reads_as_reference_iff (paddingConfig 2 (by decide)) 0 0 10
    (newState 10) (newState_inOrder _ 10) (newState_file 10) [⟨[7, 8, 9], 0⟩] (by decide)
    (by
      rw [← newState_file 10]
      exact (padding_injOn (by decide)).mono (Set.union_subset (newState_blocks_short 2 10)
        (newState_written_short (by decide) 10 _ (by decide))))
  refine ⟨after, run, (spec after run).2.mpr ?_⟩
  intro index job member reaches
  rw [List.mem_singleton.mp member] at reaches
  have isFirst : index = 0 := by
    simp only [paddingConfig, List.length_cons, List.length_nil] at reaches
    omega
  subst isFirst
  exact ⟨_, List.mem_singleton_self _, by decide⟩

/-- A byte behind an empty block is read in the place of the block. -/
theorem read_skips_gap :
    ¬ ∀ (cfg : TiFsConfig) (client reader : Nat) (ino : StorageIno) (before : IdleState),
      before.InOrder cfg ino → before.file ino = FileMap.empty →
      ∀ writes : List WriteTaskData, (∀ job ∈ writes, 0 < job.data.length) →
      Set.InjOn cfg.calculateHash (before.blocks ∪
        FileMap.empty.writtenBlocks cfg.blockSize (writes.map fun job => [job])) →
      ∀ after, WritesInTurn cfg client ino (writes.map fun job => [job]) before after →
        ReadsAs cfg reader ino after (reference writes) := by
  intro claim
  have inOrder := newState_inOrder (paddingConfig 2 (by decide)) 10
  have injective : Set.InjOn (paddingConfig 2 (by decide)).calculateHash ((newState 10).blocks ∪
      FileMap.empty.writtenBlocks 2 ([⟨[7], 2⟩].map fun job => [job])) := by
    rw [← newState_file 10]
    exact (padding_injOn (by decide)).mono (Set.union_subset (newState_blocks_short 2 10)
      (newState_written_short (by decide) 10 _ (by decide)))
  obtain ⟨⟨after, run⟩, spec⟩ := writesInTurn_spec 0 [[⟨[7], 2⟩]] injective inOrder
    (fun data listed => Or.inl listed) (by decide)
    (by rw [newState_file]; exact fun data listed => Or.inr listed)
  obtain ⟨afterInOrder, within, isFile⟩ := spec after run
  have isRead := claim (paddingConfig 2 (by decide)) 0 0 10 (newState 10) inOrder (newState_file 10)
    [⟨[7], 2⟩] (by decide) injective after run (0 * 2) 2
  have oneBlock := read_one_block afterInOrder within injective 0 0
  have noBlock : (after.file 10).content 0 = none := by
    rw [isFile, newState_file]
    decide +kernel
  rw [noBlock] at oneBlock
  exact absurd (Except.ok.inj (oneBlock.symm.trans isRead)) (by decide +kernel)

end TiFs
