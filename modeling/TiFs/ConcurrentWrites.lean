import TiFs.BlockRead

/-! Concurrent calls of `hb_write_data` on one inode. A write to a part of a block
is a read of the block followed, several transactions later, by its replacement,
so calls keep each other's bytes only if they share no block. -/

namespace TiFs

open KeyValue

def WriteTaskData.Disjoint (first second : WriteTaskData) : Prop :=
  ∀ pos, ¬ (first.Writes pos ∧ second.Writes pos)

def WriteTaskData.ShareNoBlock (blockSize : Nat) (first second : WriteTaskData) : Prop :=
  ∀ pos other, first.Writes pos → second.Writes other → pos / blockSize ≠ other / blockSize

def startWriters (cfg : TiFsConfig) (ino : StorageIno) (before : IdleState)
    (writers : List (Nat × WriteTaskData)) : WriteSystem cfg :=
  WriteSystem.begin cfg before.store before.caches
    (writers.map fun writer => WriteCall.start cfg writer.1 ino [writer.2])

def writersBlocks (cfg : TiFsConfig) (ino : StorageIno) (before : IdleState)
    (writers : List (Nat × WriteTaskData)) : Set Bytes :=
  before.blocks ∪ {data | ∃ writer ∈ writers,
    data ∈ (before.file ino).writtenBlocks cfg.blockSize [[writer.2]]}

def ReadsJob (cfg : TiFsConfig) (reader : Nat) (ino : StorageIno) (state : WriteSystem cfg)
    (job : WriteTaskData) : Prop :=
  (hbReadData cfg ino job.start (some job.data.length) (state.caches reader) state.blocks.store).1 =
    .ok job.data

section Writers

variable {blockSize : Nat} {first second : WriteTaskData}

theorem WriteTaskData.ShareNoBlock.partAt_none (positive : 0 < blockSize)
    (apart : first.ShareNoBlock blockSize second) (index : Nat) :
    partAt blockSize first index = none ∨ partAt blockSize second index = none := by
  cases inFirst : partAt blockSize first index with
  | none => exact Or.inl rfl
  | some firstPart =>
      cases inSecond : partAt blockSize second index with
      | none => exact Or.inr rfl
      | some secondPart =>
          -- Either part has a first byte, and both lie in the block.
          have one := (partAt_eq_some_iff.mp inFirst).1
          have two := (partAt_eq_some_iff.mp inSecond).1
          refine absurd ?_ (apart (max first.start (index * blockSize))
            (max second.start (index * blockSize)) ⟨by omega, by omega⟩ ⟨by omega, by omega⟩)
          have firstBlock : max first.start (index * blockSize) / blockSize = index := by
            rw [Nat.div_eq_iff positive]
            omega
          have secondBlock : max second.start (index * blockSize) / blockSize = index := by
            rw [Nat.div_eq_iff positive]
            omega
          rw [firstBlock, secondBlock]

theorem WriteTaskData.ShareNoBlock.not_writes (apart : first.ShareNoBlock blockSize second) {pos : Nat}
    (writes : first.Writes pos) : ¬ second.Writes pos :=
  fun also => apart pos pos writes also rfl

variable {cfg : TiFsConfig} {ino : StorageIno} {before : IdleState}
  {writers : List (Nat × WriteTaskData)}

theorem writers_allowed (nonempty : ∀ writer ∈ writers, 0 < writer.2.data.length)
    (apart : writers.Pairwise fun one other => one.2.ShareNoBlock cfg.blockSize other.2) :
    CallsAllowed cfg ino (writersBlocks cfg ino before writers) (before.file ino)
      (writers.map fun writer => (writer.1, [writer.2])) := by
  constructor
  · intro call member job listed
    obtain ⟨writer, inWriters, rfl⟩ := List.mem_map.mp member
    rw [List.mem_singleton.mp listed]
    exact nonempty writer inWriters
  · rw [List.pairwise_map]
    refine apart.imp_of_mem ?_
    intro one other inOne inOther shareNone index
    rw [lastPart_singleton cfg.blockSize_pos (nonempty one inOne),
      lastPart_singleton cfg.blockSize_pos (nonempty other inOther)]
    exact shareNone.partAt_none cfg.blockSize_pos index
  · intro call member part listed
    obtain ⟨writer, inWriters, rfl⟩ := List.mem_map.mp member
    exact Or.inr ⟨writer, inWriters, Or.inl ⟨part, listed, rfl⟩⟩

/-- Writers that share no block leave all their bytes behind. -/
theorem writers_kept (reader : Nat) (inOrder : before.InOrder cfg ino)
    (nonempty : ∀ writer ∈ writers, 0 < writer.2.data.length)
    (apart : writers.Pairwise fun one other => one.2.ShareNoBlock cfg.blockSize other.2)
    (injective : Set.InjOn cfg.calculateHash (writersBlocks cfg ino before writers))
    {last : WriteSystem cfg}
    (run : Run WriteSystem.Step NoStart (startWriters cfg ino before writers) last)
    (returned : ∀ call ∈ last.calls, call.phase.succeeded) :
    ∀ writer ∈ writers, ReadsJob cfg reader ino last writer.2 := by
  have present : presentBlocks before.store before.caches ⊆ writersBlocks cfg ino before writers :=
    fun data listed => Or.inl listed
  have order := startOrder_begin inOrder.consistent inOrder.sound present
    (writers_allowed nonempty apart)
  rw [List.map_map] at order
  obtain ⟨isFile, consistent, sound, within⟩ := (order.run injective run).settled injective
    fun call member => by
      have isReturned := returned call member
      cases phase : call.phase with
      | returned result => rfl
      | _ => rw [phase] at isReturned; cases isReturned
  have isSequence : (⟨last.blocks.store, last.caches⟩ : IdleState).file ino =
      (before.file ino).writeSequence cfg.blockSize (writers.map Prod.snd) := by
    simp only [IdleState.file, isFile, FileMap.writeSequence, List.foldl_map]
  have lastInOrder : (⟨last.blocks.store, last.caches⟩ : IdleState).InOrder cfg ino :=
    ⟨consistent, sound⟩
  intro writer member
  obtain ⟨front, back, rfl⟩ := List.append_of_mem member
  have behind := (List.pairwise_cons.mp (List.pairwise_append.mp apart).2.1).1
  have bytes : ∀ k < writer.2.data.length,
      ((⟨last.blocks.store, last.caches⟩ : IdleState).file ino).byte cfg.blockSize
        (writer.2.start + k) = writer.2.data[k]? := by
    intro k inside
    have writes : writer.2.Writes (writer.2.start + k) := ⟨by omega, by omega⟩
    rw [isSequence, List.map_append, List.map_cons, byte_writeSequence cfg.blockSize_pos _ writes,
      Nat.add_sub_cancel_left]
    · intro job listed
      obtain ⟨other, inBack, rfl⟩ := List.mem_map.mp listed
      exact (behind other inBack).not_writes writes
    · intro job listed
      rw [← List.map_cons, ← List.map_append] at listed
      obtain ⟨other, inWriters, rfl⟩ := List.mem_map.mp listed
      exact nonempty other inWriters
  obtain ⟨filled, isRead, _⟩ := hbReadData_bytes lastInOrder within injective reader writer.2.start
    le_rfl bytes
  rw [ReadsJob, isRead]

end Writers

/-- In every interleaving of two calls whose jobs share no block, once both have
returned, either range reads as the data of its call. -/
theorem two_writers_kept (cfg : TiFsConfig) (firstClient secondClient reader : Nat) (ino : StorageIno)
    (before : IdleState) (inOrder : before.InOrder cfg ino) (first second : WriteTaskData)
    (firstNonempty : 0 < first.data.length) (secondNonempty : 0 < second.data.length)
    (injective : Set.InjOn cfg.calculateHash
      (writersBlocks cfg ino before [(firstClient, first), (secondClient, second)]))
    (apart : first.ShareNoBlock cfg.blockSize second) (last : WriteSystem cfg)
    (run : Run WriteSystem.Step NoStart
      (startWriters cfg ino before [(firstClient, first), (secondClient, second)]) last)
    (returned : ∀ call ∈ last.calls, call.phase.succeeded) :
    ReadsJob cfg reader ino last first ∧ ReadsJob cfg reader ino last second := by
  have all := writers_kept reader inOrder (by simp [firstNonempty, secondNonempty])
    (by simpa using apart) injective run returned
  exact ⟨all (firstClient, first) (by simp), all (secondClient, second) (by simp)⟩

theorem writersBlocks_short {blockSize : Nat} (positive : 0 < blockSize) (ino : StorageIno)
    (writers : List (Nat × WriteTaskData))
    (nonempty : ∀ writer ∈ writers, 0 < writer.2.data.length) :
    writersBlocks (paddingConfig blockSize positive) ino (newState ino) writers ⊆
      {data | data.length ≤ blockSize} := by
  apply Set.union_subset (newState_blocks_short blockSize ino)
  rintro data ⟨writer, member, written⟩
  exact newState_written_short positive ino [[writer.2]] (by simpa using nonempty writer member) written

def bothReadThenWrite : List WriteEvent :=
  [.proceed 0, .proceed 0, .proceed 0, .proceed 1, .proceed 1, .proceed 1] ++
    List.replicate 8 (.transact 0 ⟨0, 0⟩) ++ List.replicate 8 (.transact 1 ⟨0, 0⟩) ++
    [.proceed 0, .proceed 1]

/-- Two writers in neighbouring blocks. -/
theorem two_writers_kept_neighbours :
    ∃ last : WriteSystem (paddingConfig 2 (by decide)),
      Run WriteSystem.Step NoStart
        (startWriters (paddingConfig 2 (by decide)) 10 (newState 10) [(0, ⟨[7], 0⟩), (1, ⟨[8], 2⟩)]) last ∧
      (∀ call ∈ last.calls, call.phase.succeeded) ∧
      ReadsJob (paddingConfig 2 (by decide)) 2 10 last ⟨[7], 0⟩ ∧
      ReadsJob (paddingConfig 2 (by decide)) 2 10 last ⟨[8], 2⟩ := by
  obtain ⟨last, run, checked⟩ := WriteSystem.exists_run
    (startWriters (paddingConfig 2 (by decide)) 10 (newState 10) [(0, ⟨[7], 0⟩), (1, ⟨[8], 2⟩)])
    bothReadThenWrite (fun last => last.calls.all fun call => call.phase.succeeded) (by decide +kernel)
  have returned := List.all_eq_true.mp checked
  refine ⟨last, run, returned, ?_⟩
  exact two_writers_kept _ 0 1 2 10 (newState 10) (newState_inOrder _ 10) ⟨[7], 0⟩ ⟨[8], 2⟩ (by decide)
    (by decide) ((padding_injOn (by decide)).mono (writersBlocks_short (by decide) 10 _ (by decide)))
    (fun pos other first second => by
      simp only [WriteTaskData.Writes, List.length_singleton, paddingConfig] at first second ⊢
      omega)
    last run returned

/-- Two writers of one byte each in the same block: the one that replaces the
block last has read it before the other wrote. -/
theorem shared_block_loses_update :
    ¬ ∀ (cfg : TiFsConfig) (firstClient secondClient reader : Nat) (ino : StorageIno)
      (before : IdleState), before.InOrder cfg ino → ∀ first second : WriteTaskData,
      0 < first.data.length → 0 < second.data.length →
      Set.InjOn cfg.calculateHash
        (writersBlocks cfg ino before [(firstClient, first), (secondClient, second)]) →
      first.Disjoint second → ∀ last : WriteSystem cfg,
      Run WriteSystem.Step NoStart
        (startWriters cfg ino before [(firstClient, first), (secondClient, second)]) last →
      (∀ call ∈ last.calls, call.phase.succeeded) →
      ReadsJob cfg reader ino last first ∧ ReadsJob cfg reader ino last second := by
  intro claim
  obtain ⟨last, run, checked⟩ := WriteSystem.exists_run
    (startWriters (paddingConfig 2 (by decide)) 10 (newState 10) [(0, ⟨[7], 0⟩), (1, ⟨[8], 1⟩)])
    bothReadThenWrite
    (fun last => last.calls.all (fun call => call.phase.succeeded) &&
      (hbReadData (paddingConfig 2 (by decide)) 10 0 (some 1) (last.caches 2)
        last.blocks.store).1.toOption = some [0])
    (by decide +kernel)
  obtain ⟨returned, isZero⟩ := Bool.and_eq_true_iff.mp checked
  have both := claim _ 0 1 2 10 (newState 10) (newState_inOrder _ 10) ⟨[7], 0⟩ ⟨[8], 1⟩ (by decide)
    (by decide) ((padding_injOn (by decide)).mono (writersBlocks_short (by decide) 10 _ (by decide)))
    (fun pos written => by
      simp only [WriteTaskData.Writes, List.length_singleton] at written
      omega)
    last run (List.all_eq_true.mp returned)
  have isSeven := both.1
  simp only [ReadsJob, List.length_singleton] at isSeven
  rw [isSeven] at isZero
  exact absurd (of_decide_eq_true isZero) (by decide)

end TiFs
