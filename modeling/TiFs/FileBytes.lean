import TiFs.FileMap

namespace TiFs

open Overlay

def FileMap.byte (blockSize : Nat) (file : FileMap) (pos : Nat) : Option UInt8 :=
  (file.content (pos / blockSize)).bind fun data => data[pos % blockSize]?

def WriteTaskData.Writes (job : WriteTaskData) (pos : Nat) : Prop :=
  job.start ≤ pos ∧ pos < job.start + job.data.length

instance (job : WriteTaskData) (pos : Nat) : Decidable (job.Writes pos) := by
  unfold WriteTaskData.Writes
  infer_instance

section Byte

variable {blockSize : Nat} {file : FileMap} {job : WriteTaskData} {pos : Nat}

theorem partAt_of_writes (positive : 0 < blockSize) (writes : job.Writes pos) :
    ∃ part, partAt blockSize job (pos / blockSize) = some part ∧
      part.position ≤ pos % blockSize ∧ pos % blockSize < part.position + part.data.length ∧
      part.data[pos % blockSize - part.position]? = job.data[pos - job.start]? := by
  obtain ⟨lower, upper⟩ := writes
  have whole := Nat.div_add_mod pos blockSize
  have rest := Nat.mod_lt pos positive
  rw [Nat.mul_comm] at whole
  refine ⟨_, partAt_eq_some_iff.mpr ⟨by omega, rfl⟩, ?_, ?_, ?_⟩
  · simp only
    omega
  · simp only [List.length_take, List.length_drop]
    omega
  · simp only
    rw [List.getElem?_take_of_lt (by omega), List.getElem?_drop]
    congr 1
    omega

/-- A part in the block of a position that its job does not write lies before or
behind the position. -/
theorem partAt_of_not_writes (positive : 0 < blockSize) (outside : ¬ job.Writes pos) {part : Part}
    (found : partAt blockSize job (pos / blockSize) = some part) :
    pos % blockSize < part.position ∧ pos < job.start ∧ job.start / blockSize = pos / blockSize ∨
      part.position + part.data.length ≤ pos % blockSize := by
  have whole := Nat.div_add_mod pos blockSize
  have rest := Nat.mod_lt pos positive
  rw [Nat.mul_comm] at whole
  have isPart := partAt_eq_some_iff.mp found
  have length := partAt_length found
  rw [isPart.2] at length ⊢
  simp only at length ⊢
  unfold WriteTaskData.Writes at outside
  by_cases before : pos < job.start
  · left
    refine ⟨by omega, before, ?_⟩
    rw [Nat.div_eq_iff positive]
    have upper := isPart.1
    constructor <;> omega
  · right
    rw [length]
    omega

theorem byte_write_of_writes (positive : 0 < blockSize) (nonempty : 0 < job.data.length)
    (writes : job.Writes pos) :
    (file.writeBatch blockSize [job]).byte blockSize pos = job.data[pos - job.start]? := by
  obtain ⟨part, found, lower, upper, isByte⟩ := partAt_of_writes positive writes
  have last := lastPart_singleton positive nonempty (pos / blockSize)
  rw [found] at last
  rw [FileMap.byte, content_writeBatch_of_some last, Option.bind_some, FileMap.patched,
    getElem?_overlay_of_inside 0 _ _ _ _ lower upper]
  exact isByte

/-- Another byte stays, or it is one before the write that its block did not
reach: that becomes zero. -/
theorem byte_write_of_not_writes (positive : 0 < blockSize) (nonempty : 0 < job.data.length)
    (outside : ¬ job.Writes pos) :
    (file.writeBatch blockSize [job]).byte blockSize pos = file.byte blockSize pos ∨
      file.byte blockSize pos = none ∧ pos < job.start ∧ job.start / blockSize = pos / blockSize ∧
        (file.writeBatch blockSize [job]).byte blockSize pos = some 0 := by
  have last := lastPart_singleton positive nonempty (pos / blockSize)
  cases found : partAt blockSize job (pos / blockSize) with
  | none =>
      rw [found] at last
      left
      rw [FileMap.byte, content_writeBatch_of_none last]
      rfl
  | some part =>
      rw [found] at last
      have sides := partAt_of_not_writes positive outside found
      have old : file.byte blockSize pos = ((file.content (pos / blockSize)).getD [])[pos % blockSize]? := by
        rw [FileMap.byte]
        cases file.content (pos / blockSize) <;> rfl
      have new : (file.writeBatch blockSize [job]).byte blockSize pos =
          if ((file.content (pos / blockSize)).getD []).length ≤ pos % blockSize ∧
            pos % blockSize < part.position then some 0
          else ((file.content (pos / blockSize)).getD [])[pos % blockSize]? := by
        rw [FileMap.byte, content_writeBatch_of_some last, Option.bind_some, FileMap.patched,
          lastPart_index last]
        exact getElem?_overlay_of_outside 0 _ _ _ _ (sides.imp_left And.left)
      by_cases filled : ((file.content (pos / blockSize)).getD []).length ≤ pos % blockSize ∧
          pos % blockSize < part.position
      · right
        rw [if_pos filled] at new
        rcases sides with ⟨_, before, sameBlock⟩ | behind
        · refine ⟨?_, before, sameBlock, new⟩
          rw [old]
          exact List.getElem?_eq_none filled.1
        · omega
      · left
        rw [if_neg filled] at new
        rw [new, old]

theorem byte_writeSequence_of_some (positive : 0 < blockSize) {jobs : List WriteTaskData}
    (nonempty : ∀ job ∈ jobs, 0 < job.data.length) (outside : ∀ job ∈ jobs, ¬ job.Writes pos)
    {value : UInt8} (found : file.byte blockSize pos = some value) :
    (file.writeSequence blockSize jobs).byte blockSize pos = some value := by
  induction jobs generalizing file with
  | nil => exact found
  | cons job rest ih =>
      apply ih (fun other listed => nonempty other (List.mem_cons_of_mem _ listed))
        fun other listed => outside other (List.mem_cons_of_mem _ listed)
      rcases byte_write_of_not_writes positive (nonempty job (by simp)) (outside job (by simp)) with
        same | ⟨none, _⟩
      · rw [same]
        exact found
      · rw [found] at none
        cases none

theorem byte_writeSequence (positive : 0 < blockSize) {front back : List WriteTaskData}
    (nonempty : ∀ other ∈ front ++ job :: back, 0 < other.data.length) (writes : job.Writes pos)
    (outside : ∀ other ∈ back, ¬ other.Writes pos) :
    (file.writeSequence blockSize (front ++ job :: back)).byte blockSize pos =
      job.data[pos - job.start]? := by
  have inside : pos - job.start < job.data.length := by
    obtain ⟨lower, upper⟩ := writes
    omega
  rw [FileMap.writeSequence, List.foldl_append, List.foldl_cons, List.getElem?_eq_getElem inside]
  apply byte_writeSequence_of_some positive
    (fun other listed => nonempty other (by simp [listed])) outside
  rw [byte_write_of_writes positive (nonempty job (by simp)) writes]
  exact List.getElem?_eq_getElem inside

theorem byte_isSome_of_later {later : Nat} (before : pos ≤ later)
    (sameBlock : pos / blockSize = later / blockSize)
    (found : (file.byte blockSize later).isSome) : (file.byte blockSize pos).isSome := by
  have whole := Nat.div_add_mod pos blockSize
  have laterWhole := Nat.div_add_mod later blockSize
  rw [← sameBlock] at laterWhole
  rw [FileMap.byte, ← sameBlock] at found
  rw [FileMap.byte]
  cases content : file.content (pos / blockSize) with
  | none =>
      rw [content] at found
      cases found
  | some data =>
      rw [content, Option.bind_some] at found
      have inside : later % blockSize < data.length := by
        by_contra beyond
        rw [List.getElem?_eq_none (by omega)] at found
        cases found
      rw [Option.bind_some, List.getElem?_eq_getElem (by omega)]
      rfl

theorem size_write (positive : 0 < blockSize) (nonempty : 0 < job.data.length) :
    (file.writeBatch blockSize [job]).size = max file.size (job.start + job.data.length) := by
  have single := lastPart_singleton positive nonempty
  have same : ∀ bound, (file.writeBatch blockSize [job]).size ≤ bound ↔
      max file.size (job.start + job.data.length) ≤ bound := by
    intro bound
    rw [size_writeBatch_le, max_le_iff]
    refine and_congr_right fun _ => ?_
    constructor
    · intro stops
      -- The part with the last byte of the job ends where the job ends.
      have last : job.Writes (job.start + job.data.length - 1) := by
        unfold WriteTaskData.Writes
        omega
      obtain ⟨part, found, lower, upper, _⟩ := partAt_of_writes positive last
      have stop := stops _ part (by rw [single]; exact found)
      have whole := Nat.div_add_mod (job.start + job.data.length - 1) blockSize
      rw [Nat.mul_comm] at whole
      rw [Part.stop, partAt_index found] at stop
      omega
    · intro below index part found
      rw [single] at found
      have length := partAt_length found
      obtain ⟨inside, rfl⟩ := partAt_eq_some_iff.mp found
      simp only [Part.stop] at length ⊢
      omega
  exact Nat.le_antisymm ((same _).mpr le_rfl) ((same _).mp le_rfl)

end Byte

end TiFs
