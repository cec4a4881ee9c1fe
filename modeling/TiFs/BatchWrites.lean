import TiFs.CallProgress
import TiFs.FileBytes

/-! One call of `hb_write_data` with several jobs against one call for each job.
Every part of a batch starts from what its block contained before the call, so
the two agree only where the part that is kept hides the others. -/

namespace TiFs

open Overlay KeyValue

structure Extent where
  start : Nat
  length : Nat
  deriving DecidableEq, Repr

def WriteTaskData.extent (job : WriteTaskData) : Extent := ⟨job.start, job.data.length⟩

namespace Extent

def Writes (extent : Extent) (pos : Nat) : Prop :=
  extent.start ≤ pos ∧ pos < extent.start + extent.length

instance (extent : Extent) (pos : Nat) : Decidable (extent.Writes pos) := by
  unfold Writes
  infer_instance

def Touches (blockSize : Nat) (extent : Extent) (index : Nat) : Prop :=
  ∃ pos, pos / blockSize = index ∧ extent.Writes pos

def filled (extent : Extent) (value : UInt8) : WriteTaskData :=
  ⟨List.replicate extent.length value, extent.start⟩

theorem extent_filled (extent : Extent) (value : UInt8) : (extent.filled value).extent = extent := by
  simp [filled, WriteTaskData.extent]

end Extent

/-- In each block the last job that touches it writes every byte of the block
that a job before it writes. -/
def LastCovers (blockSize : Nat) (extents : List Extent) : Prop :=
  ∀ (front back : List Extent) (last : Extent) (pos : Nat), extents = front ++ last :: back →
    last.Touches blockSize (pos / blockSize) →
    (∀ other ∈ back, ¬ other.Touches blockSize (pos / blockSize)) →
    (∃ other ∈ front, other.Writes pos) → last.Writes pos

section Touches

variable {blockSize : Nat} {job : WriteTaskData} {index : Nat}

theorem partAt_eq_none_iff (positive : 0 < blockSize) :
    partAt blockSize job index = none ↔ ¬ job.extent.Touches blockSize index := by
  constructor
  · rintro none ⟨pos, rfl, writes⟩
    obtain ⟨part, found, _⟩ := partAt_of_writes positive writes
    rw [none] at found
    cases found
  · intro untouched
    cases found : partAt blockSize job index with
    | none => rfl
    | some part =>
        refine absurd ⟨max job.start (index * blockSize), ?_, ?_⟩ untouched
        · have inside := (partAt_eq_some_iff.mp found).1
          rw [Nat.div_eq_iff positive]
          constructor <;> omega
        · have inside := (partAt_eq_some_iff.mp found).1
          simp only [Extent.Writes, WriteTaskData.extent]
          omega

theorem writes_iff_of_partAt {part : Part} (found : partAt blockSize job index = some part) (k : Nat)
    (inBlock : k < blockSize) :
    job.extent.Writes (index * blockSize + k) ↔
      part.position ≤ k ∧ k < part.position + part.data.length := by
  have length := partAt_length found
  obtain ⟨inside, rfl⟩ := partAt_eq_some_iff.mp found
  simp only [Extent.Writes, WriteTaskData.extent] at length ⊢
  rw [length]
  omega

end Touches

section Covers

variable {blockSize : Nat} {front back : List WriteTaskData} {last : WriteTaskData} {index : Nat}
  {part : Part}

theorem getLast?_filter_flatMap {A B : Type} {groups front back : List A} {last : A} {f : A → List B}
    {p : B → Bool} (value : B) (split : groups = front ++ last :: back)
    (behind : ∀ other ∈ back, ∀ b ∈ f other, p b = false) (found : value ∈ f last)
    (holds : p value = true) (unique : ∀ b ∈ f last, p b = true → b = value) :
    ((groups.flatMap f).filter p).getLast? = some value := by
  have none : (back.flatMap f).filter p = [] := by
    rw [List.filter_eq_nil_iff]
    intro b listed
    obtain ⟨other, member, inOther⟩ := List.mem_flatMap.mp listed
    simp [behind other member b inOther]
  have some : ((f last).filter p).getLast? = some value := by
    have nonempty : (f last).filter p ≠ [] :=
      List.ne_nil_of_mem (List.mem_filter.mpr ⟨found, holds⟩)
    have isLast := List.mem_filter.mp (List.getLast_mem nonempty)
    rw [List.getLast?_eq_some_getLast nonempty, unique _ isLast.1 isLast.2]
  rw [split, List.flatMap_append, List.flatMap_cons, List.filter_append, List.filter_append, none,
    List.append_nil, List.getLast?_append, some, Option.some_or]

structure Hides (blockSize : Nat) (front back : List WriteTaskData) (last : WriteTaskData) (index : Nat)
    (part : Part) : Prop where
  found : partAt blockSize last index = some part
  behind : ∀ other ∈ back, partAt blockSize other index = none
  inside : ∀ other ∈ front, ∀ hidden, partAt blockSize other index = some hidden →
    part.position ≤ hidden.position ∧
      hidden.position + hidden.data.length ≤ part.position + part.data.length

theorem Hides.lastPart_eq (positive : 0 < blockSize)
    (nonempty : ∀ job ∈ front ++ last :: back, 0 < job.data.length)
    (hides : Hides blockSize front back last index part) :
    lastPart blockSize (front ++ last :: back) index = some part := by
  have lastNonempty := nonempty last (by simp)
  have isIndex := partAt_index hides.found
  have bound := partAt_bound hides.found
  have isPart : ∀ other, partAt blockSize last other.index = some other →
      decide (other.index = index) = true → other = part := by
    intro other isOther same
    rw [of_decide_eq_true same, hides.found] at isOther
    exact (Option.some.inj isOther).symm
  have notBehind : ∀ job ∈ back, ∀ other : Part, partAt blockSize job other.index = some other →
      decide (other.index = index) = false := by
    intro job member other isOther
    rw [decide_eq_false_iff_not]
    intro same
    rw [same, hides.behind job member] at isOther
    cases isOther
  have backNonempty : ∀ job ∈ back, 0 < job.data.length :=
    fun job member => nonempty job (by simp [member])
  rw [lastPart, writeParts, List.filter_append, List.getLast?_append]
  by_cases full : part.data.length = blockSize
  · -- A full block is published after all irregular ones.
    rw [getLast?_filter_flatMap part rfl, Option.some_or]
    · intro job member other listed
      exact notBehind job member other
        ((mem_midParts_iff positive (backNonempty job member)).mp listed).1
    · exact (mem_midParts_iff positive lastNonempty).mpr ⟨by rw [isIndex]; exact hides.found, full⟩
    · exact decide_eq_true isIndex
    · intro other listed same
      exact isPart other ((mem_midParts_iff positive lastNonempty).mp listed).1 same
  · -- No job writes the block in full, as the last one would have to.
    have noMid : ((front ++ last :: back).flatMap fun job =>
        (BlockSplitterWrite.new blockSize job.start job.data).midParts).filter
          (fun other => decide (other.index = index)) = [] := by
      rw [List.filter_eq_nil_iff]
      intro other listed same
      obtain ⟨job, member, inMid⟩ := List.mem_flatMap.mp listed
      obtain ⟨isOther, otherFull⟩ := (mem_midParts_iff positive (nonempty job member)).mp inMid
      rw [of_decide_eq_true same] at isOther
      rcases List.mem_append.mp member with inFront | inRest
      · have inside := hides.inside job inFront other isOther
        have otherBound := partAt_bound isOther
        omega
      · rcases List.mem_cons.mp inRest with rfl | inBack
        · rw [hides.found] at isOther
          rw [Option.some.inj isOther] at full
          exact full otherFull
        · rw [hides.behind job inBack] at isOther
          cases isOther
    rw [noMid, List.getLast?_nil, Option.none_or, getLast?_filter_flatMap part rfl]
    · intro job member other listed
      exact notBehind job member other
        ((mem_irregularParts_iff positive (backNonempty job member)).mp listed).1
    · refine (mem_irregularParts_iff positive lastNonempty).mpr ⟨by rw [isIndex]; exact hides.found, ?_⟩
      omega
    · exact decide_eq_true isIndex
    · intro other listed same
      exact isPart other ((mem_irregularParts_iff positive lastNonempty).mp listed).1 same

/-- What the jobs before the last one have written does not matter. -/
theorem Hides.patched_eq (positive : 0 < blockSize)
    (nonempty : ∀ job ∈ front, 0 < job.data.length)
    (hides : Hides blockSize front back last index part) (file : FileMap) :
    (file.writeSequence blockSize front).patched part = file.patched part := by
  have isIndex := partAt_index hides.found
  have inside := hides.inside
  clear hides
  induction front generalizing file with
  | nil => rfl
  | cons job rest ih =>
      rw [FileMap.writeSequence, List.foldl_cons]
      refine (ih (fun other member => nonempty other (List.mem_cons_of_mem _ member)) _
        fun other member => inside other (List.mem_cons_of_mem _ member)).trans ?_
      have single := lastPart_singleton positive (nonempty job (by simp)) index
      cases found : partAt blockSize job index with
      | none =>
          rw [found] at single
          rw [FileMap.patched, isIndex, content_writeBatch_of_none single, FileMap.patched, isIndex]
      | some hidden =>
          rw [found] at single
          obtain ⟨lower, upper⟩ := inside job (by simp) hidden found
          rw [FileMap.patched, isIndex, content_writeBatch_of_some single, Option.getD_some,
            FileMap.patched, FileMap.patched, partAt_index found, isIndex]
          exact overlay_overlay_of_covers 0 _ _ _ _ _ lower upper

theorem writeSequence_append (file : FileMap) (first second : List WriteTaskData) :
    file.writeSequence blockSize (first ++ second) =
      (file.writeSequence blockSize first).writeSequence blockSize second := by
  simp only [FileMap.writeSequence, List.foldl_append]

theorem content_writeSequence_of_none (positive : 0 < blockSize) {jobs : List WriteTaskData}
    (nonempty : ∀ job ∈ jobs, 0 < job.data.length)
    (untouched : ∀ job ∈ jobs, partAt blockSize job index = none) (file : FileMap) :
    (file.writeSequence blockSize jobs).content index = file.content index := by
  induction jobs generalizing file with
  | nil => rfl
  | cons job rest ih =>
      have single := lastPart_singleton positive (nonempty job (by simp)) index
      rw [untouched job (by simp)] at single
      rw [FileMap.writeSequence, List.foldl_cons]
      refine (ih (fun other member => nonempty other (List.mem_cons_of_mem _ member))
        (fun other member => untouched other (List.mem_cons_of_mem _ member)) _).trans ?_
      exact content_writeBatch_of_none single

theorem Hides.content_eq (positive : 0 < blockSize)
    (nonempty : ∀ job ∈ front ++ last :: back, 0 < job.data.length)
    (hides : Hides blockSize front back last index part) (file : FileMap) :
    (file.writeSequence blockSize (front ++ last :: back)).content index =
      (file.writeBatch blockSize (front ++ last :: back)).content index := by
  have single := lastPart_singleton positive (nonempty last (by simp)) index
  rw [hides.found] at single
  rw [content_writeBatch_of_some (hides.lastPart_eq positive nonempty), List.append_cons,
    writeSequence_append, content_writeSequence_of_none positive
      (fun job member => nonempty job (by simp [member])) hides.behind,
    writeSequence_append]
  rw [FileMap.writeSequence, List.foldl_cons, List.foldl_nil, content_writeBatch_of_some single,
    hides.patched_eq positive fun job member => nonempty job (by simp [member])]

theorem size_writeSequence_le (positive : 0 < blockSize) {jobs : List WriteTaskData}
    (nonempty : ∀ job ∈ jobs, 0 < job.data.length) (file : FileMap) (bound : Nat) :
    (file.writeSequence blockSize jobs).size ≤ bound ↔ file.size ≤ bound ∧
      ∀ job ∈ jobs, ∀ index part, partAt blockSize job index = some part →
        part.stop blockSize ≤ bound := by
  induction jobs generalizing file with
  | nil => simp [FileMap.writeSequence]
  | cons job rest ih =>
      have single := lastPart_singleton positive (nonempty job (by simp))
      rw [FileMap.writeSequence, List.foldl_cons]
      refine (ih (fun other member => nonempty other (List.mem_cons_of_mem _ member)) _).trans ?_
      rw [size_writeBatch_le, and_assoc, List.forall_mem_cons]
      simp only [single]

end Covers

theorem exists_last {A : Type} (holds : A → Prop) (values : List A) :
    (∀ value ∈ values, ¬ holds value) ∨
      ∃ front last back, values = front ++ last :: back ∧ holds last ∧ ∀ other ∈ back, ¬ holds other := by
  induction values using List.reverseRecOn with
  | nil => exact Or.inl fun value member => absurd member List.not_mem_nil
  | append_singleton front last ih =>
      by_cases here : holds last
      · exact Or.inr ⟨front, last, [], rfl, here, fun other member => absurd member List.not_mem_nil⟩
      · rcases ih with none | ⟨before, found, behind, rfl, holdsFound, others⟩
        · left
          intro value member
          rcases List.mem_append.mp member with inFront | isLast
          · exact none value inFront
          · rw [List.mem_singleton.mp isLast]
            exact here
        · right
          refine ⟨before, found, behind ++ [last], by simp, holdsFound, ?_⟩
          intro other member
          rcases List.mem_append.mp member with inBehind | isLast
          · exact others other inBehind
          · rw [List.mem_singleton.mp isLast]
            exact here

theorem LastCovers.hides {blockSize : Nat} (positive : 0 < blockSize)
    {front back : List WriteTaskData} {last : WriteTaskData} {index : Nat} {part : Part}
    (covers : LastCovers blockSize ((front ++ last :: back).map WriteTaskData.extent))
    (found : partAt blockSize last index = some part)
    (behind : ∀ other ∈ back, partAt blockSize other index = none) :
    Hides blockSize front back last index part := by
  refine ⟨found, behind, ?_⟩
  intro other member hidden isHidden
  have bound := partAt_bound isHidden
  have touched : last.extent.Touches blockSize index := by
    by_contra untouched
    rw [← partAt_eq_none_iff positive, found] at untouched
    cases untouched
  -- Every byte that the hidden part writes is one that the last job writes.
  have covered : ∀ k, hidden.position ≤ k → k < hidden.position + hidden.data.length →
      part.position ≤ k ∧ k < part.position + part.data.length := by
    intro k lower upper
    have inBlock : k < blockSize := by omega
    have isIndex : (index * blockSize + k) / blockSize = index := by
      rw [Nat.div_eq_iff positive]
      constructor <;> omega
    rw [← writes_iff_of_partAt found k inBlock]
    refine covers (front.map WriteTaskData.extent) (back.map WriteTaskData.extent) last.extent _
      (by simp) ?_ ?_ ?_
    · rw [isIndex]
      exact touched
    · rw [isIndex]
      intro extent listed
      obtain ⟨job, inBack, rfl⟩ := List.mem_map.mp listed
      exact (partAt_eq_none_iff positive).mp (behind job inBack)
    · exact ⟨other.extent, List.mem_map_of_mem member,
        (writes_iff_of_partAt isHidden k inBlock).mpr ⟨lower, upper⟩⟩
  have first := covered hidden.position le_rfl (by omega)
  have final := covered (hidden.position + hidden.data.length - 1) (by omega) (by omega)
  omega

/-- A batch whose last jobs cover the others is the sequence of its jobs. -/
theorem writeBatch_eq_writeSequence {blockSize : Nat} (positive : 0 < blockSize)
    {jobs : List WriteTaskData} (nonempty : ∀ job ∈ jobs, 0 < job.data.length)
    (covers : LastCovers blockSize (jobs.map WriteTaskData.extent)) (file : FileMap) :
    file.writeBatch blockSize jobs = file.writeSequence blockSize jobs := by
  have last : ∀ index, (∀ job ∈ jobs, partAt blockSize job index = none) ∨
      ∃ front last back part, jobs = front ++ last :: back ∧
        Hides blockSize front back last index part := by
    intro index
    rcases exists_last (fun job => partAt blockSize job index ≠ none) jobs with
      none | ⟨front, last, back, rfl, touched, behind⟩
    · exact Or.inl fun job member => not_not.mp (none job member)
    · obtain ⟨part, found⟩ := Option.ne_none_iff_exists'.mp touched
      exact Or.inr ⟨front, last, back, part, rfl, covers.hides positive found
        fun other member => not_not.mp (behind other member)⟩
  apply FileMap.ext
  · funext index
    rcases last index with none | ⟨front, last, back, part, rfl, hides⟩
    · rw [content_writeBatch_of_none ((lastPart_eq_none positive nonempty index).mpr none),
        content_writeSequence_of_none positive nonempty none]
    · exact (hides.content_eq positive nonempty file).symm
  · have same : ∀ bound, (file.writeBatch blockSize jobs).size ≤ bound ↔
        (file.writeSequence blockSize jobs).size ≤ bound := by
      intro bound
      rw [size_writeBatch_le, size_writeSequence_le positive nonempty]
      refine and_congr_right fun _ => ?_
      constructor
      · intro batch job member index part found
        rcases last index with none | ⟨front, last, back, cover, rfl, hides⟩
        · rw [none job member] at found
          cases found
        · have below := batch index cover (hides.lastPart_eq positive nonempty)
          have isCover := partAt_index hides.found
          have isPart := partAt_index found
          simp only [Part.stop, isCover, isPart] at below ⊢
          rcases List.mem_append.mp member with inFront | inRest
          · have inside := hides.inside job inFront part found
            omega
          · rcases List.mem_cons.mp inRest with rfl | inBack
            · rw [hides.found] at found
              rw [← Option.some.inj found]
              exact below
            · rw [hides.behind job inBack] at found
              cases found
      · intro sequence index part found
        obtain ⟨_, job, member, isPart⟩ := lastPart_eq_some positive nonempty found
        exact sequence job member index part isPart
    exact Nat.le_antisymm ((same _).mpr le_rfl) ((same _).mp le_rfl)

section Differs

variable {blockSize : Nat}

theorem patched_filled (positive : 0 < blockSize) {extent : Extent} {value : UInt8} {index : Nat}
    {part : Part} (found : partAt blockSize (extent.filled value) index = some part) (pos : Nat)
    (inBlock : pos / blockSize = index) :
    extent.Writes pos ∧ (FileMap.empty.patched part)[pos % blockSize]? = some value ∨
      ¬ extent.Writes pos ∧ ((FileMap.empty.patched part)[pos % blockSize]? = some 0 ∨
        (FileMap.empty.patched part)[pos % blockSize]? = none) := by
  have same : (extent.filled value).Writes pos ↔ extent.Writes pos := by
    simp [WriteTaskData.Writes, Extent.Writes, Extent.filled]
  by_cases writes : extent.Writes pos
  · left
    refine ⟨writes, ?_⟩
    obtain ⟨other, isOther, lower, upper, isByte⟩ := partAt_of_writes positive (same.mpr writes)
    rw [inBlock, found] at isOther
    obtain rfl := Option.some.inj isOther
    rw [FileMap.patched, getElem?_overlay_of_inside 0 _ _ _ _ lower upper, isByte]
    obtain ⟨start, stop⟩ := writes
    simp only [Extent.filled]
    rw [List.getElem?_replicate, if_pos (by omega)]
  · right
    refine ⟨writes, ?_⟩
    rw [← inBlock] at found
    have outside := partAt_of_not_writes positive (fun isWritten => writes (same.mp isWritten)) found
    rw [FileMap.patched, getElem?_overlay_of_outside 0 _ _ _ _ (outside.imp_left And.left)]
    by_cases filled : ((FileMap.empty.content part.index).getD []).length ≤ pos % blockSize ∧
        pos % blockSize < part.position
    · rw [if_pos filled]
      exact Or.inl rfl
    · rw [if_neg filled]
      exact Or.inr rfl

def revealing (before : List Extent) (lost : Extent) (between : List Extent) (last : Extent)
    (back : List Extent) : List WriteTaskData :=
  before.map (Extent.filled · 0) ++ lost.filled 1 :: (between.map (Extent.filled · 0) ++
    last.filled 2 :: back.map (Extent.filled · 0))

variable {before between back : List Extent} {lost last : Extent} {pos : Nat}

theorem mem_revealing {job : WriteTaskData}
    (member : job ∈ revealing before lost between last back) :
    (∃ extent ∈ before ++ lost :: (between ++ last :: back), ∃ value, value ≠ 2 ∧
      job = extent.filled value) ∨ job = last.filled 2 := by
  simp only [revealing, List.mem_append, List.mem_map, List.mem_cons] at member
  rcases member with ⟨extent, listed, rfl⟩ | rfl | ⟨extent, listed, rfl⟩ | rfl | ⟨extent, listed, rfl⟩
  · exact Or.inl ⟨extent, by simp [listed], 0, by decide, rfl⟩
  · exact Or.inl ⟨lost, by simp, 1, by decide, rfl⟩
  · exact Or.inl ⟨extent, by simp [listed], 0, by decide, rfl⟩
  · exact Or.inr rfl
  · exact Or.inl ⟨extent, by simp [listed], 0, by decide, rfl⟩

theorem revealing_nonempty
    (nonempty : ∀ extent ∈ before ++ lost :: (between ++ last :: back), 0 < extent.length) :
    ∀ job ∈ revealing before lost between last back, 0 < job.data.length := by
  intro job member
  rcases mem_revealing member with ⟨extent, listed, value, _, rfl⟩ | rfl
  · simpa [Extent.filled] using nonempty extent listed
  · simpa [Extent.filled] using nonempty last (by simp)

theorem extents_revealing : (revealing before lost between last back).map WriteTaskData.extent =
    before ++ lost :: (between ++ last :: back) := by
  have kept : ∀ extents : List Extent,
      extents.map (WriteTaskData.extent ∘ (Extent.filled · 0)) = extents := by
    intro extents
    induction extents with
    | nil => rfl
    | cons head tail ih => rw [List.map_cons, ih, Function.comp_apply, Extent.extent_filled]
  simp only [revealing, List.map_append, List.map_cons, List.map_map, kept, Extent.extent_filled]

theorem revealing_differs (positive : 0 < blockSize)
    (nonempty : ∀ extent ∈ before ++ lost :: (between ++ last :: back), 0 < extent.length)
    (touched : last.Touches blockSize (pos / blockSize))
    (behind : ∀ other ∈ back, ¬ other.Touches blockSize (pos / blockSize))
    (writes : lost.Writes pos) (unwritten : ∀ other ∈ between, ¬ other.Writes pos)
    (missed : ¬ last.Writes pos) :
    (FileMap.empty.writeBatch blockSize (revealing before lost between last back)).content ≠
      (FileMap.empty.writeSequence blockSize (revealing before lost between last back)).content := by
  obtain ⟨other, sameBlock, isWritten⟩ := touched
  have jobsNonempty := revealing_nonempty nonempty
  have asExtent : ∀ (extent : Extent) (value : UInt8) (pos : Nat),
      (extent.filled value).Writes pos ↔ extent.Writes pos := by
    simp [WriteTaskData.Writes, Extent.Writes, Extent.filled]
  have notBehind : ∀ extent ∈ back, ∀ place, place / blockSize = pos / blockSize →
      ¬ extent.Writes place :=
    fun extent listed place inBlock isWritten => behind extent listed ⟨place, inBlock, isWritten⟩
  -- The sequence keeps the byte that the last job misses, and those of the last job.
  have sequenceLost : (FileMap.empty.writeSequence blockSize
      (revealing before lost between last back)).byte blockSize pos = some 1 := by
    rw [revealing, byte_writeSequence positive jobsNonempty ((asExtent lost 1 pos).mpr writes)]
    · obtain ⟨lower, upper⟩ := writes
      simp only [Extent.filled]
      rw [List.getElem?_replicate, if_pos (by omega)]
    · intro job member
      rcases List.mem_append.mp member with inBetween | inRest
      · obtain ⟨extent, listed, rfl⟩ := List.mem_map.mp inBetween
        rw [asExtent]
        exact unwritten extent listed
      · rcases List.mem_cons.mp inRest with rfl | inBack
        · rw [asExtent]
          exact missed
        · obtain ⟨extent, listed, rfl⟩ := List.mem_map.mp inBack
          rw [asExtent]
          exact notBehind extent listed pos rfl
  have sequenceLast : (FileMap.empty.writeSequence blockSize
      (revealing before lost between last back)).byte blockSize other = some 2 := by
    have split : revealing before lost between last back =
        (before.map (Extent.filled · 0) ++ lost.filled 1 :: between.map (Extent.filled · 0)) ++
          last.filled 2 :: back.map (Extent.filled · 0) := by
      simp [revealing]
    rw [split] at jobsNonempty ⊢
    rw [byte_writeSequence positive jobsNonempty ((asExtent last 2 other).mpr isWritten)]
    · obtain ⟨lower, upper⟩ := isWritten
      simp only [Extent.filled]
      rw [List.getElem?_replicate, if_pos (by omega)]
    · intro job member
      obtain ⟨extent, listed, rfl⟩ := List.mem_map.mp member
      rw [asExtent]
      exact notBehind extent listed other sameBlock
  intro same
  -- The batch has the block from one job alone.
  cases found : lastPart blockSize (revealing before lost between last back) (pos / blockSize) with
  | none =>
      have untouched := (lastPart_eq_none positive jobsNonempty _).mp found (last.filled 2)
        (by simp [revealing])
      rw [partAt_eq_none_iff positive, Extent.extent_filled] at untouched
      exact untouched ⟨other, sameBlock, isWritten⟩
  | some part =>
      have batchByte : ∀ place, place / blockSize = pos / blockSize →
          (FileMap.empty.writeSequence blockSize
            (revealing before lost between last back)).byte blockSize place =
            (FileMap.empty.patched part)[place % blockSize]? := by
        intro place inBlock
        rw [FileMap.byte, ← same, inBlock, content_writeBatch_of_some found]
        rfl
      rw [batchByte pos rfl] at sequenceLost
      rw [batchByte other sameBlock] at sequenceLast
      obtain ⟨_, job, member, isPart⟩ := lastPart_eq_some positive jobsNonempty found
      rcases mem_revealing member with ⟨extent, _, value, notTwo, rfl⟩ | rfl
      · rcases patched_filled positive isPart other sameBlock with ⟨_, isByte⟩ | ⟨_, isByte | isByte⟩
        · rw [isByte] at sequenceLast
          exact notTwo (Option.some.inj sequenceLast)
        · rw [isByte] at sequenceLast
          exact absurd sequenceLast (by decide)
        · rw [isByte] at sequenceLast
          cases sequenceLast
      · rcases patched_filled positive isPart pos rfl with ⟨isLast, _⟩ | ⟨_, isByte | isByte⟩
        · exact missed isLast
        · rw [isByte] at sequenceLost
          exact absurd sequenceLost (by decide)
        · rw [isByte] at sequenceLost
          cases sequenceLost

theorem lastCovers_of_eq (positive : 0 < blockSize) {extents : List Extent}
    (nonempty : ∀ extent ∈ extents, 0 < extent.length)
    (same : ∀ jobs : List WriteTaskData, jobs.map WriteTaskData.extent = extents →
      FileMap.empty.writeBatch blockSize jobs = FileMap.empty.writeSequence blockSize jobs) :
    LastCovers blockSize extents := by
  intro front back last pos split touched behind writer
  by_contra missed
  rcases exists_last (fun extent : Extent => extent.Writes pos) front with
    none | ⟨before, lost, between, rfl, writes, unwritten⟩
  · obtain ⟨other, member, isWritten⟩ := writer
    exact none other member isWritten
  · have assoc : before ++ lost :: between ++ last :: back =
        before ++ lost :: (between ++ last :: back) := by simp
    rw [split, assoc] at nonempty
    have equal := same (revealing before lost between last back)
      (extents_revealing.trans (assoc.symm.trans split.symm))
    exact revealing_differs positive nonempty touched behind writes unwritten missed
      (congrArg FileMap.content equal)

end Differs

/-- For every data of these extents and every file before, the batch comes to its
end, so do the single calls, and both leave the same file behind. -/
def BatchAsSequence (blockSize : Nat) (extents : List Extent) : Prop :=
  ∀ (cfg : TiFsConfig) (client : Nat) (ino : StorageIno) (before : IdleState)
    (jobs : List WriteTaskData),
    cfg.blockSize = blockSize → jobs.map WriteTaskData.extent = extents → before.InOrder cfg ino →
    Set.InjOn cfg.calculateHash (before.blocks ∪
      ((before.file ino).writtenBlocks blockSize [jobs] ∪
        (before.file ino).writtenBlocks blockSize (jobs.map fun job => [job]))) →
    (∃ batch, WriteAlone cfg client ino jobs before batch) ∧
      (∃ sequence, WritesInTurn cfg client ino (jobs.map fun job => [job]) before sequence) ∧
      ∀ batch sequence, WriteAlone cfg client ino jobs before batch →
        WritesInTurn cfg client ino (jobs.map fun job => [job]) before sequence →
        batch.file ino = sequence.file ino

section Calls

variable {cfg : TiFsConfig} {ino : StorageIno} {before : IdleState}
  {jobs : List WriteTaskData}

/-- What a batch and its jobs one by one leave behind. -/
theorem batch_and_sequence_spec (client : Nat) (inOrder : before.InOrder cfg ino)
    (nonempty : ∀ job ∈ jobs, 0 < job.data.length)
    (injective : Set.InjOn cfg.calculateHash (before.blocks ∪
      ((before.file ino).writtenBlocks cfg.blockSize [jobs] ∪
        (before.file ino).writtenBlocks cfg.blockSize (jobs.map fun job => [job])))) :
    ((∃ batch, WriteAlone cfg client ino jobs before batch) ∧
      ∀ batch, WriteAlone cfg client ino jobs before batch →
        batch.file ino = (before.file ino).writeBatch cfg.blockSize jobs) ∧
    (∃ sequence, WritesInTurn cfg client ino (jobs.map fun job => [job]) before sequence) ∧
      ∀ sequence, WritesInTurn cfg client ino (jobs.map fun job => [job]) before sequence →
        sequence.file ino = (before.file ino).writeSequence cfg.blockSize jobs := by
  obtain ⟨existsBatch, isBatch⟩ := writeAlone_spec client injective inOrder
    (fun data listed => Or.inl listed) nonempty
    (fun part listed => Or.inr (Or.inl (Or.inl ⟨part, listed, rfl⟩)))
  have alone : ∀ batch ∈ jobs.map fun job => [job], ∀ job ∈ batch, 0 < job.data.length := by
    intro batch listed job member
    obtain ⟨other, inJobs, rfl⟩ := List.mem_map.mp listed
    rw [List.mem_singleton.mp member]
    exact nonempty other inJobs
  obtain ⟨existsSequence, isSequence⟩ := writesInTurn_spec client _ injective inOrder
    (fun data listed => Or.inl listed) alone (fun data listed => Or.inr (Or.inr listed))
  refine ⟨⟨existsBatch, fun batch run => (isBatch batch run).2.2⟩, existsSequence, ?_⟩
  intro sequence run
  rw [(isSequence sequence run).2.2, writeBatches_singletons]

end Calls

section Sequence

variable {blockSize : Nat} {extents : List Extent} {jobs : List WriteTaskData}

theorem nonempty_of_extents (isExtents : jobs.map WriteTaskData.extent = extents)
    (nonempty : ∀ extent ∈ extents, 0 < extent.length) : ∀ job ∈ jobs, 0 < job.data.length := by
  intro job member
  rw [← isExtents] at nonempty
  exact nonempty job.extent (List.mem_map_of_mem member)

theorem BatchAsSequence.files_eq (holds : BatchAsSequence blockSize extents)
    (positive : 0 < blockSize) (nonempty : ∀ extent ∈ extents, 0 < extent.length)
    (jobs : List WriteTaskData) (isExtents : jobs.map WriteTaskData.extent = extents) :
    FileMap.empty.writeBatch blockSize jobs = FileMap.empty.writeSequence blockSize jobs := by
  have jobsNonempty := nonempty_of_extents isExtents nonempty
  have inOrder := newState_inOrder (paddingConfig blockSize positive) 10
  have injective := (padding_injOn positive).mono (Set.union_subset
    (newState_blocks_short blockSize 10) (Set.union_subset
      (newState_written_short positive 10 [jobs] (by simpa using jobsNonempty))
      (newState_written_short positive 10 (jobs.map fun job => [job]) (by simpa using jobsNonempty))))
  obtain ⟨⟨batch, batchRun⟩, ⟨sequence, sequenceRun⟩, same⟩ :=
    holds (paddingConfig blockSize positive) 0 10 (newState 10) jobs rfl isExtents inOrder injective
  obtain ⟨⟨_, isBatch⟩, _, isSequence⟩ := batch_and_sequence_spec 0 inOrder jobsNonempty
    injective
  rw [← newState_file 10]
  exact (isBatch batch batchRun).symm.trans ((same batch sequence batchRun sequenceRun).trans
    (isSequence sequence sequenceRun))

/-- One call with all jobs leaves the same file behind as one call for each job,
whatever the data and the file before, exactly if in each block the last job that
touches it covers the others. -/
theorem batch_as_sequence_iff (blockSize : Nat) (positive : 0 < blockSize) (extents : List Extent)
    (nonempty : ∀ extent ∈ extents, 0 < extent.length) :
    BatchAsSequence blockSize extents ↔ LastCovers blockSize extents := by
  constructor
  · intro holds
    exact lastCovers_of_eq positive nonempty fun jobs isExtents =>
      holds.files_eq positive nonempty jobs isExtents
  · intro covers cfg client ino before jobs isSize isExtents inOrder injective
    subst isSize
    have jobsNonempty := nonempty_of_extents isExtents nonempty
    obtain ⟨⟨existsBatch, isBatch⟩, existsSequence, isSequence⟩ :=
      batch_and_sequence_spec client inOrder jobsNonempty injective
    refine ⟨existsBatch, existsSequence, ?_⟩
    intro batch sequence batchRun sequenceRun
    rw [isBatch batch batchRun, isSequence sequence sequenceRun]
    apply writeBatch_eq_writeSequence positive jobsNonempty
    rw [isExtents]
    exact covers

/-- A later job that writes the whole block of an earlier one. -/
theorem batch_as_sequence_overwritten : BatchAsSequence 2 [⟨0, 1⟩, ⟨0, 2⟩] := by
  apply (batch_as_sequence_iff 2 (by decide) [⟨0, 1⟩, ⟨0, 2⟩] (by decide)).mpr
  intro front back last pos split touched behind writer
  match front, split with
  | [], _ =>
      obtain ⟨other, none, _⟩ := writer
      cases none
  | [first], split =>
      obtain ⟨rfl, rfl, rfl⟩ : (⟨0, 1⟩ : Extent) = first ∧ (⟨0, 2⟩ : Extent) = last ∧ [] = back := by
        simpa using split
      obtain ⟨other, member, isWritten⟩ := writer
      rw [List.mem_singleton.mp member] at isWritten
      simp only [Extent.Writes] at isWritten ⊢
      omega
  | first :: second :: more, split => simp at split

/-- Two jobs that write one byte each of the same block: the batch keeps the second
only, with a zero in the place of the first. -/
theorem batch_loses_first_job :
    ¬ ∀ (blockSize : Nat) (extents : List Extent), 0 < blockSize →
      (∀ extent ∈ extents, 0 < extent.length) → BatchAsSequence blockSize extents := by
  intro claim
  have same := (claim 2 [⟨0, 1⟩, ⟨1, 1⟩] (by decide) (by decide)).files_eq (by decide) (by decide)
    [⟨[7], 0⟩, ⟨[8], 1⟩] rfl
  have batch : (FileMap.empty.writeBatch 2 [⟨[7], 0⟩, ⟨[8], 1⟩]).content 0 = some [0, 8] := by
    decide +kernel
  have sequence : (FileMap.empty.writeSequence 2 [⟨[7], 0⟩, ⟨[8], 1⟩]).content 0 = some [7, 8] := by
    decide +kernel
  rw [same, sequence] at batch
  exact absurd batch (by decide)

end Sequence

end TiFs
