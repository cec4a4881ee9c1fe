import TiFs.Library.Table
import TiFs.Library.Transaction
import Mathlib.Data.Finset.Card
import Mathlib.Data.UInt

/-! The table of file handles in `TiFsMutable`: which numbers are in use, which were
given back, and which number is handed out next. -/

namespace TiFs

open KeyValue Tables

/-- A collection with entries of this size that has one more entry is refused by the
allocator: its bytes are counted by a word. -/
def entryLimit (entryBytes : Nat) : Nat := 2 ^ 64 / entryBytes

section HandleTable

variable (H : Type)

structure TiFsMutable where
  freedFhs : Finset UInt64
  nextFh : UInt64
  fileHandlers : Table UInt64 H

/-- `open` with the element that the iterator over `freed_fhs` yields first, and the
release of a number that the kernel names. -/
inductive HandleCall where
  | opened (first : Option UInt64) (handler : H)
  | release (fh : UInt64)

end HandleTable

namespace TiFsMutable

variable {H : Type}

def new : TiFsMutable H := ⟨∅, 0, ∅⟩

/-- The first element of a hash set is any of its elements. -/
def IsFirst (freedFhs : Finset UInt64) : Option UInt64 → Prop
  | some fh => fh ∈ freedFhs
  | none => freedFhs = ∅

instance decidableIsFirst (freedFhs : Finset UInt64) (first : Option UInt64) :
    Decidable (IsFirst freedFhs first) :=
  match first with
  | some fh => inferInstanceAs (Decidable (fh ∈ freedFhs))
  | none => inferInstanceAs (Decidable (freedFhs = ∅))

def getFreeFh (d : TiFsMutable H) (first : Option UInt64) : UInt64 × TiFsMutable H :=
  match first.filter (· ∈ d.freedFhs) with
  | some reused => (reused, { d with freedFhs := d.freedFhs.erase reused })
  | none => (d.nextFh, { d with nextFh := d.nextFh + 1 })

def insertHandler (d : TiFsMutable H) (fh : UInt64) (handler : H) : Option (TiFsMutable H) :=
  let fileHandlers := d.fileHandlers.insert fh handler
  if fileHandlers.keys.length ≤ entryLimit 16 then some { d with fileHandlers := fileHandlers } else none

def openHandler (d : TiFsMutable H) (first : Option UInt64) (handler : H) : Option (UInt64 × TiFsMutable H) := do
  let (newFh, d) := d.getFreeFh first
  let d ← d.insertHandler newFh handler
  some (newFh, d)

def releaseFileHandler (d : TiFsMutable H) (fh : UInt64) : Option (Option H × TiFsMutable H) :=
  match d.fileHandlers.lookup fh with
  | some handler =>
      let freedFhs := insert fh d.freedFhs
      if freedFhs.card ≤ entryLimit 8 then
        some (some handler, { d with fileHandlers := d.fileHandlers.erase fh, freedFhs := freedFhs })
      else none
  | none => some (none, d)

def step (d : TiFsMutable H) : HandleCall H → Option (TiFsMutable H)
  | .opened first handler => (d.openHandler first handler).map Prod.snd
  | .release fh => (d.releaseFileHandler fh).map Prod.snd

def Picks (d : TiFsMutable H) : HandleCall H → Prop
  | .opened first _ => IsFirst d.freedFhs first
  | .release _ => True

instance decidablePicks (d : TiFsMutable H) (call : HandleCall H) : Decidable (d.Picks call) :=
  match call with
  | .opened first _ => inferInstanceAs (Decidable (IsFirst d.freedFhs first))
  | .release _ => inferInstanceAs (Decidable True)

/-- Every number below the next one is in use or was given back, and not both. -/
structure Consistent (d : TiFsMutable H) : Prop where
  apart : ∀ fh ∈ d.fileHandlers, fh ∉ d.freedFhs
  numbers : ∀ fh, fh ∈ d.fileHandlers ∨ fh ∈ d.freedFhs ↔ fh < d.nextFh
  handlersFit : d.fileHandlers.keys.length ≤ entryLimit 16
  freedFit : d.freedFhs.card ≤ entryLimit 8

theorem consistent_new : Consistent (new : TiFsMutable H) where
  apart := by
    intro fh listed
    exact absurd listed (AList.notMem_empty fh)
  numbers := by
    intro fh
    simp only [new, AList.notMem_empty, Finset.notMem_empty, or_self, false_iff]
    exact UInt64.not_lt_zero
  handlersFit := Nat.zero_le _
  freedFit := Nat.zero_le _

/-- As many numbers as there are entries: the counter cannot wrap around. -/
theorem Consistent.nextFh_le {d : TiFsMutable H} (consistent : Consistent d) :
    d.nextFh.toNat ≤ entryLimit 16 + entryLimit 8 := by
  have covered : Finset.range d.nextFh.toNat ⊆
      (d.fileHandlers.keys.toFinset ∪ d.freedFhs).image UInt64.toNat := by
    intro number below
    have word := d.nextFh.toNat_lt
    have isNumber : (UInt64.ofNat number).toNat = number :=
      UInt64.toNat_ofNat_of_lt' ((Finset.mem_range.mp below).trans word)
    have used : UInt64.ofNat number < d.nextFh := by
      rw [UInt64.lt_iff_toNat_lt, isNumber]
      exact Finset.mem_range.mp below
    rw [Finset.mem_image]
    refine ⟨UInt64.ofNat number, ?_, isNumber⟩
    rw [Finset.mem_union, List.mem_toFinset]
    exact (consistent.numbers _).mpr used
  calc d.nextFh.toNat
    _ = (Finset.range d.nextFh.toNat).card := (Finset.card_range _).symm
    _ ≤ ((d.fileHandlers.keys.toFinset ∪ d.freedFhs).image UInt64.toNat).card := Finset.card_le_card covered
    _ ≤ (d.fileHandlers.keys.toFinset ∪ d.freedFhs).card := Finset.card_image_le
    _ ≤ d.fileHandlers.keys.toFinset.card + d.freedFhs.card := Finset.card_union_le _ _
    _ ≤ entryLimit 16 + entryLimit 8 :=
      Nat.add_le_add ((List.toFinset_card_le _).trans consistent.handlersFit) consistent.freedFit

theorem Consistent.lt_succ_nextFh {d : TiFsMutable H} (consistent : Consistent d) (fh : UInt64) :
    fh < d.nextFh + 1 ↔ fh < d.nextFh ∨ fh = d.nextFh := by
  have bound := consistent.nextFh_le
  have isLimit : entryLimit 16 + entryLimit 8 < 2 ^ 64 - 1 := by decide
  have next : (d.nextFh + 1).toNat = d.nextFh.toNat + 1 := by
    rw [UInt64.toNat_add]
    exact Nat.mod_eq_of_lt (by simp only [UInt64.toNat_one]; omega)
  rw [UInt64.lt_iff_toNat_lt, UInt64.lt_iff_toNat_lt, ← UInt64.toNat_inj, next]
  omega

theorem getFreeFh_cases {d : TiFsMutable H} {first : Option UInt64} (picked : IsFirst d.freedFhs first) :
    (∃ reused ∈ d.freedFhs, d.getFreeFh first = (reused, { d with freedFhs := d.freedFhs.erase reused })) ∨
      (d.freedFhs = ∅ ∧ d.getFreeFh first = (d.nextFh, { d with nextFh := d.nextFh + 1 })) := by
  cases first with
  | some reused =>
      have listed : reused ∈ d.freedFhs := picked
      refine Or.inl ⟨reused, listed, ?_⟩
      simp only [getFreeFh, Option.filter_some, decide_eq_true listed, if_true]
  | none => exact Or.inr ⟨picked, rfl⟩

theorem Consistent.getFreeFh_unused {d : TiFsMutable H} (consistent : Consistent d) {first : Option UInt64}
    (picked : IsFirst d.freedFhs first) : (d.getFreeFh first).1 ∉ d.fileHandlers := by
  rcases getFreeFh_cases picked with ⟨reused, listed, result⟩ | ⟨_, result⟩
  · rw [result]
    exact fun used => consistent.apart reused used listed
  · rw [result]
    exact fun used => UInt64.lt_irrefl _ ((consistent.numbers _).mp (Or.inl used))

theorem Consistent.openHandler {d after : TiFsMutable H} (consistent : Consistent d) {first : Option UInt64}
    {handler : H} {fh : UInt64} (picked : IsFirst d.freedFhs first)
    (opened : d.openHandler first handler = some (fh, after)) : Consistent after := by
  have unused := consistent.getFreeFh_unused picked
  simp only [TiFsMutable.openHandler, insertHandler, Option.bind_eq_bind] at opened
  split at opened
  · next fits =>
      rw [Option.bind_some, Option.some.injEq] at opened
      obtain ⟨-, rfl⟩ := Prod.mk.inj opened
      rcases getFreeFh_cases picked with ⟨reused, listed, result⟩ | ⟨empty, result⟩
      · rw [result] at fits unused ⊢
        refine ⟨?_, ?_, fits, ?_⟩
        · intro other used
          rw [Finset.mem_erase]
          rintro ⟨different, freed⟩
          rcases AList.mem_insert _ |>.mp used with same | before
          · exact different same
          · exact consistent.apart other before freed
        · intro other
          rw [← consistent.numbers other]
          simp only [AList.mem_insert, Finset.mem_erase]
          by_cases same : other = reused
          · simp only [same, listed, true_or, or_true]
          · simp only [same, false_or, ne_eq, not_false_iff, true_and]
        · exact (Finset.card_erase_le).trans consistent.freedFit
      · rw [result] at fits unused ⊢
        refine ⟨?_, ?_, fits, consistent.freedFit⟩
        · intro other _
          simp only [empty, Finset.notMem_empty, not_false_iff]
        · intro other
          simp only [AList.mem_insert, consistent.lt_succ_nextFh, ← consistent.numbers other]
          tauto
  · simp only [Option.bind_none, reduceCtorEq] at opened

theorem Consistent.releaseFileHandler {d after : TiFsMutable H} (consistent : Consistent d) {fh : UInt64}
    {handler : Option H} (released : d.releaseFileHandler fh = some (handler, after)) :
    Consistent after := by
  unfold TiFsMutable.releaseFileHandler at released
  split at released
  · next found isHandler =>
      have used : fh ∈ d.fileHandlers := AList.lookup_isSome.mp (by rw [isHandler]; rfl)
      dsimp only at released
      split at released
      · next fits =>
          obtain ⟨-, rfl⟩ := Prod.mk.inj (Option.some.inj released)
          refine ⟨?_, ?_, ?_, fits⟩
          · intro other kept
            obtain ⟨different, before⟩ := AList.mem_erase.mp kept
            rw [Finset.mem_insert, not_or]
            exact ⟨different, consistent.apart other before⟩
          · intro other
            rw [← consistent.numbers other]
            simp only [AList.mem_erase, Finset.mem_insert]
            by_cases same : other = fh
            · simp only [same, used, true_or, or_true]
            · simp only [same, false_or, ne_eq, not_false_iff, true_and]
          · rw [AList.keys_erase]
            exact (List.length_erase_le).trans consistent.handlersFit
      · cases released
  · obtain ⟨-, rfl⟩ := Prod.mk.inj (Option.some.inj released)
    exact consistent

theorem Consistent.step {d after : TiFsMutable H} {call : HandleCall H} (consistent : Consistent d)
    (picked : d.Picks call) (stepped : d.step call = some after) : Consistent after := by
  cases call with
  | opened first handler =>
      obtain ⟨⟨fh, result⟩, opened, rfl⟩ := Option.map_eq_some_iff.mp stepped
      exact consistent.openHandler picked opened
  | release fh =>
      obtain ⟨⟨handler, result⟩, released, rfl⟩ := Option.map_eq_some_iff.mp stepped
      exact consistent.releaseFileHandler released

/-- Over any sequence of opens and releases no number is in use twice, none is lost, and
the one that is handed out is not in use. -/
theorem handle_numbers (d : TiFsMutable H)
    (run : Run (fun before call after => before.step call = some after) Picks new d) :
    (∀ fh, ¬ (fh ∈ d.fileHandlers ∧ fh ∈ d.freedFhs)) ∧
      (∀ fh, fh ∈ d.fileHandlers ∨ fh ∈ d.freedFhs ↔ fh < d.nextFh) ∧
      ∀ first, IsFirst d.freedFhs first → (d.getFreeFh first).1 ∉ d.fileHandlers := by
  have consistent : Consistent d := by
    refine Run.invariant Consistent ?_ consistent_new run
    intro before call after holds stepped picked
    exact holds.step picked stepped
  refine ⟨?_, consistent.numbers, fun first picked => consistent.getFreeFh_unused picked⟩
  rintro fh ⟨used, freed⟩
  exact consistent.apart fh used freed

/-- A number is released twice and another one that was never handed out; the next open
gets the first one again. -/
theorem handle_numbers_reused :
    ∃ d : TiFsMutable String,
      Run (fun before call after => before.step call = some after) Picks new d ∧
        d.fileHandlers.lookup 0 = some "c" ∧ d.nextFh = 2 ∧
        ∀ fh, ¬ (fh ∈ d.fileHandlers ∧ fh ∈ d.freedFhs) := by
  have ran : (runAll (restrict Picks step) new
      [.opened none "a", .opened none "b", .release 0, .release 0, .release 7, .opened (some 0) "c"]).any
      (fun d => decide (d.fileHandlers.lookup 0 = some "c" ∧ d.nextFh = 2)) = true := by decide
  obtain ⟨d, run, found⟩ := Run.of_restrict (fun _ _ _ taken => taken) _ _ ran
  obtain ⟨isHandler, next⟩ := of_decide_eq_true found
  exact ⟨d, run, isHandler, next, (handle_numbers d run).1⟩

end TiFsMutable

end TiFs
