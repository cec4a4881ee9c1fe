import Mathlib.Data.List.Forall2
import Mathlib.Order.Lattice

/-! Bytes read as UTF-8 with every ill-formed part replaced: the characters that result,
which texts stay as they are, and which are the only one with their result. -/

namespace Utf8

def replacement : List UInt8 := [0xEF, 0xBF, 0xBD]

def tail : UInt8 × UInt8 := (0x80, 0xBF)

/-- The ranges of the bytes behind the first one of a character; no character begins with
a byte that has none. -/
def follows (lead : UInt8) : Option (List (UInt8 × UInt8)) :=
  if lead ≤ 0x7F then some []
  else if lead < 0xC2 then none
  else if lead ≤ 0xDF then some [tail]
  else if lead = 0xE0 then some [(0xA0, 0xBF), tail]
  else if lead = 0xED then some [(0x80, 0x9F), tail]
  else if lead ≤ 0xEF then some [tail, tail]
  else if lead = 0xF0 then some [(0x90, 0xBF), tail, tail]
  else if lead ≤ 0xF3 then some [tail, tail, tail]
  else if lead = 0xF4 then some [(0x80, 0x8F), tail, tail]
  else none

def Fits (range : UInt8 × UInt8) (byte : UInt8) : Prop := range.1 ≤ byte ∧ byte ≤ range.2

instance (range : UInt8 × UInt8) (byte : UInt8) : Decidable (Fits range byte) :=
  inferInstanceAs (Decidable (_ ∧ _))

def matched : List (UInt8 × UInt8) → List UInt8 → Nat
  | range :: ranges, byte :: rest => if Fits range byte then matched ranges rest + 1 else 0
  | _, _ => 0

/-- How many bytes behind the first one belong to the same character, or to what is
replaced as a whole. -/
def further (lead : UInt8) (rest : List UInt8) : Nat :=
  match follows lead with
  | some ranges => matched ranges rest
  | none => 0

def complete (lead : UInt8) (rest : List UInt8) : Bool :=
  match follows lead with
  | some ranges => matched ranges rest = ranges.length
  | none => false

def character (lead : UInt8) (rest : List UInt8) : List UInt8 :=
  if complete lead rest then lead :: rest.take (further lead rest) else replacement

def charsFrom : Nat → List UInt8 → List (List UInt8)
  | _, [] => []
  | skip + 1, _ :: rest => charsFrom skip rest
  | 0, lead :: rest => character lead rest :: charsFrom (further lead rest) rest

def chars (bytes : List UInt8) : List (List UInt8) := charsFrom 0 bytes

def lossy (bytes : List UInt8) : List UInt8 := (chars bytes).flatten

inductive IsChar : List UInt8 → Prop
  | mk (lead : UInt8) (ranges : List (UInt8 × UInt8)) (rest : List UInt8)
      (isLead : follows lead = some ranges) (fits : List.Forall₂ Fits ranges rest) : IsChar (lead :: rest)

theorem matched_of_fits {ranges : List (UInt8 × UInt8)} {bytes : List UInt8}
    (fits : List.Forall₂ Fits ranges bytes) (more : List UInt8) :
    matched ranges (bytes ++ more) = ranges.length := by
  induction fits with
  | nil => rfl
  | cons first _ ih =>
      rw [List.cons_append, matched, if_pos first, ih]
      rfl

theorem fits_of_matched {ranges : List (UInt8 × UInt8)} {bytes : List UInt8}
    (all : matched ranges bytes = ranges.length) : List.Forall₂ Fits ranges (bytes.take ranges.length) := by
  induction ranges generalizing bytes with
  | nil => exact .nil
  | cons range ranges ih =>
      cases bytes with
      | nil => cases all
      | cons byte rest =>
          rw [matched] at all
          split at all
          · next first => exact .cons first (ih (Nat.succ.inj all))
          · cases all

theorem isChar_replacement : IsChar replacement := by
  apply IsChar.mk 0xEF [tail, tail] [0xBF, 0xBD] (by decide)
  exact .cons (by decide) (.cons (by decide) .nil)

theorem isChar_character (lead : UInt8) (rest : List UInt8) : IsChar (character lead rest) := by
  unfold character
  split
  · next isComplete =>
      unfold complete at isComplete
      unfold further
      split at isComplete
      · next ranges isLead =>
          have all := of_decide_eq_true isComplete
          apply IsChar.mk lead ranges _ isLead
          rw [all]
          exact fits_of_matched all
      · cases isComplete
  · exact isChar_replacement

theorem isChar_of_mem_from {char : List UInt8} (skip : Nat) (bytes : List UInt8)
    (member : char ∈ charsFrom skip bytes) : IsChar char := by
  induction bytes generalizing skip with
  | nil => cases skip <;> cases member
  | cons byte rest ih =>
      cases skip with
      | zero =>
          rcases List.mem_cons.mp member with rfl | later
          · exact isChar_character byte rest
          · exact ih _ later
      | succ skip => exact ih skip member

theorem isChar_of_mem {char bytes : List UInt8} (member : char ∈ chars bytes) : IsChar char :=
  isChar_of_mem_from 0 bytes member

theorem charsFrom_eq (skip : Nat) (bytes : List UInt8) : charsFrom skip bytes = chars (bytes.drop skip) := by
  induction bytes generalizing skip with
  | nil =>
      rw [List.drop_nil]
      cases skip <;> rfl
  | cons byte rest ih =>
      cases skip with
      | zero => rfl
      | succ skip => exact ih skip

theorem chars_cons (lead : UInt8) (rest : List UInt8) :
    chars (lead :: rest) = character lead rest :: chars (rest.drop (further lead rest)) := by
  rw [← charsFrom_eq]
  rfl

theorem chars_append_of_isChar {char : List UInt8} (isChar : IsChar char) (more : List UInt8) :
    chars (char ++ more) = char :: chars more := by
  obtain ⟨lead, ranges, rest, isLead, fits⟩ := isChar
  have all : matched ranges (rest ++ more) = ranges.length := matched_of_fits fits more
  have behind : further lead (rest ++ more) = rest.length := by
    rw [further, isLead]
    exact all.trans fits.length_eq
  have isComplete : complete lead (rest ++ more) = true := by
    rw [complete, isLead]
    exact decide_eq_true all
  rw [List.cons_append, chars_cons, character, if_pos isComplete, behind, List.take_left, List.drop_left]

theorem chars_flatten_append {all : List (List UInt8)} (areChars : ∀ char ∈ all, IsChar char)
    (more : List UInt8) : chars (all.flatten ++ more) = all ++ chars more := by
  induction all with
  | nil => rfl
  | cons char rest ih =>
      rw [List.flatten_cons, List.append_assoc, chars_append_of_isChar (areChars char List.mem_cons_self),
        ih fun other member => areChars other (List.mem_cons_of_mem char member)]
      rfl

theorem chars_flatten {all : List (List UInt8)} (areChars : ∀ char ∈ all, IsChar char) :
    chars all.flatten = all := by
  have whole := chars_flatten_append areChars []
  rw [List.append_nil] at whole
  exact whole.trans (List.append_nil all)

@[simp] theorem chars_lossy (bytes : List UInt8) : chars (lossy bytes) = chars bytes :=
  chars_flatten fun _ => isChar_of_mem

@[simp] theorem lossy_lossy (bytes : List UInt8) : lossy (lossy bytes) = lossy bytes := by
  rw [lossy, chars_lossy, lossy]

/-- A text that is valid in front of others is read apart from them. -/
theorem lossy_append {bytes : List UInt8} (valid : lossy bytes = bytes) (more : List UInt8) :
    lossy (bytes ++ more) = bytes ++ lossy more := by
  have split : chars (bytes ++ more) = chars bytes ++ chars more := by
    have front : chars ((chars bytes).flatten ++ more) = chars bytes ++ chars more :=
      chars_flatten_append (fun _ => isChar_of_mem) more
    rwa [show (chars bytes).flatten = bytes from valid] at front
  rw [lossy, split, List.flatten_append]
  exact congrArg (· ++ lossy more) valid

theorem flatten_charsFrom (skip : Nat) (bytes : List UInt8) (noneReplaced : replacement ∉ charsFrom skip bytes) :
    (charsFrom skip bytes).flatten = bytes.drop skip := by
  induction bytes generalizing skip with
  | nil =>
      rw [List.drop_nil]
      cases skip <;> rfl
  | cons byte rest ih =>
      cases skip with
      | zero =>
          rw [charsFrom, List.mem_cons, not_or] at noneReplaced
          have isComplete : complete byte rest = true := by
            by_contra incomplete
            apply noneReplaced.1
            rw [character, if_neg incomplete]
          rw [charsFrom, List.flatten_cons, ih _ noneReplaced.2, character, if_pos isComplete,
            List.cons_append, List.take_append_drop]
          rfl
      | succ skip => exact ih skip noneReplaced

theorem lossy_eq_self {bytes : List UInt8} (noneReplaced : replacement ∉ chars bytes) : lossy bytes = bytes :=
  flatten_charsFrom 0 bytes noneReplaced

theorem lossy_of_ascii {bytes : List UInt8} (ascii : ∀ byte ∈ bytes, byte ≤ 0x7F) : lossy bytes = bytes := by
  have split : bytes = (bytes.map fun byte => [byte]).flatten := by
    rw [← List.flatMap_def, List.flatMap_singleton']
  have areChars : ∀ char ∈ bytes.map fun byte => [byte], IsChar char := by
    intro char member
    obtain ⟨byte, listed, rfl⟩ := List.mem_map.mp member
    exact .mk byte [] [] (if_pos (ascii byte listed)) .nil
  rw [lossy, split, chars_flatten areChars]

theorem chars_of_not_lead {byte : UInt8} (noLead : follows byte = none) (rest : List UInt8) :
    chars (byte :: rest) = replacement :: chars rest := by
  have isFurther : further byte rest = 0 := by rw [further, noLead]
  have incomplete : complete byte rest = false := by rw [complete, noLead]
  rw [chars_cons, isFurther, List.drop_zero, character, incomplete]
  rfl

/-- A text with a replaced part, or with the character that replaces one, shares its
result with another text. -/
theorem exists_alias {bytes : List UInt8} (replaced : replacement ∈ chars bytes) :
    ∃ other, other ≠ bytes ∧ lossy other = lossy bytes := by
  by_cases valid : lossy bytes = bytes
  · obtain ⟨front, back, split⟩ := List.append_of_mem replaced
    have inFront : ∀ char ∈ front, IsChar char := fun char member =>
      isChar_of_mem (split ▸ List.mem_append_left _ member)
    have inBack : ∀ char ∈ back, IsChar char := fun char member =>
      isChar_of_mem (split ▸ List.mem_append_right _ (List.mem_cons_of_mem _ member))
    have same : chars (front.flatten ++ 0xFF :: back.flatten) = chars bytes := by
      rw [chars_flatten_append inFront, chars_of_not_lead (by decide), chars_flatten inBack, split]
    refine ⟨front.flatten ++ 0xFF :: back.flatten, ?_, by rw [lossy, same, lossy]⟩
    intro isSame
    have lengths : bytes.length = (front.flatten ++ (replacement ++ back.flatten)).length := by
      rw [← List.flatten_cons, ← List.flatten_append, ← split]
      exact congrArg List.length valid.symm
    rw [← isSame] at lengths
    simp only [List.length_append, List.length_cons, replacement] at lengths
    omega
  · exact ⟨lossy bytes, valid, lossy_lossy bytes⟩

theorem lossy_injective_iff (bytes : List UInt8) :
    (∀ other, lossy other = lossy bytes → other = bytes) ↔ replacement ∉ chars bytes := by
  constructor
  · intro unique replaced
    obtain ⟨other, different, same⟩ := exists_alias replaced
    exact different (unique other same)
  · intro noneReplaced other same
    have sameChars : chars other = chars bytes := by
      rw [← chars_lossy other, same, chars_lossy]
    calc
      other = lossy other := (lossy_eq_self (by rw [sameChars]; exact noneReplaced)).symm
      _ = lossy bytes := same
      _ = bytes := lossy_eq_self noneReplaced

end Utf8
