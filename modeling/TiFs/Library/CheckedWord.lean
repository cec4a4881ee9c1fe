import Mathlib.Algebra.GroupWithZero.Nat
import Mathlib.Data.List.Basic

/-! Unsigned machine words as numbers below a power of two. An operation gives nothing
where a checked build would stop: at an overflow, an underflow or a division by zero,
and likewise where a slice is cut out of bounds. -/

namespace CheckedWord

def add (width a b : Nat) : Option Nat := if a + b < 2 ^ width then some (a + b) else none

def mul (width a b : Nat) : Option Nat := if a * b < 2 ^ width then some (a * b) else none

def sub (a b : Nat) : Option Nat := if b ≤ a then some (a - b) else none

def div (a b : Nat) : Option Nat := if 0 < b then some (a / b) else none

def rem (a b : Nat) : Option Nat := if 0 < b then some (a % b) else none

/-- The quotient rounded up, from the quotient and the remainder. -/
def ceilDiv (width a b : Nat) : Option Nat := do
  let d ← div a b
  let r ← rem a b
  if r > 0 then add width d 1 else some d

/-- The truncating conversion to a narrower word, which is no overflow. -/
def narrow (width a : Nat) : Nat := a % 2 ^ width

section Operations

variable {width a b : Nat}

@[simp]
theorem add_of_lt (fits : a + b < 2 ^ width) : add width a b = some (a + b) := if_pos fits

@[simp]
theorem mul_of_lt (fits : a * b < 2 ^ width) : mul width a b = some (a * b) := if_pos fits

@[simp]
theorem sub_of_le (enough : b ≤ a) : sub a b = some (a - b) := if_pos enough

@[simp]
theorem div_of_pos (positive : 0 < b) : div a b = some (a / b) := if_pos positive

@[simp]
theorem rem_of_pos (positive : 0 < b) : rem a b = some (a % b) := if_pos positive

theorem ceilDiv_of_pos (positive : 0 < b) (word : a < 2 ^ width) :
    ceilDiv width a b = some ((a + b - 1) / b) := by
  have whole := Nat.div_add_mod a b
  have below := Nat.mod_lt a positive
  rw [Nat.mul_comm] at whole
  simp only [ceilDiv, div_of_pos positive, rem_of_pos positive, Option.bind_eq_bind, Option.bind_some]
  by_cases more : a % b > 0
  · have next : a / b + 1 ≤ a := by
      have twice := Nat.mul_le_mul_left (a / b) (show 2 ≤ b by omega)
      omega
    rw [if_pos more, add_of_lt (by omega), Option.some.injEq, eq_comm, Nat.div_eq_iff positive, Nat.add_mul]
    omega
  · rw [if_neg more, Option.some.injEq, eq_comm, Nat.div_eq_iff positive]
    omega

end Operations

section Slices

variable {A : Type}

/-- `split_at`. -/
def splitAt (data : List A) (mid : Nat) : Option (List A × List A) :=
  if mid ≤ data.length then some (data.take mid, data.drop mid) else none

/-- `&data[start..stop]`. -/
def subslice (data : List A) (start stop : Nat) : Option (List A) :=
  if start ≤ stop ∧ stop ≤ data.length then some ((data.take stop).drop start) else none

@[simp]
theorem splitAt_of_le {data : List A} {mid : Nat} (inside : mid ≤ data.length) :
    splitAt data mid = some (data.take mid, data.drop mid) := if_pos inside

@[simp]
theorem subslice_of_le {data : List A} {start stop : Nat} (order : start ≤ stop)
    (inside : stop ≤ data.length) : subslice data start stop = some ((data.take stop).drop start) :=
  if_pos ⟨order, inside⟩

end Slices

end CheckedWord
