import Mathlib.Algebra.Group.Nat.Defs
import Mathlib.Data.List.Basic

namespace BigEndian

/-- The `width` low bytes of a number, the highest first. -/
def write : Nat → Nat → List UInt8
  | 0, _ => []
  | width + 1, value => UInt8.ofNat (value / 256 ^ width) :: write width (value % 256 ^ width)

def read : List UInt8 → Nat
  | [] => 0
  | byte :: rest => byte.toNat * 256 ^ rest.length + read rest

@[simp] theorem write_length (width value : Nat) : (write width value).length = width := by
  induction width generalizing value with
  | zero => rfl
  | succ width ih => rw [write, List.length_cons, ih]

theorem head_small {width value : Nat} (small : value < 256 ^ (width + 1)) :
    value / 256 ^ width < 256 := by
  apply Nat.div_lt_of_lt_mul
  rw [← Nat.pow_succ]
  exact small

@[simp] theorem read_write {width value : Nat} (small : value < 256 ^ width) :
    read (write width value) = value := by
  induction width generalizing value with
  | zero =>
      rw [Nat.pow_zero] at small
      rw [write, read]
      omega
  | succ width ih =>
      have rest : value % 256 ^ width < 256 ^ width := Nat.mod_lt _ (Nat.pow_pos (by decide))
      rw [write, read, write_length, ih rest, UInt8.toNat_ofNat',
        Nat.mod_eq_of_lt (head_small small)]
      exact Nat.div_add_mod' value (256 ^ width)

theorem read_lt (bytes : List UInt8) : read bytes < 256 ^ bytes.length := by
  induction bytes with
  | nil => exact Nat.one_pos
  | cons byte rest ih =>
      calc
        byte.toNat * 256 ^ rest.length + read rest < byte.toNat * 256 ^ rest.length + 256 ^ rest.length :=
          Nat.add_lt_add_left ih _
        _ = (byte.toNat + 1) * 256 ^ rest.length := (Nat.succ_mul _ _).symm
        _ ≤ 256 * 256 ^ rest.length := Nat.mul_le_mul_right _ byte.toNat_lt
        _ = 256 ^ (byte :: rest).length := by rw [List.length_cons, Nat.pow_succ, Nat.mul_comm]

/-- Every byte string is what is written for a number. -/
theorem write_read (bytes : List UInt8) : write bytes.length (read bytes) = bytes := by
  induction bytes with
  | nil => rfl
  | cons byte rest ih =>
      have small : read rest < 256 ^ rest.length := read_lt rest
      have positive : 0 < 256 ^ rest.length := Nat.zero_lt_of_lt small
      have high : (byte.toNat * 256 ^ rest.length + read rest) / 256 ^ rest.length = byte.toNat := by
        rw [Nat.mul_comm, Nat.mul_add_div positive, Nat.div_eq_of_lt small, Nat.add_zero]
      have low : (byte.toNat * 256 ^ rest.length + read rest) % 256 ^ rest.length = read rest :=
        Nat.mul_add_mod_of_lt small
      rw [List.length_cons, read, write, high, low, ih, UInt8.ofNat_toNat]

theorem write_injective {width left right : Nat} (leftSmall : left < 256 ^ width)
    (rightSmall : right < 256 ^ width) (same : write width left = write width right) :
    left = right := by
  rw [← read_write leftSmall, ← read_write rightSmall, same]

/-- Numbers compare by their quotients and, where these agree, by their remainders. -/
theorem lt_iff_div_mod {left right base : Nat} (positive : 0 < base) :
    left < right ↔
      left / base < right / base ∨ left / base = right / base ∧ left % base < right % base := by
  have leftSplit := Nat.div_add_mod left base
  have rightSplit := Nat.div_add_mod right base
  have leftRest := Nat.mod_lt left positive
  have rightRest := Nat.mod_lt right positive
  constructor
  · intro less
    rcases Nat.lt_or_eq_of_le (Nat.div_le_div_right (c := base) (Nat.le_of_lt less)) with below | same
    · exact Or.inl below
    · rw [same] at leftSplit
      exact Or.inr ⟨same, by omega⟩
  · intro compared
    rcases compared with below | ⟨same, restBelow⟩
    · have next : base * (left / base + 1) ≤ base * (right / base) := Nat.mul_le_mul_left base below
      rw [Nat.mul_add, Nat.mul_one] at next
      omega
    · rw [same] at leftSplit
      omega

theorem write_lt_write_iff {width left right : Nat} (leftSmall : left < 256 ^ width)
    (rightSmall : right < 256 ^ width) : write width left < write width right ↔ left < right := by
  induction width generalizing left right with
  | zero =>
      rw [Nat.pow_zero] at leftSmall rightSmall
      simp only [write, List.not_lt_nil, false_iff]
      omega
  | succ width ih =>
      have positive : 0 < 256 ^ width := Nat.pow_pos (by decide)
      have heads : ∀ value : Nat, value < 256 ^ (width + 1) →
          (UInt8.ofNat (value / 256 ^ width)).toNat = value / 256 ^ width := by
        intro value small
        rw [UInt8.toNat_ofNat', Nat.mod_eq_of_lt (head_small small)]
      rw [write, write, List.cons_lt_cons_iff, ih (Nat.mod_lt _ positive) (Nat.mod_lt _ positive),
        UInt8.lt_iff_toNat_lt, ← UInt8.toNat_inj, heads left leftSmall, heads right rightSmall,
        ← lt_iff_div_mod positive]

/-- Strings that begin with parts of one length compare by these parts first. -/
theorem append_lt_append_iff {left right leftRest rightRest : List UInt8}
    (same : left.length = right.length) :
    left ++ leftRest < right ++ rightRest ↔ left < right ∨ left = right ∧ leftRest < rightRest := by
  induction left generalizing right with
  | nil =>
      have empty : right = [] := List.eq_nil_of_length_eq_zero same.symm
      simp [empty]
  | cons head tail ih =>
      cases right with
      | nil => cases same
      | cons other rest =>
          rw [List.cons_append, List.cons_append, List.cons_lt_cons_iff, List.cons_lt_cons_iff,
            ih (Nat.succ.inj same), List.cons.injEq]
          tauto

theorem write_append_lt_iff {width left right : Nat} {leftRest rightRest : List UInt8}
    (leftSmall : left < 256 ^ width) (rightSmall : right < 256 ^ width) :
    write width left ++ leftRest < write width right ++ rightRest ↔
      left < right ∨ left = right ∧ leftRest < rightRest := by
  rw [append_lt_append_iff (by simp), write_lt_write_iff leftSmall rightSmall]
  constructor
  · intro compared
    exact compared.imp_right fun both => ⟨write_injective leftSmall rightSmall both.1, both.2⟩
  · intro compared
    exact compared.imp_right fun both => ⟨by rw [both.1], both.2⟩

/-- What lies between two strings that begin alike begins like them. -/
theorem exists_append_of_between {front left right key : List UInt8}
    (notBelow : ¬ key < front ++ left) (below : key < front ++ right) : ∃ rest, key = front ++ rest := by
  induction front generalizing key with
  | nil => exact ⟨key, rfl⟩
  | cons head tail ih =>
      cases key with
      | nil => exact absurd (List.nil_lt_cons head (tail ++ left)) notBelow
      | cons byte rest =>
          rw [List.cons_append, List.cons_lt_cons_iff] at notBelow below
          rcases below with less | ⟨rfl, restBelow⟩
          · exact absurd (Or.inl less) notBelow
          · obtain ⟨rest, rfl⟩ := ih (fun less => notBelow (Or.inr ⟨rfl, less⟩)) restBelow
            exact ⟨rest, rfl⟩

end BigEndian
