import Mathlib.Data.List.Basic

namespace Overlay

variable {A : Type} (zero : A)

/-- `dest` with `patch` written from `pos` on. -/
def overlay (pos : Nat) (patch dest : List A) : List A :=
  let grown := dest ++ List.replicate (pos + patch.length - dest.length) zero
  grown.take pos ++ patch ++ grown.drop (pos + patch.length)

theorem length_overlay (pos : Nat) (patch dest : List A) :
    (overlay zero pos patch dest).length = max dest.length (pos + patch.length) := by
  simp only [overlay, List.length_append, List.length_take, List.length_drop, List.length_replicate]
  omega

theorem getElem?_overlay_of_inside (pos : Nat) (patch dest : List A) (k : Nat) (lower : pos ≤ k)
    (upper : k < pos + patch.length) :
    (overlay zero pos patch dest)[k]? = patch[k - pos]? := by
  have front : ((dest ++ List.replicate (pos + patch.length - dest.length) zero).take pos).length
      = pos := by
    simp only [List.length_take, List.length_append, List.length_replicate]
    omega
  rw [overlay, List.append_assoc, List.getElem?_append_right (by omega), front,
    List.getElem?_append_left (by omega)]

/-- Outside of the patch the old elements stay, and what was beyond them and
before the patch is filled. -/
theorem getElem?_overlay_of_outside (pos : Nat) (patch dest : List A) (k : Nat)
    (outside : k < pos ∨ pos + patch.length ≤ k) :
    (overlay zero pos patch dest)[k]? =
      if dest.length ≤ k ∧ k < pos then some zero else dest[k]? := by
  have grown : ∀ j, (dest ++ List.replicate (pos + patch.length - dest.length) zero)[j]? =
      if dest.length ≤ j ∧ j < pos + patch.length then some zero else dest[j]? := by
    intro j
    by_cases inside : j < dest.length
    · rw [List.getElem?_append_left inside, if_neg (by omega)]
    · rw [List.getElem?_append_right (by omega), List.getElem?_replicate]
      by_cases near : j < pos + patch.length
      · rw [if_pos (by omega), if_pos (by omega)]
      · rw [if_neg (by omega), if_neg (by omega), List.getElem?_eq_none (by omega)]
  have front : ((dest ++ List.replicate (pos + patch.length - dest.length) zero).take pos).length
      = pos := by
    simp only [List.length_take, List.length_append, List.length_replicate]
    omega
  rw [overlay, List.append_assoc]
  rcases outside with before | behind
  · rw [List.getElem?_append_left (by omega), List.getElem?_take_of_lt before, grown]
    by_cases near : dest.length ≤ k
    · rw [if_pos (by omega), if_pos (by omega)]
    · rw [if_neg (by omega), if_neg (by omega)]
  · rw [List.getElem?_append_right (by omega), front, List.getElem?_append_right (by omega),
      List.getElem?_drop, grown, if_neg (by omega), if_neg (by omega)]
    congr 1
    omega

/-- A patch that reaches over the whole sequence replaces it. -/
theorem overlay_full (patch dest : List A) (covers : dest.length ≤ patch.length) :
    overlay zero 0 patch dest = patch := by
  refine List.ext_getElem? fun k => ?_
  by_cases inside : k < patch.length
  · rw [getElem?_overlay_of_inside zero 0 patch dest k (by omega) (by omega)]
    rfl
  · rw [getElem?_overlay_of_outside zero 0 patch dest k (by omega), if_neg (by omega),
      List.getElem?_eq_none (by omega), List.getElem?_eq_none (by omega)]

/-- A later patch hides an earlier one that lies inside of it. -/
theorem overlay_overlay_of_covers (pos inner : Nat) (patch hidden dest : List A)
    (lower : pos ≤ inner) (upper : inner + hidden.length ≤ pos + patch.length) :
    overlay zero pos patch (overlay zero inner hidden dest) = overlay zero pos patch dest := by
  refine List.ext_getElem? fun k => ?_
  by_cases inside : pos ≤ k ∧ k < pos + patch.length
  · rw [getElem?_overlay_of_inside zero pos patch _ k inside.1 inside.2,
      getElem?_overlay_of_inside zero pos patch _ k inside.1 inside.2]
  · have outside : k < pos ∨ pos + patch.length ≤ k := by omega
    rw [getElem?_overlay_of_outside zero pos patch _ k outside,
      getElem?_overlay_of_outside zero pos patch _ k outside, length_overlay]
    by_cases known : k < dest.length
    · rw [if_neg (by omega), if_neg (by omega),
        getElem?_overlay_of_outside zero inner hidden dest k (by omega), if_neg (by omega)]
    · rcases outside with before | behind
      · rw [if_pos (by omega : dest.length ≤ k ∧ k < pos)]
        by_cases filled : max dest.length (inner + hidden.length) ≤ k ∧ k < pos
        · rw [if_pos filled]
        · rw [if_neg filled, getElem?_overlay_of_outside zero inner hidden dest k (by omega),
            if_pos (by omega)]
      · rw [if_neg (by omega), if_neg (by omega),
          getElem?_overlay_of_outside zero inner hidden dest k (by omega), if_neg (by omega)]

end Overlay
