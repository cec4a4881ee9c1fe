import Mathlib.Algebra.BigOperators.Group.List.Basic
import Mathlib.Algebra.GroupWithZero.Nat
import Mathlib.Data.Set.Finite.Basic
import Mathlib.Logic.Relation
import Mathlib.Order.Preorder.Finite
import Mathlib.Order.WellFounded

/-! Graphs without cycles: what edges may be added to them, and how much is left to
visit below a node of a finite one. -/

namespace Forest

open Relation

universe u

variable {Node : Type u} {Edge Later : Node → Node → Prop}

def Acyclic (Edge : Node → Node → Prop) : Prop := ∀ node, ¬ TransGen Edge node node

theorem Acyclic.mono (acyclic : Acyclic Edge) (fewer : ∀ node next, Later node next → Edge node next) :
    Acyclic Later := by
  intro node cycle
  exact acyclic node (TransGen.mono fewer node node cycle)

/-- A path with one more edge to take passes it or does without it. -/
theorem path_of_added {source target : Node}
    (added : ∀ node next, Later node next → Edge node next ∨ node = source ∧ next = target)
    {first last : Node} (path : TransGen Later first last) :
    TransGen Edge first last ∨ ReflTransGen Edge first source ∧ ReflTransGen Edge target last := by
  induction path with
  | single edge =>
      rcases added _ _ edge with old | ⟨rfl, rfl⟩
      · exact Or.inl (TransGen.single old)
      · exact Or.inr ⟨ReflTransGen.refl, ReflTransGen.refl⟩
  | tail _ edge ih =>
      rcases added _ _ edge with old | ⟨rfl, rfl⟩
      · rcases ih with without | ⟨before, behind⟩
        · exact Or.inl (without.tail old)
        · exact Or.inr ⟨before, behind.tail old⟩
      · rcases ih with without | ⟨before, _⟩
        · exact Or.inr ⟨without.to_reflTransGen, ReflTransGen.refl⟩
        · exact Or.inr ⟨before, ReflTransGen.refl⟩

/-- An edge to a node from which its source is not reached closes no cycle. -/
theorem Acyclic.add {source target : Node} (acyclic : Acyclic Edge)
    (added : ∀ node next, Later node next → Edge node next ∨ node = source ∧ next = target)
    (apart : ¬ ReflTransGen Edge target source) : Acyclic Later := by
  intro node cycle
  rcases path_of_added added cycle with without | ⟨before, behind⟩
  · exact acyclic node without
  · exact apart (behind.trans before)

theorem path_of_chain {chain : ℕ → Node} (edges : ∀ i, Edge (chain i) (chain (i + 1))) (i count : ℕ) :
    TransGen Edge (chain i) (chain (i + count + 1)) := by
  induction count with
  | zero => exact TransGen.single (edges i)
  | succ count ih => exact ih.tail (edges (i + count + 1))

/-- Where only finitely many nodes have an edge, no walk along edges goes on forever. -/
theorem Acyclic.wellFounded (acyclic : Acyclic Edge) (finite : {node | ∃ next, Edge node next}.Finite) :
    WellFounded fun next node => Edge node next := by
  rw [wellFounded_iff_isEmpty_descending_chain]
  constructor
  intro walk
  obtain ⟨chain, edges⟩ := walk
  have inside : ∀ i, chain i ∈ {node | ∃ next, Edge node next} := fun i => ⟨chain (i + 1), edges i⟩
  obtain ⟨i, j, before, again⟩ := Set.Finite.exists_lt_map_eq_of_forall_mem inside finite
  obtain ⟨count, isLater⟩ := Nat.exists_eq_add_of_lt before
  have cycle := path_of_chain edges i count
  rw [← isLater, ← again] at cycle
  exact acyclic _ cycle

section Weight

variable (successors : Node → List Node) (cost : Node → ℕ)
  (wellFounded : WellFounded fun next node => next ∈ successors node)

/-- The cost of a node and of all that is below it. -/
noncomputable def weight : Node → ℕ :=
  wellFounded.fix fun node below =>
    cost node + ((successors node).attach.map fun next => below next.1 next.2).sum

theorem weight_eq (node : Node) :
    weight successors cost wellFounded node =
      cost node + ((successors node).map (weight successors cost wellFounded)).sum := by
  rw [weight, WellFounded.fix_eq]
  congr 2
  exact List.attach_map_val

end Weight

end Forest
