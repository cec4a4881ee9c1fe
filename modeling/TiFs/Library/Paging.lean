import Mathlib.Data.List.Count
import Mathlib.Data.List.Nodup
import Mathlib.Order.Lattice

/-! A list that is read page by page while it changes: every page is cut out of the
list as it is then, behind as many items as all pages before have delivered. -/

namespace Paging

variable {A : Type}

def page (offset room : Nat) (items : List A) : List A := (items.drop offset).take room

/-- The offset behind a page. -/
def next (offset room : Nat) (items : List A) : Nat := offset + (page offset room items).length

/-- What the pages deliver; a call is the list at that time and the room for its page. -/
def delivered : Nat → List (List A × Nat) → List A
  | _, [] => []
  | offset, (items, room) :: rest =>
      page offset room items ++ delivered (next offset room items) rest

/-- The last call finds nothing more. -/
def Complete : Nat → List (List A × Nat) → Prop
  | _, [] => False
  | offset, [(items, _)] => items.length ≤ offset
  | offset, (items, room) :: later :: rest => Complete (next offset room items) (later :: rest)

/-- From one call to the next the item stays on its side of the offset. -/
def Stays (item : A) : Nat → List (List A × Nat) → Prop
  | offset, (items, room) :: (later, laterRoom) :: rest =>
      (item ∈ items.take (next offset room items) ↔ item ∈ later.take (next offset room items)) ∧
        Stays item (next offset room items) ((later, laterRoom) :: rest)
  | _, _ => True

theorem take_next (offset room : Nat) (items : List A) :
    items.take (next offset room items) = items.take offset ++ page offset room items := by
  rw [next, page, List.take_add, List.length_take]
  congr 1
  rw [List.take_eq_take_iff]
  omega

variable [DecidableEq A]

theorem count_of_mem {items front : List A} {item : A} (distinct : items.Nodup)
    (within : front.Sublist items) : front.count item = if item ∈ front then 1 else 0 := by
  rw [(distinct.sublist within).count]

theorem count_page {items : List A} (item : A) (distinct : items.Nodup) (offset room : Nat) :
    (if item ∈ items.take offset then 1 else 0) + (page offset room items).count item =
      if item ∈ items.take (next offset room items) then 1 else 0 := by
  rw [← count_of_mem distinct (List.take_sublist offset items),
    ← count_of_mem distinct (List.take_sublist _ items), take_next, List.count_append]

/-- On the calls: an item in front of the offset has been delivered, any other one will be. -/
theorem count_delivered {item : A} (offset : Nat) (calls : List (List A × Nat))
    (distinct : ∀ call ∈ calls, call.1.Nodup) (present : ∀ call ∈ calls, item ∈ call.1)
    (complete : Complete offset calls) (stays : Stays item offset calls) :
    (if ∀ call ∈ calls.head?, item ∈ call.1.take offset then 1 else 0) +
      (delivered offset calls).count item = 1 := by
  induction calls generalizing offset with
  | nil => exact absurd complete id
  | cons call rest ih =>
      obtain ⟨items, room⟩ := call
      have once := count_page item (distinct (items, room) List.mem_cons_self) offset room
      cases rest with
      | nil =>
          have all : items.take offset = items := List.take_of_length_le complete
          have none : page offset room items = [] := by
            rw [page, List.drop_eq_nil_of_le complete, List.take_nil]
          have inside := present (items, room) List.mem_cons_self
          simp [delivered, all, none, inside]
      | cons later rest =>
          obtain ⟨laterItems, laterRoom⟩ := later
          have after := ih (next offset room items)
            (fun call member => distinct call (List.mem_cons_of_mem _ member))
            (fun call member => present call (List.mem_cons_of_mem _ member)) complete stays.2
          simp only [List.head?_cons, Option.mem_def, Option.some.injEq, forall_eq', ← stays.1] at after ⊢
          rw [delivered, List.count_append, ← Nat.add_assoc, once]
          exact after

/-- With no item of the list twice, an item that every call finds is delivered once, if
it stays on its side of the offsets. -/
theorem delivered_once {item : A} (calls : List (List A × Nat))
    (distinct : ∀ call ∈ calls, call.1.Nodup) (present : ∀ call ∈ calls, item ∈ call.1)
    (complete : Complete 0 calls) (stays : Stays item 0 calls) :
    (delivered 0 calls).count item = 1 := by
  have counted := count_delivered 0 calls distinct present complete stays
  cases calls with
  | nil => exact absurd complete id
  | cons call rest =>
      simpa using counted

end Paging
