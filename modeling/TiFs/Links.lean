import TiFs.Directory

namespace TiFs

open KeyValue

/-- An entry holds an inode exactly if that inode has the parent link back. -/
def Mirror (store : Store) : Prop :=
  ∀ parent name ino,
    (∃ item, dirEntry store parent name = some item ∧ item.ino = ino) ↔
      hasParentLink store ino parent name

inductive EntryEdit where
  | add (parent : ParentStorageIno) (name : ByteString) (item : StorageDirItem)
  | remove (parent : ParentStorageIno) (name : ByteString) (item : StorageDirItem)
  deriving DecidableEq, Repr

namespace EntryEdit

def slot : EntryEdit → ParentStorageIno × ByteString
  | add parent name _ => (parent, name)
  | remove parent name _ => (parent, name)

def writes : EntryEdit → List Write
  | add parent name item => addedLinks parent name item
  | remove parent name item => removedLinks parent name item.ino

def Valid (store : Store) : EntryEdit → Prop
  | add parent name _ => dirEntry store parent name = none
  | remove parent name item => dirEntry store parent name = some item

end EntryEdit

section Lookups

variable (store : Store) (parent other : ParentStorageIno) (name entry : ByteString)
  (item : StorageDirItem) (ino childIno : StorageIno)

theorem dirEntry_addedLinks :
    dirEntry (applyAll store (addedLinks parent name item)) other entry =
      if (other, entry) = (parent, name) then some item else dirEntry store other entry := by
  by_cases same : (other, entry) = (parent, name)
  · obtain ⟨rfl, rfl⟩ := Prod.mk.inj same
    simp [dirEntry, addedLinks]
  · have different : Key.directoryChild other entry ≠ Key.directoryChild parent name := by
      intro equal
      obtain ⟨rfl, rfl⟩ := Key.directoryChild.inj equal
      exact same rfl
    simp [dirEntry, addedLinks, same, different]

theorem dirEntry_removedLinks :
    dirEntry (applyAll store (removedLinks parent name childIno)) other entry =
      if (other, entry) = (parent, name) then none else dirEntry store other entry := by
  by_cases same : (other, entry) = (parent, name)
  · obtain ⟨rfl, rfl⟩ := Prod.mk.inj same
    simp [dirEntry, removedLinks]
  · have different : Key.directoryChild other entry ≠ Key.directoryChild parent name := by
      intro equal
      obtain ⟨rfl, rfl⟩ := Key.directoryChild.inj equal
      exact same rfl
    simp [dirEntry, removedLinks, same, different]

theorem hasParentLink_addedLinks :
    hasParentLink (applyAll store (addedLinks parent name item)) ino other entry ↔
      (ino = item.ino ∧ (other, entry) = (parent, name)) ∨ hasParentLink store ino other entry := by
  by_cases same : ino = item.ino ∧ (other, entry) = (parent, name)
  · obtain ⟨rfl, equal⟩ := same
    obtain ⟨rfl, rfl⟩ := Prod.mk.inj equal
    simp [hasParentLink, addedLinks]
  · have different : Key.parentLink ino other entry ≠ Key.parentLink item.ino parent name := by
      intro equal
      obtain ⟨rfl, rfl, rfl⟩ := Key.parentLink.inj equal
      exact same ⟨rfl, rfl⟩
    rw [hasParentLink, addedLinks, applyAll_cons, applyAll_cons, applyAll_nil,
      lookup_put_of_ne _ _ _ _ (by simp), lookup_put_of_ne _ _ _ _ different]
    simp only [same, false_or]
    rfl

theorem hasParentLink_removedLinks :
    hasParentLink (applyAll store (removedLinks parent name childIno)) ino other entry ↔
      ¬ (ino = childIno ∧ (other, entry) = (parent, name)) ∧ hasParentLink store ino other entry := by
  by_cases same : ino = childIno ∧ (other, entry) = (parent, name)
  · obtain ⟨rfl, equal⟩ := same
    obtain ⟨rfl, rfl⟩ := Prod.mk.inj equal
    simp [hasParentLink, removedLinks]
  · have different : Key.parentLink ino other entry ≠ Key.parentLink childIno parent name := by
      intro equal
      obtain ⟨rfl, rfl, rfl⟩ := Key.parentLink.inj equal
      exact same ⟨rfl, rfl⟩
    rw [hasParentLink, removedLinks, applyAll_cons, applyAll_cons, applyAll_nil,
      lookup_delete_of_ne _ _ _ different, lookup_delete_of_ne _ _ _ (by simp)]
    simp only [same, not_false_eq_true, true_and]
    rfl

end Lookups

theorem mirror_empty : Mirror ∅ := by
  intro parent name ino
  constructor
  · rintro ⟨item, found, _⟩
    simp [dirEntry] at found
  · intro linked
    simp [hasParentLink] at linked

theorem mirror_edit {store : Store} (mirrored : Mirror store) {edit : EntryEdit}
    (valid : edit.Valid store) : Mirror (applyAll store edit.writes) := by
  cases edit with
  | add parent name item =>
      intro other entry ino
      simp only [EntryEdit.writes, dirEntry_addedLinks, hasParentLink_addedLinks]
      by_cases same : (other, entry) = (parent, name)
      · obtain ⟨rfl, rfl⟩ := Prod.mk.inj same
        have unlinked : ¬ hasParentLink store ino other entry := by
          intro linked
          obtain ⟨found, stored, _⟩ := (mirrored other entry ino).mpr linked
          rw [show dirEntry store other entry = none from valid] at stored
          cases stored
        simp [unlinked, eq_comm]
      · simp only [same, if_false, and_false, false_or]
        exact mirrored other entry ino
  | remove parent name item =>
      intro other entry ino
      simp only [EntryEdit.writes, dirEntry_removedLinks, hasParentLink_removedLinks]
      by_cases same : (other, entry) = (parent, name)
      · obtain ⟨rfl, rfl⟩ := Prod.mk.inj same
        have owner : hasParentLink store ino other entry → ino = item.ino := by
          intro linked
          obtain ⟨found, stored, holds⟩ := (mirrored other entry ino).mpr linked
          rw [show dirEntry store other entry = some item from valid] at stored
          obtain rfl := Option.some.inj stored
          exact holds.symm
        simp only [if_true, reduceCtorEq, false_and, exists_false, and_true, false_iff, not_and]
        intro unequal linked
        exact unequal (owner linked)
      · simp only [same, if_false, and_false, not_false_eq_true, true_and]
        exact mirrored other entry ino

theorem dirEntry_edit_of_ne (store : Store) (edit : EntryEdit) (parent : ParentStorageIno)
    (name : ByteString) (other : (parent, name) ≠ edit.slot) :
    dirEntry (applyAll store edit.writes) parent name = dirEntry store parent name := by
  cases edit with
  | add above entry item =>
      rw [EntryEdit.writes, dirEntry_addedLinks]
      exact if_neg other
  | remove above entry item =>
      rw [EntryEdit.writes, dirEntry_removedLinks]
      exact if_neg other

theorem EntryEdit.valid_of_dirEntry {store other : Store} {edit : EntryEdit}
    (valid : edit.Valid store)
    (same : dirEntry other edit.slot.1 edit.slot.2 = dirEntry store edit.slot.1 edit.slot.2) :
    edit.Valid other := by
  cases edit with
  | add parent name item => exact same.trans valid
  | remove parent name item => exact same.trans valid

theorem mirror_edits {store : Store} (mirrored : Mirror store) (edits : List EntryEdit)
    (distinct : (edits.map EntryEdit.slot).Nodup) (valid : ∀ edit ∈ edits, edit.Valid store) :
    Mirror (applyAll store (edits.flatMap EntryEdit.writes)) := by
  induction edits generalizing store with
  | nil => exact mirrored
  | cons head tail ih =>
      obtain ⟨fresh, rest⟩ := List.nodup_cons.mp distinct
      rw [List.flatMap_cons, applyAll_append]
      refine ih (mirror_edit mirrored (valid head List.mem_cons_self)) rest ?_
      intro edit member
      refine EntryEdit.valid_of_dirEntry (valid edit (List.mem_cons_of_mem head member)) ?_
      apply dirEntry_edit_of_ne
      intro same
      exact fresh (List.mem_map.mpr ⟨edit, member, same⟩)

end TiFs
