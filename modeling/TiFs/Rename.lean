import TiFs.HashFsError
import TiFs.Links

namespace TiFs

open KeyValue

/-- The spinning mini transaction of one caller. Attempts whose commit failed
left nothing behind, so only the last one counts; `commit` is the error of its
commit when the backoff is used up. -/
def spinningMiniTxn {A : Type} (commit : Option FsError) (body : Mini A) (store : Store) :
    Except HashFsError A × Store :=
  match atomically body store, commit with
  | .error issue, _ => (.error (.ofFsError issue), store)
  | .ok _, some issue => (.error (.ofFsError issue), store)
  | .ok (result, after), none => (.ok result, after)

def HashFs.directoryRenameChild (commit : Option FsError) (store : Store)
    (parent : ParentStorageIno) (rawName : ByteString) (newParent : ParentStorageIno)
    (newRawName : ByteString) : Except HashFsError Unit × Store :=
  match checkFileName rawName, checkFileName newRawName with
  | .error issue, _ => (.error (.ofFsError issue), store)
  | .ok (), .error issue => (.error (.ofFsError issue), store)
  | .ok (), .ok () =>
      spinningMiniTxn commit (TiFs.directoryRenameChild parent rawName newParent newRawName) store

/-- What a rename of an entry with inode `ino` promises of its result and of the
store it leaves. -/
structure RenameLaw (store : Store) (parent : ParentStorageIno) (name : ByteString)
    (newParent : ParentStorageIno) (newName : ByteString) (ino : StorageIno)
    (outcome : Except HashFsError Unit × Store) : Prop where
  moved : outcome.1 = .ok () → ∃ item, dirEntry outcome.2 newParent newName = some item ∧ item.ino = ino
  absent : outcome.1 = .ok () → (parent, name) ≠ (newParent, newName) →
    dirEntry outcome.2 parent name = none
  unchanged : outcome.1 = .ok () → (parent, name) = (newParent, newName) →
    ∀ above entry, dirEntry outcome.2 above entry = dirEntry store above entry
  others : outcome.1 = .ok () → ∀ above entry, (above, entry) ≠ (parent, name) →
    (above, entry) ≠ (newParent, newName) → dirEntry outcome.2 above entry = dirEntry store above entry
  failed : ∀ issue, outcome.1 = .error issue →
    ∀ above entry, dirEntry outcome.2 above entry = dirEntry store above entry

section Rename

variable {store : Store} {parent newParent : ParentStorageIno} {name newName : ByteString}
  {item : StorageDirItem}

theorem renameLaw_of_error {ino : StorageIno} (issue : HashFsError) :
    RenameLaw store parent name newParent newName ino (.error issue, store) where
  moved := by intro done; cases done
  absent := by intro done; cases done
  unchanged := by intro done; cases done
  others := by intro done; cases done
  failed := by
    intro _ _ above entry
    rfl

theorem renameLaw_moved {desc : InoDescription} (found : dirEntry store parent name = some item)
    (free : dirEntry store newParent newName = none) :
    RenameLaw store parent name newParent newName item.ino
      (.ok (), applyAll store (addedLinks newParent newName ⟨item.ino, desc.typ⟩ ++
        removedLinks parent name item.ino)) := by
  have different : (newParent, newName) ≠ (parent, name) := by
    intro same
    obtain ⟨rfl, rfl⟩ := Prod.mk.inj same
    rw [found] at free
    cases free
  constructor <;> simp only [applyAll_append, dirEntry_removedLinks, dirEntry_addedLinks]
  · intro _
    exact ⟨⟨item.ino, desc.typ⟩, by rw [if_neg different, if_pos trivial], rfl⟩
  · intro _ _
    exact if_pos trivial
  · intro _ same
    exact absurd same.symm different
  · intro _ above entry elsewhere notTarget
    rw [if_neg elsewhere, if_neg notTarget]
  · intro issue failed
    cases failed

theorem renameLaw_existed_iff {existing : StorageDirItem}
    (target : dirEntry store newParent newName = some existing) :
    RenameLaw store parent name newParent newName item.ino
        (.ok (), applyAll store (removedLinks parent name item.ino)) ↔
      (parent, name) ≠ (newParent, newName) ∧ existing.ino = item.ino := by
  constructor
  · intro law
    obtain ⟨entry, stored, holds⟩ := law.moved rfl
    rw [dirEntry_removedLinks] at stored
    split at stored
    · cases stored
    · next different =>
        rw [target] at stored
        obtain rfl := Option.some.inj stored
        exact ⟨fun same => different same.symm, holds⟩
  · rintro ⟨different, holds⟩
    constructor <;> simp only [dirEntry_removedLinks]
    · intro _
      rw [if_neg (fun same => different same.symm)]
      exact ⟨existing, target, holds⟩
    · intro _ _
      exact if_pos trivial
    · intro _ same
      exact absurd same different
    · intro _ above entry elsewhere _
      exact if_neg elsewhere
    · intro issue failed
      cases failed

/-- The rename keeps its law exactly if a name is refused, the new name is free,
or the new name is another entry of the same inode. -/
theorem directoryRenameChild_law_iff (found : dirEntry store parent name = some item) :
    (∀ commit, RenameLaw store parent name newParent newName item.ino
        (HashFs.directoryRenameChild commit store parent name newParent newName)) ↔
      maxNameLen < name.length ∨ maxNameLen < newName.length ∨
        dirEntry store newParent newName = none ∨
        ((parent, name) ≠ (newParent, newName) ∧
          ∃ existing, dirEntry store newParent newName = some existing ∧
            existing.ino = item.ino) := by
  by_cases longName : maxNameLen < name.length
  · have refused : ∀ commit, HashFs.directoryRenameChild commit store parent name newParent newName =
        (.error (.ofFsError (.nameTooLong name)), store) := by
      intro commit
      simp only [HashFs.directoryRenameChild, checkFileName, Nat.not_le.mpr longName, if_false]
    simp only [refused, longName, true_or, iff_true]
    intro _
    exact renameLaw_of_error _
  by_cases longNewName : maxNameLen < newName.length
  · have refused : ∀ commit, HashFs.directoryRenameChild commit store parent name newParent newName =
        (.error (.ofFsError (.nameTooLong newName)), store) := by
      intro commit
      simp only [HashFs.directoryRenameChild, checkFileName, Nat.not_lt.mp longName,
        Nat.not_le.mpr longNewName, if_true, if_false]
    simp only [refused, longNewName, true_or, or_true, iff_true]
    intro _
    exact renameLaw_of_error _
  have accepted : ∀ commit, HashFs.directoryRenameChild commit store parent name newParent newName =
      spinningMiniTxn commit (directoryRenameChild parent name newParent newName) store := by
    intro commit
    simp only [HashFs.directoryRenameChild, checkFileName, Nat.not_lt.mp longName,
      Nat.not_lt.mp longNewName, if_true]
  simp only [accepted, longName, longNewName, false_or]
  -- A failing commit is covered by its error; the cases below are about the commit that succeeds.
  cases target : dirEntry store newParent newName with
  | none =>
      simp only [true_or, iff_true]
      intro commit
      cases stored : inoDescription store item.ino with
      | none =>
          have ran : directoryRenameChild parent name newParent newName ⟨store, []⟩ = _ :=
            rename_noDescription found target stored
          simp only [spinningMiniTxn, atomically, ran]
          exact renameLaw_of_error _
      | some desc =>
          have moved : directoryRenameChild parent name newParent newName ⟨store, []⟩ = _ :=
            rename_moved found target stored
          have ran := atomically_eq_ok moved
          cases commit with
          | none =>
              simp only [spinningMiniTxn, ran, Txn.view_mutate, Txn.view_start]
              exact renameLaw_moved found target
          | some issue =>
              simp only [spinningMiniTxn, ran]
              exact renameLaw_of_error _
  | some existing =>
      have removed : directoryRenameChild parent name newParent newName ⟨store, []⟩ = _ :=
        rename_existed found target
      have ran := atomically_eq_ok removed
      have committed : spinningMiniTxn none
          (directoryRenameChild parent name newParent newName) store =
          (.ok (), applyAll store (removedLinks parent name item.ino)) := by
        simp only [spinningMiniTxn, ran, Txn.view_mutate, Txn.view_start]
      simp only [reduceCtorEq, false_or, Option.some.injEq, exists_eq_left']
      rw [← renameLaw_existed_iff target, ← committed]
      constructor
      · intro law
        exact law none
      · intro law commit
        cases commit with
        | none => exact law
        | some issue =>
            simp only [spinningMiniTxn, ran]
            exact renameLaw_of_error _

end Rename

def twoFiles : Store :=
  applyAll ∅ ([EntryEdit.add rootInode [97] ⟨10, .file⟩, EntryEdit.add rootInode [98] ⟨11, .file⟩].flatMap
    EntryEdit.writes)

theorem mirror_twoFiles : Mirror twoFiles := by
  apply mirror_edits mirror_empty
  · decide
  · intro edit member
    rcases List.mem_pair.mp member with rfl | rfl <;> rfl

/-- Renaming `a` onto `b` reports success, keeps `b` and loses `a`. -/
theorem directoryRenameChild_law_fails :
    ¬ ∀ (store : Store) (parent : ParentStorageIno) (name : ByteString)
        (newParent : ParentStorageIno) (newName : ByteString) (item : StorageDirItem)
        (commit : Option FsError), Mirror store → dirEntry store parent name = some item →
      RenameLaw store parent name newParent newName item.ino
        (HashFs.directoryRenameChild commit store parent name newParent newName) := by
  intro law
  have broken := (law twoFiles rootInode [97] rootInode [98] ⟨10, .file⟩ none mirror_twoFiles
    (by decide)).moved (by decide)
  revert broken
  have kept : dirEntry (HashFs.directoryRenameChild none twoFiles rootInode [97] rootInode [98]).2
      rootInode [98] = some ⟨11, .file⟩ := by decide
  rw [kept]
  decide

def describedFiles : Store :=
  applyAll twoFiles [Mutation.put (.inodeX 10 .description) ⟨10, .file, 5⟩]

/-- A free new name: the file moves. -/
theorem directoryRenameChild_law_free :
    (HashFs.directoryRenameChild none describedFiles rootInode [97] rootInode [99]).1 = .ok () ∧
      RenameLaw describedFiles rootInode [97] rootInode [99] 10
        (HashFs.directoryRenameChild none describedFiles rootInode [97] rootInode [99]) ∧
      (∃ item, dirEntry (HashFs.directoryRenameChild none describedFiles rootInode [97] rootInode [99]).2
        rootInode [99] = some item ∧ item.ino = 10) ∧
      dirEntry (HashFs.directoryRenameChild none describedFiles rootInode [97] rootInode [99]).2
        rootInode [97] = none := by
  have found : dirEntry describedFiles rootInode [97] = some ⟨10, .file⟩ := by decide
  have law := (directoryRenameChild_law_iff found).mpr
    (Or.inr (Or.inr (Or.inl (show dirEntry describedFiles rootInode [99] = none by decide)))) none
  have done : (HashFs.directoryRenameChild none describedFiles rootInode [97] rootInode [99]).1 = .ok () := by decide
  exact ⟨done, law, law.moved done, law.absent done (by decide)⟩

end TiFs
