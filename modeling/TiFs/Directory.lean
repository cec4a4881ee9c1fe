import Mathlib.Data.Finset.Sort
import Mathlib.Data.List.Lex
import Mathlib.Order.Lattice
import TiFs.Store

/-! The directory and inode part of `TransactionWithFsConfig`: every body reads
from its transaction's view and buffers its writes there. -/

namespace TiFs

open KeyValue

inductive GotOrMade (R : Type) where
  | existedAlready (value : R)
  | newlyCreated (value : R)
  deriving DecidableEq, Repr

def GotOrMade.existedBefore {R : Type} : GotOrMade R → Bool
  | .existedAlready _ => true
  | .newlyCreated _ => false

inductive DeletionCheckResult where
  | stillUsed
  | deletedInoDesc
  deriving DecidableEq, Repr

/-- The arguments of `directory_add_child_checked_new_inode` but for the number. -/
structure NewInode where
  parent : ParentStorageIno
  name : ByteString
  typ : StorageDirItemKind
  perm : Nat
  gid : Nat
  uid : Nat
  rdev : Nat
  inlineData : Option Bytes
  deriving DecidableEq, Repr

/-- Names are ordered as TiKV orders their bytes. -/
def NameLe (a b : ByteString) : Prop := a.map UInt8.toNat ≤ b.map UInt8.toNat

instance : DecidableRel NameLe := fun a b =>
  inferInstanceAs (Decidable (a.map UInt8.toNat ≤ b.map UInt8.toNat))

instance : IsTrans ByteString NameLe := ⟨fun _ _ _ first second => le_trans first second⟩

instance : Std.Antisymm NameLe := ⟨fun _ _ first second =>
  List.map_injective_iff.mpr (fun _ _ same => UInt8.toNat_inj.mp same) (le_antisymm first second)⟩

instance : Std.Total NameLe := ⟨fun _ _ => le_total _ _⟩

def childNames (store : Store) (dirIno : StorageIno) : Finset ByteString :=
  store.keys.biUnion fun
    | .directoryChild parent name => if parent = dirIno then {name} else ∅
    | _ => ∅

def parentLinks (store : Store) (ino : StorageIno) : Finset (ParentStorageIno × ByteString) :=
  store.keys.biUnion fun
    | .parentLink child parent name => if child = ino then {(parent, name)} else ∅
    | _ => ∅

theorem mem_childNames (store : Store) (dirIno : StorageIno) (name : ByteString) :
    name ∈ childNames store dirIno ↔ dirEntry store dirIno name ≠ none := by
  rw [childNames, Finset.mem_biUnion, dirEntry, ne_eq, Finmap.lookup_eq_none, not_not,
    ← Finmap.mem_keys]
  constructor
  · rintro ⟨key, stored, listed⟩
    cases key with
    | directoryChild parent child =>
        by_cases same : parent = dirIno
        · simp only [same, if_true, Finset.mem_singleton] at listed
          rwa [listed, ← same]
        · simp [same] at listed
    | _ => simp at listed
  · intro stored
    exact ⟨_, stored, by simp⟩

theorem mem_parentLinks (store : Store) (ino : StorageIno) (parent : ParentStorageIno)
    (name : ByteString) :
    (parent, name) ∈ parentLinks store ino ↔ hasParentLink store ino parent name := by
  have unit : hasParentLink store ino parent name ↔ Key.parentLink ino parent name ∈ store.keys := by
    rw [hasParentLink, Finmap.mem_keys, ← Finmap.lookup_isSome]
    cases store.lookup (Key.parentLink ino parent name) <;> simp
  rw [unit, parentLinks, Finset.mem_biUnion]
  constructor
  · rintro ⟨key, stored, listed⟩
    cases key with
    | parentLink child above entry =>
        by_cases same : child = ino
        · simp only [same, if_true, Finset.mem_singleton, Prod.mk.injEq] at listed
          rwa [listed.1, listed.2, ← same]
        · simp [same] at listed
    | _ => simp at listed
  · intro stored
    exact ⟨_, stored, by simp⟩

theorem scan_nonempty (store : Store) (dirIno : StorageIno) (entry : ByteString)
    (present : dirEntry store dirIno entry ≠ none) {limit : Nat} (positive : 0 < limit) :
    0 < ((((childNames store dirIno).sort NameLe).take limit).filterMap fun name =>
      (dirEntry store dirIno name).map fun item =>
        (⟨item.ino, name, item.typ⟩ : DirectoryItem)).length := by
  have listed : entry ∈ (childNames store dirIno).sort NameLe := by
    rw [Finset.mem_sort, mem_childNames]
    exact present
  obtain ⟨first, rest, names⟩ := List.exists_cons_of_ne_nil (List.ne_nil_of_mem listed)
  have firstListed : first ∈ (childNames store dirIno).sort NameLe := by
    rw [names]
    exact List.mem_cons_self
  rw [Finset.mem_sort, mem_childNames, Option.ne_none_iff_exists'] at firstListed
  obtain ⟨item, stored⟩ := firstListed
  obtain ⟨more, rfl⟩ := Nat.exists_eq_succ_of_ne_zero positive.ne'
  rw [names, List.take_succ_cons, List.filterMap_cons_some (b := ⟨item.ino, first, item.typ⟩)]
  · simp
  · rw [stored]
    rfl

def checkFileName (name : ByteString) : Except FsError Unit :=
  if name.length ≤ maxNameLen then .ok () else .error (.nameTooLong name)

def metaStaticMutableInit (cfg : TiFsConfig) : Mini Unit := do
  put .metaStatic ⟨cfg.blockSize, cfg.hashedBlocks, cfg.hashAlgorithm⟩
  put .metaMutable ⟨firstDataInode⟩

def metaMutableReserveNewInos (cfg : TiFsConfig) (count : Nat) : Mini StorageIno := do
  match ← fetchTry .metaMutable with
  | none =>
      -- The first reservation of a blank file system is for the root inode.
      metaStaticMutableInit cfg
      return rootInode
  | some dynMeta =>
      put .metaMutable ⟨dynMeta.inodeNext + count⟩
      return dynMeta.inodeNext

def metaMutableReserveNewIno (cfg : TiFsConfig) : Mini StorageIno :=
  metaMutableReserveNewInos cfg 1

def directoryGetChild (parent : ParentStorageIno) (name : ByteString) :
    Mini (Option StorageDirItem) :=
  fetchTry (.directoryChild parent name)

/-- A name is valid UTF-8 already, so `from_utf8_lossy` leaves it as it is. -/
def directoryScanForChildren (dirIno : StorageIno) (limit : Nat) : Mini (List DirectoryItem) :=
  fun txn => .ok ((((childNames txn.view dirIno).sort NameLe).take limit).filterMap fun name =>
    (dirEntry txn.view dirIno name).map fun item => ⟨item.ino, name, item.typ⟩, txn)

def directoryAddChildLinkUnchecked (parent : ParentStorageIno) (name : ByteString)
    (item : StorageDirItem) : Mini Unit := do
  put (.parentLink item.ino parent name) ()
  put (.directoryChild parent name) item

def directoryAddChildCheckedExistingInode (parent : ParentStorageIno) (name : ByteString)
    (ino : StorageIno) : Mini (GotOrMade StorageDirItem) := do
  match ← directoryGetChild parent name with
  | some existing => return .existedAlready existing
  | none =>
      let inoDesc ← fetch (.inodeX ino .description)
      directoryAddChildLinkUnchecked parent name ⟨ino, inoDesc.typ⟩
      return .newlyCreated ⟨ino, inoDesc.typ⟩

def directoryAddChildCheckedNewInode (args : NewInode) (newIno : StorageIno) (now : SystemTime) :
    Mini (GotOrMade StorageDirItem) := do
  match ← directoryGetChild args.parent args.name with
  | some existing => return .existedAlready existing
  | none =>
      put (.inodeX newIno .description) ⟨newIno, args.typ, now⟩
      put (.inodeX newIno .unixAttributes) ⟨args.perm, args.uid, args.gid, args.rdev, 0, now⟩
      put (.inodeX newIno .size) (InoSize.new now)
      put (.directoryChild args.parent args.name) ⟨newIno, args.typ⟩
      put (.parentLink newIno args.parent args.name) ()
      match args.inlineData with
      | some data => put (.inodeX newIno .inlineData) ⟨data, now⟩
      | none => pure ()
      return .newlyCreated ⟨newIno, args.typ⟩

def directoryRemoveChildLinksUnchecked (parent : ParentStorageIno) (name : ByteString)
    (childIno : StorageIno) : Mini Unit :=
  batchMutate [Mutation.delete (.directoryChild parent name),
    Mutation.delete (.parentLink childIno parent name)]

def directoryRemoveChild (parent : ParentStorageIno) (name : ByteString)
    (allowedTypes : List StorageDirItemKind) : Mini StorageDirItem := do
  match ← directoryGetChild parent name with
  | none => throw (.fileNotFound name)
  | some childItem =>
      if childItem.typ ∉ allowedTypes then throw .wrongFileType
      directoryRemoveChildLinksUnchecked parent name childItem.ino
      return childItem

def directoryRemoveChildEmptyDirectory (parent : ParentStorageIno) (name : ByteString) :
    Mini StorageDirItem := do
  match ← directoryGetChild parent name with
  | none => throw (.fileNotFound name)
  | some childItem =>
      if childItem.typ ≠ .directory then throw .wrongFileType
      -- One entry is enough to know that the directory is not empty.
      let children ← directoryScanForChildren childItem.ino 1
      if children.length > 0 then throw (.dirNotEmpty name)
      directoryRemoveChildLinksUnchecked parent name childItem.ino
      return childItem

/-- The outcome of the checked add is not looked at. -/
def directoryRenameChild (parent : ParentStorageIno) (name : ByteString)
    (newParent : ParentStorageIno) (newName : ByteString) : Mini Unit := do
  match ← directoryGetChild parent name with
  | none => throw (.fileNotFound name)
  | some dirItem =>
      let _ ← directoryAddChildCheckedExistingInode newParent newName dirItem.ino
      let _ ← directoryRemoveChild parent name [dirItem.typ]
      return ()

def inodeCheckForDeleteAndDeleteAtomicallyDescription (ino : StorageIno) :
    Mini DeletionCheckResult := do
  let txn ← get
  let usageCount := min (parentLinks txn.view ino).card maxTikvScanLimit
  if usageCount = 0 then
    delete (.inodeX ino .description)
    return .deletedInoDesc
  else
    return .stillUsed

def inodeOpen (ino : StorageIno) (useId : Uuid) : Mini Unit := do
  let inoDesc ← fetch (.inodeX ino .description)
  let result ← directoryAddChildCheckedExistingInode openedInodeParentInode (uuidToString useId)
    inoDesc.ino
  if result.existedBefore then throw (.fileExist (uuidToString useId))

def inodeClose (ino : StorageIno) (useId : Uuid) : Mini Unit := do
  let result ← directoryRemoveChild openedInodeParentInode (uuidToString useId)
    [.directory, .file, .symlink]
  -- The error rolls the removal back.
  if result.ino ≠ ino then throw .closeFailedDueToWrongInoOrUseId

/-- `readlink` returns the bytes as they are. -/
def inodeReadInlineData (ino : StorageIno) : Mini Bytes := do
  let inoInlineData ← fetch (.inodeX ino .inlineData)
  return InoInlineData.inlined inoInlineData

/-! What the bodies do, case by case. A case that throws leaves nothing behind,
because its transaction is rolled back. -/

section Outcomes

variable {txn : Txn Key.Value} {parent newParent : ParentStorageIno} {name newName : ByteString}
  {ino : StorageIno}

def addedLinks (parent : ParentStorageIno) (name : ByteString) (item : StorageDirItem) :
    List Write :=
  [Mutation.put (.parentLink item.ino parent name) (), Mutation.put (.directoryChild parent name) item]

def removedLinks (parent : ParentStorageIno) (name : ByteString) (childIno : StorageIno) :
    List Write :=
  [Mutation.delete (.directoryChild parent name), Mutation.delete (.parentLink childIno parent name)]

theorem getChild_run {entry : Option StorageDirItem}
    (found : dirEntry txn.view parent name = entry) :
    directoryGetChild parent name txn = .ok (entry, txn) := by
  rw [← found]
  rfl

theorem addLink_run (item : StorageDirItem) :
    directoryAddChildLinkUnchecked parent name item txn =
      .ok ((), txn.mutate (addedLinks parent name item)) := by
  have first : put (.parentLink item.ino parent name) () txn =
      .ok ((), txn.mutate [Mutation.put (.parentLink item.ino parent name) ()]) := rfl
  rw [directoryAddChildLinkUnchecked, bind_ok first]
  change Except.ok ((), (txn.mutate _).mutate _) = _
  rw [Txn.mutate_mutate]
  rfl

theorem addExisting_existed {existing : StorageDirItem}
    (found : dirEntry txn.view parent name = some existing) :
    directoryAddChildCheckedExistingInode parent name ino txn =
      .ok (.existedAlready existing, txn) := by
  rw [directoryAddChildCheckedExistingInode, bind_ok (getChild_run found)]
  rfl

theorem addExisting_missing (free : dirEntry txn.view parent name = none)
    (missing : inoDescription txn.view ino = none) :
    directoryAddChildCheckedExistingInode parent name ino txn =
      .error (.keyNotFound (some (.inodeX ino .description))) := by
  rw [directoryAddChildCheckedExistingInode, bind_ok (getChild_run free)]
  exact bind_error (fetch_of_none missing)

theorem addExisting_created {desc : InoDescription} (free : dirEntry txn.view parent name = none)
    (stored : inoDescription txn.view ino = some desc) :
    directoryAddChildCheckedExistingInode parent name ino txn =
      .ok (.newlyCreated ⟨ino, desc.typ⟩, txn.mutate (addedLinks parent name ⟨ino, desc.typ⟩)) := by
  rw [directoryAddChildCheckedExistingInode, bind_ok (getChild_run free)]
  change (fetch (Key.inodeX ino InoMetadata.description) >>= _) txn = _
  rw [bind_ok (fetch_of_some stored)]
  rw [bind_ok (addLink_run _)]
  rfl

theorem removeChild_missing {allowedTypes : List StorageDirItemKind}
    (free : dirEntry txn.view parent name = none) :
    directoryRemoveChild parent name allowedTypes txn = .error (.fileNotFound name) := by
  rw [directoryRemoveChild, bind_ok (getChild_run free)]
  rfl

theorem removeChild_wrongType {allowedTypes : List StorageDirItemKind} {item : StorageDirItem}
    (found : dirEntry txn.view parent name = some item) (refused : item.typ ∉ allowedTypes) :
    directoryRemoveChild parent name allowedTypes txn = .error .wrongFileType := by
  rw [directoryRemoveChild, bind_ok (getChild_run found)]
  simp only [refused, not_false_eq_true, if_true]
  rfl

theorem removeChild_removed {allowedTypes : List StorageDirItemKind} {item : StorageDirItem}
    (found : dirEntry txn.view parent name = some item) (accepted : item.typ ∈ allowedTypes) :
    directoryRemoveChild parent name allowedTypes txn =
      .ok (item, txn.mutate (removedLinks parent name item.ino)) := by
  rw [directoryRemoveChild, bind_ok (getChild_run found)]
  simp only [accepted, not_true_eq_false, if_false]
  rfl

theorem rename_missing (free : dirEntry txn.view parent name = none) :
    directoryRenameChild parent name newParent newName txn = .error (.fileNotFound name) := by
  rw [directoryRenameChild, bind_ok (getChild_run free)]
  rfl

/-- A present target keeps its inode and the source entry is removed all the same. -/
theorem rename_existed {item existing : StorageDirItem}
    (found : dirEntry txn.view parent name = some item)
    (target : dirEntry txn.view newParent newName = some existing) :
    directoryRenameChild parent name newParent newName txn =
      .ok ((), txn.mutate (removedLinks parent name item.ino)) := by
  have removed := removeChild_removed found (List.mem_singleton.mpr rfl)
  rw [directoryRenameChild, bind_ok (getChild_run found)]
  change (directoryAddChildCheckedExistingInode newParent newName item.ino >>= _) txn = _
  rw [bind_ok (addExisting_existed target)]
  rw [bind_ok removed]
  rfl

theorem rename_noDescription {item : StorageDirItem}
    (found : dirEntry txn.view parent name = some item)
    (free : dirEntry txn.view newParent newName = none)
    (missing : inoDescription txn.view item.ino = none) :
    directoryRenameChild parent name newParent newName txn =
      .error (.keyNotFound (some (.inodeX item.ino .description))) := by
  rw [directoryRenameChild, bind_ok (getChild_run found)]
  exact bind_error (addExisting_missing free missing)

theorem rename_moved {item : StorageDirItem} {desc : InoDescription}
    (found : dirEntry txn.view parent name = some item)
    (free : dirEntry txn.view newParent newName = none)
    (stored : inoDescription txn.view item.ino = some desc) :
    directoryRenameChild parent name newParent newName txn =
      .ok ((), txn.mutate (addedLinks newParent newName ⟨item.ino, desc.typ⟩ ++
        removedLinks parent name item.ino)) := by
  have different : Key.directoryChild parent name ≠ Key.directoryChild newParent newName := by
    intro same
    obtain ⟨rfl, rfl⟩ := Key.directoryChild.inj same
    rw [found] at free
    cases free
  have still : dirEntry (txn.mutate (addedLinks newParent newName ⟨item.ino, desc.typ⟩)).view
      parent name = some item := by
    rw [Txn.view_mutate, dirEntry, lookup_applyAll_of_notMem]
    · exact found
    · simp only [addedLinks, List.map_cons, List.map_nil, Mutation.put_key, List.mem_cons,
        List.not_mem_nil, or_false, reduceCtorEq, false_or]
      exact different
  have removed := removeChild_removed still (List.mem_singleton.mpr rfl)
  rw [directoryRenameChild, bind_ok (getChild_run found)]
  change (directoryAddChildCheckedExistingInode newParent newName item.ino >>= _) txn = _
  rw [bind_ok (addExisting_created free stored)]
  rw [bind_ok removed, Txn.mutate_mutate]
  rfl

def initWrites (cfg : TiFsConfig) : List Write :=
  [Mutation.put .metaStatic ⟨cfg.blockSize, cfg.hashedBlocks, cfg.hashAlgorithm⟩,
   Mutation.put .metaMutable ⟨firstDataInode⟩]

def createdWrites (args : NewInode) (newIno : StorageIno) (now : SystemTime) : List Write :=
  [Mutation.put (.inodeX newIno .description) ⟨newIno, args.typ, now⟩,
   Mutation.put (.inodeX newIno .unixAttributes) ⟨args.perm, args.uid, args.gid, args.rdev, 0, now⟩,
   Mutation.put (.inodeX newIno .size) (InoSize.new now),
   Mutation.put (.directoryChild args.parent args.name) ⟨newIno, args.typ⟩,
   Mutation.put (.parentLink newIno args.parent args.name) ()] ++
  match args.inlineData with
  | some data => [Mutation.put (.inodeX newIno .inlineData) ⟨data, now⟩]
  | none => []

theorem reserve_blank (cfg : TiFsConfig) (blank : txn.view.lookup .metaMutable = none) :
    metaMutableReserveNewIno cfg txn = .ok (rootInode, txn.mutate (initWrites cfg)) := by
  have read : fetchTry .metaMutable txn = .ok (none, txn) := by
    rw [← blank]
    rfl
  rw [metaMutableReserveNewIno, metaMutableReserveNewInos, bind_ok read]
  change Except.ok (rootInode, (txn.mutate _).mutate _) = _
  rw [Txn.mutate_mutate]
  rfl

theorem reserve_next (cfg : TiFsConfig) {dynMeta : MetaMutable}
    (stored : txn.view.lookup .metaMutable = some dynMeta) :
    metaMutableReserveNewIno cfg txn =
      .ok (dynMeta.inodeNext, txn.mutate [Mutation.put .metaMutable ⟨dynMeta.inodeNext + 1⟩]) := by
  have read : fetchTry .metaMutable txn = .ok (some dynMeta, txn) := by
    rw [← stored]
    rfl
  rw [metaMutableReserveNewIno, metaMutableReserveNewInos, bind_ok read]
  rfl

theorem addNew_existed {args : NewInode} {newIno : StorageIno} {now : SystemTime}
    {existing : StorageDirItem} (found : dirEntry txn.view args.parent args.name = some existing) :
    directoryAddChildCheckedNewInode args newIno now txn = .ok (.existedAlready existing, txn) := by
  rw [directoryAddChildCheckedNewInode, bind_ok (getChild_run found)]
  rfl

theorem addNew_created {args : NewInode} {newIno : StorageIno} {now : SystemTime}
    (free : dirEntry txn.view args.parent args.name = none) :
    directoryAddChildCheckedNewInode args newIno now txn =
      .ok (.newlyCreated ⟨newIno, args.typ⟩, txn.mutate (createdWrites args newIno now)) := by
  rw [directoryAddChildCheckedNewInode, bind_ok (getChild_run free)]
  rcases args with ⟨parent, name, typ, perm, gid, uid, rdev, _ | data⟩
  · change Except.ok (_, ((((txn.mutate _).mutate _).mutate _).mutate _).mutate _) = _
    simp only [Txn.mutate_mutate]
    rfl
  · change Except.ok (_, (((((txn.mutate _).mutate _).mutate _).mutate _).mutate _).mutate _) = _
    simp only [Txn.mutate_mutate]
    rfl

theorem removeEmpty_ok {result : StorageDirItem} {after : Txn Key.Value}
    (ran : directoryRemoveChildEmptyDirectory parent name txn = .ok (result, after)) :
    dirEntry txn.view parent name = some result ∧ result.typ = .directory ∧
      (∀ entry, dirEntry txn.view result.ino entry = none) ∧
      after = txn.mutate (removedLinks parent name result.ino) := by
  rw [directoryRemoveChildEmptyDirectory] at ran
  cases found : dirEntry txn.view parent name with
  | none =>
      rw [bind_ok (getChild_run found)] at ran
      cases ran
  | some item =>
      rw [bind_ok (getChild_run found)] at ran
      by_cases isDirectory : item.typ = .directory
      · simp only [isDirectory, ne_eq, not_true_eq_false, if_false] at ran
        obtain ⟨children, between, scanned, rest⟩ := bind_eq_ok ran
        obtain ⟨rfl, rfl⟩ := Prod.mk.inj (Except.ok.inj scanned)
        split at rest
        · cases rest
        · next few =>
            obtain ⟨rfl, rfl⟩ := Prod.mk.inj (Except.ok.inj rest)
            refine ⟨rfl, isDirectory, ?_, rfl⟩
            intro entry
            by_contra present
            apply few
            exact scan_nonempty txn.view item.ino entry present Nat.one_pos
      · simp only [isDirectory, ne_eq, not_false_eq_true, if_true] at ran
        cases ran

theorem checkForDelete_used (linked : ∃ above entry, hasParentLink txn.view ino above entry) :
    inodeCheckForDeleteAndDeleteAtomicallyDescription ino txn = .ok (.stillUsed, txn) := by
  obtain ⟨above, entry, holds⟩ := linked
  have counted : 0 < (parentLinks txn.view ino).card :=
    Finset.card_pos.mpr ⟨(above, entry), (mem_parentLinks _ _ _ _).mpr holds⟩
  have nonzero : min (parentLinks txn.view ino).card maxTikvScanLimit ≠ 0 := by
    have limit : 0 < maxTikvScanLimit := by decide
    omega
  change (if min (parentLinks txn.view ino).card maxTikvScanLimit = 0 then _ else _ : Mini _) txn = _
  rw [if_neg nonzero]
  rfl

theorem checkForDelete_deleted (unlinked : ∀ above entry, ¬ hasParentLink txn.view ino above entry) :
    inodeCheckForDeleteAndDeleteAtomicallyDescription ino txn =
      .ok (.deletedInoDesc, txn.mutate [Mutation.delete (.inodeX ino .description)]) := by
  have none : (parentLinks txn.view ino).card = 0 := by
    rw [Finset.card_eq_zero, Finset.eq_empty_iff_forall_notMem]
    rintro ⟨above, entry⟩ listed
    exact unlinked above entry ((mem_parentLinks _ _ _ _).mp listed)
  change (if min (parentLinks txn.view ino).card maxTikvScanLimit = 0 then _ else _ : Mini _) txn = _
  rw [none, Nat.zero_min, if_pos rfl]
  rfl

theorem open_ok {useId : Uuid} {after : Txn Key.Value}
    (ran : inodeOpen ino useId txn = .ok ((), after)) :
    ∃ desc linked, inoDescription txn.view ino = some desc ∧
      inoDescription txn.view desc.ino = some linked ∧
      dirEntry txn.view openedInodeParentInode (uuidToString useId) = none ∧
      after = txn.mutate
        (addedLinks openedInodeParentInode (uuidToString useId) ⟨desc.ino, linked.typ⟩) := by
  rw [inodeOpen] at ran
  cases stored : inoDescription txn.view ino with
  | none =>
      rw [bind_error (fetch_of_none stored)] at ran
      cases ran
  | some desc =>
      rw [bind_ok (fetch_of_some stored)] at ran
      cases free : dirEntry txn.view openedInodeParentInode (uuidToString useId) with
      | some existing =>
          rw [bind_ok (addExisting_existed free)] at ran
          cases ran
      | none =>
          cases again : inoDescription txn.view desc.ino with
          | none =>
              rw [bind_error (addExisting_missing free again)] at ran
              cases ran
          | some linked =>
              rw [bind_ok (addExisting_created free again)] at ran
              obtain ⟨_, rfl⟩ := Prod.mk.inj (Except.ok.inj ran)
              exact ⟨desc, linked, rfl, again, rfl, rfl⟩

theorem removeChild_ok {allowedTypes : List StorageDirItemKind} {result : StorageDirItem}
    {after : Txn Key.Value}
    (ran : directoryRemoveChild parent name allowedTypes txn = .ok (result, after)) :
    dirEntry txn.view parent name = some result ∧ result.typ ∈ allowedTypes ∧
      after = txn.mutate (removedLinks parent name result.ino) := by
  cases found : dirEntry txn.view parent name with
  | none =>
      rw [removeChild_missing found] at ran
      cases ran
  | some item =>
      by_cases accepted : item.typ ∈ allowedTypes
      · rw [removeChild_removed found accepted] at ran
        obtain ⟨rfl, rfl⟩ := Prod.mk.inj (Except.ok.inj ran)
        exact ⟨rfl, accepted, rfl⟩
      · rw [removeChild_wrongType found accepted] at ran
        cases ran

theorem close_ok {useId : Uuid} {after : Txn Key.Value}
    (ran : inodeClose ino useId txn = .ok ((), after)) :
    ∃ item, dirEntry txn.view openedInodeParentInode (uuidToString useId) = some item ∧
      item.ino = ino ∧
      after = txn.mutate (removedLinks openedInodeParentInode (uuidToString useId) item.ino) := by
  rw [inodeClose] at ran
  obtain ⟨item, between, removed, rest⟩ := bind_eq_ok ran
  obtain ⟨found, _, rfl⟩ := removeChild_ok removed
  by_cases owner : item.ino = ino
  · simp only [owner, ne_eq, not_true_eq_false, if_false] at rest
    obtain ⟨_, rfl⟩ := Prod.mk.inj (Except.ok.inj rest)
    exact ⟨item, found, owner, by rw [owner]⟩
  · simp only [owner, ne_eq, not_false_eq_true, if_true] at rest
    cases rest

end Outcomes

end TiFs
