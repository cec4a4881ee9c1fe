import TiFs.Directory
import TiFs.Library.Paging

namespace TiFs

open KeyValue

def InoKind.kindId : InoKind → Nat
  | .regular => 0
  | .hash => 1
  | .hashes => 2

structure LogicalIno where
  storageIno : StorageIno
  kind : InoKind
  deriving DecidableEq, Repr

def logicalInoFactor : Nat := 8

/-- `2 ^ 61`. From this storage inode on the raw numbers are no `u64`. -/
def inodeLimit : Nat := 2305843009213693952

namespace LogicalIno

-- The arithmetic is that of `u64`, and wraps.
def fromRaw (ino : Nat) : LogicalIno :=
  let r := (UInt64.ofNat ino - UInt64.ofNat rootInode).toNat
  ⟨1 + r / logicalInoFactor,
    match r % logicalInoFactor with
    | 1 => .hash
    | 2 => .hashes
    | _ => .regular⟩

def toRaw (ino : LogicalIno) : Nat :=
  (UInt64.ofNat rootInode + (UInt64.ofNat ino.storageIno - 1) * UInt64.ofNat logicalInoFactor +
    UInt64.ofNat ino.kind.kindId).toNat

end LogicalIno

section RawNumbers

theorem kindId_le (kind : InoKind) : kind.kindId ≤ 2 := by
  cases kind <;> decide

theorem kindId_injective {first second : InoKind} (same : first.kindId = second.kindId) : first = second := by
  revert same
  cases first <;> cases second <;> decide

/-- The raw number of an inode and a kind, wrapped at each operation. -/
def rawNumber (ino kind : Nat) : Nat :=
  (1 + (2 ^ 64 - 1 + ino % 2 ^ 64) % 2 ^ 64 * 8 % 2 ^ 64 + kind) % 2 ^ 64

theorem rawNumber_of_lt {ino kind : Nat} (positive : 1 ≤ ino) (small : ino < inodeLimit) (isKind : kind ≤ 2) :
    rawNumber ino kind = 1 + (ino - 1) * 8 + kind := by
  rw [inodeLimit] at small
  have number : (2 ^ 64 - 1 + ino % 2 ^ 64) % 2 ^ 64 = ino - 1 := by omega
  rw [rawNumber, number, Nat.mod_eq_of_lt (by omega : (ino - 1) * 8 < 2 ^ 64)]
  exact Nat.mod_eq_of_lt (by omega)

theorem rawNumber_zero {kind : Nat} (isKind : kind ≤ 2) : rawNumber 0 kind = 2 ^ 64 - 7 + kind := by
  rw [rawNumber]
  omega

theorem toRaw_eq_rawNumber (ino : LogicalIno) : ino.toRaw = rawNumber ino.storageIno ino.kind.kindId := by
  have bound := kindId_le ino.kind
  simp only [LogicalIno.toRaw, rawNumber, rootInode, logicalInoFactor, UInt64.toNat_add, UInt64.toNat_mul,
    UInt64.toNat_sub, UInt64.toNat_ofNat']
  simp
  omega

theorem kind_of_toRaw {first second : LogicalIno} (same : first.toRaw = second.toRaw) : first.kind = second.kind := by
  have firstBound := kindId_le first.kind
  have secondBound := kindId_le second.kind
  apply kindId_injective
  rw [toRaw_eq_rawNumber, toRaw_eq_rawNumber, rawNumber, rawNumber] at same
  omega

theorem rawNumber_injective {first second kind : Nat} (isKind : kind ≤ 2) (above : 1 ≤ second)
    (firstSmall : first < inodeLimit) (small : second < inodeLimit)
    (same : rawNumber first kind = rawNumber second kind) : first = second := by
  rw [rawNumber_of_lt above small isKind] at same
  cases first with
  | zero =>
      -- The number 0 wraps to behind all that are below the limit.
      rw [rawNumber_zero isKind] at same
      rw [inodeLimit] at small
      omega
  | succ number =>
      rw [rawNumber_of_lt (Nat.succ_pos number) firstSmall isKind] at same
      omega

theorem toRaw_eq {first second : LogicalIno} (above : firstDataInode ≤ second.storageIno)
    (firstSmall : first.storageIno < inodeLimit) (small : second.storageIno < inodeLimit)
    (same : first.toRaw = second.toRaw) : first.kind = second.kind ∧ first.storageIno = second.storageIno := by
  have isKind := kind_of_toRaw same
  rw [toRaw_eq_rawNumber, toRaw_eq_rawNumber, isKind] at same
  have positive : 1 ≤ second.storageIno := (by decide : 1 ≤ firstDataInode).trans above
  exact ⟨isKind, rawNumber_injective (kindId_le second.kind) positive firstSmall small same⟩

theorem fromRaw_rawNumber {ino kind : Nat} (positive : 1 ≤ ino) (small : ino < inodeLimit) (isKind : kind ≤ 2) :
    (UInt64.ofNat (rawNumber ino kind) - UInt64.ofNat rootInode).toNat = (ino - 1) * logicalInoFactor + kind := by
  rw [rawNumber_of_lt positive small isKind]
  rw [inodeLimit] at small
  have fits : 1 + (ino - 1) * 8 + kind < 2 ^ 64 := by omega
  rw [UInt64.toNat_sub, UInt64.toNat_ofNat', UInt64.toNat_ofNat', rootInode, Nat.mod_eq_of_lt fits,
    logicalInoFactor]
  omega

theorem fromRaw_toRaw {ino : LogicalIno} (positive : rootInode ≤ ino.storageIno)
    (small : ino.storageIno < inodeLimit) : LogicalIno.fromRaw ino.toRaw = ino := by
  have offset := fromRaw_rawNumber positive small (kindId_le ino.kind)
  rw [← toRaw_eq_rawNumber] at offset
  have bound : ino.kind.kindId < logicalInoFactor := (kindId_le ino.kind).trans_lt (by decide)
  have quotient : ((ino.storageIno - 1) * logicalInoFactor + ino.kind.kindId) / logicalInoFactor =
      ino.storageIno - 1 := by
    rw [Nat.add_comm, Nat.add_mul_div_right _ _ (by decide), Nat.div_eq_of_lt bound, Nat.zero_add]
  have remainder : ((ino.storageIno - 1) * logicalInoFactor + ino.kind.kindId) % logicalInoFactor =
      ino.kind.kindId := by
    rw [Nat.add_comm, Nat.add_mul_mod_self_right, Nat.mod_eq_of_lt bound]
  have isNumber : 1 + (ino.storageIno - 1) = ino.storageIno := Nat.add_sub_cancel' positive
  rw [LogicalIno.fromRaw, offset, quotient, remainder, isNumber]
  obtain ⟨number, kind⟩ := ino
  cases kind <;> rfl

end RawNumbers

inductive FileType where
  | namedPipe
  | charDevice
  | blockDevice
  | directory
  | regularFile
  | symlink
  | socket
  deriving DecidableEq, Repr

def mapStorageDirItemKindToFileType : StorageDirItemKind → FileType
  | .file => .regularFile
  | .directory => .directory
  | .symlink => .symlink

structure DirItem where
  ino : LogicalIno
  name : ByteString
  typ : FileType
  deriving DecidableEq, Repr

def dot : UInt8 := 46

/-- `.@hash`. -/
def hashSuffix : ByteString := [46, 64, 104, 97, 115, 104]

/-- `.@hashes`. -/
def hashesSuffix : ByteString := [46, 64, 104, 97, 115, 104, 101, 115]

/-- `.@opened_inodes`. -/
def openedInodeParentInodeName : ByteString :=
  [46, 64, 111, 112, 101, 110, 101, 100, 95, 105, 110, 111, 100, 101, 115]

/-- `.@snapshots`. -/
def snapshotParentInodeName : ByteString := [46, 64, 115, 110, 97, 112, 115, 104, 111, 116, 115]

def DirectoryItem.regularEntry (item : DirectoryItem) : DirItem :=
  ⟨⟨item.ino, .regular⟩, item.name, mapStorageDirItemKindToFileType item.typ⟩

def DirectoryItem.fullHashEntry (item : DirectoryItem) : DirItem :=
  ⟨⟨item.ino, .hash⟩, dot :: item.name ++ hashSuffix, .regularFile⟩

def DirectoryItem.blockHashesEntry (item : DirectoryItem) : DirItem :=
  ⟨⟨item.ino, .hashes⟩, dot :: item.name ++ hashesSuffix, .regularFile⟩

def DirectoryItem.entries (item : DirectoryItem) : List DirItem :=
  if item.typ = .file then [item.fullHashEntry, item.blockHashesEntry, item.regularEntry]
  else [item.regularEntry]

def specialEntries (dirIno : StorageIno) : List DirItem :=
  if dirIno = rootInode then
    [⟨⟨openedInodeParentInode, .regular⟩, openedInodeParentInodeName, .directory⟩,
      ⟨⟨snapshotParentInode, .regular⟩, snapshotParentInodeName, .directory⟩]
  else []

def directoryReadChildren (dirIno : StorageIno) : Mini (List DirectoryItem) :=
  directoryScanForChildren dirIno maxTikvScanLimit

def readDir1 (dirIno : StorageIno) : Mini (List DirItem) := do
  let dir ← directoryReadChildren dirIno
  return dir.flatMap DirectoryItem.entries ++ specialEntries dirIno

structure Dir where
  offset : Nat
  items : List DirItem

def readdir (ino offset : Nat) : Mini Dir := do
  let directory ← readDir1 (LogicalIno.fromRaw ino).storageIno
  return ⟨offset, directory.drop offset⟩

/-- The reply to a call: the entries with their offsets, as many as fit. -/
def Dir.reply (dir : Dir) (fitting : Nat) : List (DirItem × Nat) :=
  (dir.items.zipIdx.map fun entry => (entry.1, entry.2 + 1 + dir.offset)).take fitting

/-- A call finds the store as other operations have left it. -/
structure ReaddirCall where
  store : Store
  fitting : Nat

/-- The entries that a sequence of calls delivers, each continued at the offset of the
last entry that was delivered. -/
def deliveredEntries (ino : Nat) : Nat → List ReaddirCall → List DirItem
  | _, [] => []
  | offset, call :: rest =>
      match atomically (readdir ino offset) call.store with
      | .error _ => []
      | .ok (dir, _) =>
          let reply := dir.reply call.fitting
          reply.map Prod.fst ++
            deliveredEntries ino ((reply.getLast?.map Prod.snd).getD offset) rest

def children (store : Store) (dirIno : StorageIno) : List DirectoryItem :=
  ((childNames store dirIno).sort NameLe).filterMap fun name =>
    (dirEntry store dirIno name).map fun item => ⟨item.ino, name, item.typ⟩

def listedItems (store : Store) (dirIno : StorageIno) : List DirItem :=
  (children store dirIno).flatMap DirectoryItem.entries ++ specialEntries dirIno

section Listing

variable {store : Store} {dirIno : StorageIno}

theorem mem_children {item : DirectoryItem} :
    item ∈ children store dirIno ↔ dirEntry store dirIno item.name = some ⟨item.ino, item.typ⟩ := by
  rw [children, List.mem_filterMap]
  constructor
  · rintro ⟨name, _, found⟩
    obtain ⟨stored, isStored, rfl⟩ := Option.map_eq_some_iff.mp found
    exact isStored
  · intro stored
    refine ⟨item.name, ?_, by rw [stored]; rfl⟩
    rw [Finset.mem_sort, mem_childNames, stored]
    exact Option.some_ne_none _

theorem children_nodup (store : Store) (dirIno : StorageIno) :
    ((children store dirIno).map DirectoryItem.name).Nodup := by
  have names : ∀ all : List ByteString, ((all.filterMap fun name =>
      (dirEntry store dirIno name).map fun item =>
        (⟨item.ino, name, item.typ⟩ : DirectoryItem)).map DirectoryItem.name).Sublist all := by
    intro all
    induction all with
    | nil => exact List.Sublist.refl _
    | cons name rest ih =>
        cases stored : dirEntry store dirIno name with
        | none =>
            rw [List.filterMap_cons_none (by rw [stored]; rfl)]
            exact ih.cons name
        | some item =>
            simp only [List.filterMap_cons, stored, Option.map_some, List.map_cons]
            exact ih.cons_cons name
  exact (Finset.sort_nodup _ _).sublist (names _)

theorem readDir1_run (within : (childNames store dirIno).card ≤ maxTikvScanLimit) :
    readDir1 dirIno ⟨store, []⟩ = .ok (listedItems store dirIno, ⟨store, []⟩) := by
  have whole : ((childNames store dirIno).sort NameLe).take maxTikvScanLimit =
      (childNames store dirIno).sort NameLe := by
    apply List.take_of_length_le
    rw [Finset.length_sort]
    exact within
  rw [listedItems, children, ← whole]
  rfl

theorem mem_entries {item : DirItem} {entry : DirectoryItem} (listed : item ∈ entry.entries) :
    item.ino.storageIno = entry.ino ∧
      item.name = (match item.ino.kind with
        | .regular => entry.name
        | .hash => dot :: entry.name ++ hashSuffix
        | .hashes => dot :: entry.name ++ hashesSuffix) := by
  unfold DirectoryItem.entries at listed
  split at listed
  · simp only [List.mem_cons, List.not_mem_nil, or_false] at listed
    rcases listed with rfl | rfl | rfl
    · exact ⟨rfl, rfl⟩
    · exact ⟨rfl, rfl⟩
    · exact ⟨rfl, rfl⟩
  · rw [List.mem_singleton.mp listed]
    exact ⟨rfl, rfl⟩

theorem name_of_entries {item : DirItem} {first second : DirectoryItem}
    (inFirst : item ∈ first.entries) (inSecond : item ∈ second.entries) : first.name = second.name := by
  have one := (mem_entries inFirst).2
  have two := (mem_entries inSecond).2
  cases kind : item.ino.kind with
  | regular =>
      rw [kind] at one two
      exact one.symm.trans two
  | hash =>
      rw [kind] at one two
      exact List.append_cancel_right (List.cons.inj (one.symm.trans two)).2
  | hashes =>
      rw [kind] at one two
      exact List.append_cancel_right (List.cons.inj (one.symm.trans two)).2

theorem entries_nodup (entry : DirectoryItem) : entry.entries.Nodup := by
  unfold DirectoryItem.entries
  split
  · simp [DirectoryItem.fullHashEntry, DirectoryItem.blockHashesEntry, DirectoryItem.regularEntry]
  · exact List.nodup_singleton _

/-- No item is listed twice; the numbers of the special directories are not handed out. -/
theorem listedItems_nodup
    (handedOut : ∀ name item, dirEntry store dirIno name = some item → firstDataInode ≤ item.ino) :
    (listedItems store dirIno).Nodup := by
  rw [listedItems, List.nodup_append]
  refine ⟨?_, ?_, ?_⟩
  · rw [List.nodup_flatMap]
    refine ⟨fun entry _ => entries_nodup entry, ?_⟩
    have distinct := List.pairwise_map.mp (children_nodup store dirIno)
    refine distinct.imp ?_
    intro first second different item inFirst inSecond
    exact different (name_of_entries inFirst inSecond)
  · unfold specialEntries
    split
    · decide
    · exact List.nodup_nil
  · intro item inEntries special isSpecial same
    obtain ⟨entry, member, listed⟩ := List.mem_flatMap.mp inEntries
    have number : firstDataInode ≤ entry.ino := handedOut entry.name _ (mem_children.mp member)
    rw [same] at listed
    have isNumber := (mem_entries listed).1
    unfold specialEntries at isSpecial
    split at isSpecial
    · simp only [List.mem_cons, List.not_mem_nil, or_false] at isSpecial
      rcases isSpecial with rfl | rfl
      · rw [← isNumber] at number
        revert number
        decide
      · rw [← isNumber] at number
        revert number
        decide
    · cases isSpecial

end Listing

def pages (ino : Nat) (calls : List ReaddirCall) : List (List DirItem × Nat) :=
  calls.map fun call => (listedItems call.store (LogicalIno.fromRaw ino).storageIno, call.fitting)

def Finished (ino : Nat) : Nat → List ReaddirCall → Prop
  | _, [] => False
  | offset, call :: rest =>
      match atomically (readdir ino offset) call.store with
      | .error _ => False
      | .ok (dir, _) =>
          match rest with
          | [] => dir.items = []
          | later :: more => Finished ino
              (((dir.reply call.fitting).getLast?.map Prod.snd).getD offset) (later :: more)

section Pages

variable {ino offset : Nat}

theorem reply_entries (dir : Dir) (fitting : Nat) :
    (dir.reply fitting).map Prod.fst = dir.items.take fitting := by
  rw [Dir.reply, List.map_take, List.map_map]
  congr 1
  exact List.zipIdx_map_fst 0 dir.items

theorem reply_offset (dir : Dir) (fitting : Nat) :
    ((dir.reply fitting).getLast?.map Prod.snd).getD dir.offset =
      dir.offset + (dir.items.take fitting).length := by
  have length : (dir.reply fitting).length = (dir.items.take fitting).length := by
    rw [← reply_entries, List.length_map]
  rw [List.getLast?_eq_getElem?, length]
  cases size : (dir.items.take fitting).length with
  | zero =>
      rw [size] at length
      rw [List.eq_nil_of_length_eq_zero length]
      rfl
  | succ k =>
      rw [List.length_take] at size
      obtain ⟨item, found⟩ : ∃ item, dir.items[k]? = some item :=
        ⟨_, List.getElem?_eq_getElem (by omega)⟩
      rw [Nat.add_sub_cancel, Dir.reply, List.getElem?_take_of_lt (by omega), List.getElem?_map,
        List.getElem?_zipIdx, found]
      simp only [Option.map_some, Option.getD_some]
      omega

theorem readdir_run {store : Store}
    (within : (childNames store (LogicalIno.fromRaw ino).storageIno).card ≤ maxTikvScanLimit) :
    atomically (readdir ino offset) store =
      .ok (⟨offset, (listedItems store (LogicalIno.fromRaw ino).storageIno).drop offset⟩, store) := by
  have ran : readdir ino offset ⟨store, []⟩ =
      .ok (⟨offset, (listedItems store (LogicalIno.fromRaw ino).storageIno).drop offset⟩, ⟨store, []⟩) := by
    rw [readdir, bind_ok (readDir1_run within)]
    rfl
  exact atomically_eq_ok ran

theorem delivered_pages (calls : List ReaddirCall)
    (within : ∀ call ∈ calls,
      (childNames call.store (LogicalIno.fromRaw ino).storageIno).card ≤ maxTikvScanLimit) :
    deliveredEntries ino offset calls = Paging.delivered offset (pages ino calls) := by
  induction calls generalizing offset with
  | nil => rfl
  | cons call rest ih =>
      have here := within call List.mem_cons_self
      have later := fun other member => within other (List.mem_cons_of_mem call member)
      simp only [deliveredEntries, readdir_run here]
      rw [reply_entries, reply_offset, ih later]
      rfl

theorem finished_iff (calls : List ReaddirCall)
    (within : ∀ call ∈ calls,
      (childNames call.store (LogicalIno.fromRaw ino).storageIno).card ≤ maxTikvScanLimit) :
    Finished ino offset calls ↔ Paging.Complete offset (pages ino calls) := by
  induction calls generalizing offset with
  | nil => exact Iff.rfl
  | cons call rest ih =>
      have here := within call List.mem_cons_self
      have later := fun other member => within other (List.mem_cons_of_mem call member)
      rw [Finished, readdir_run here]
      cases rest with
      | nil => exact List.drop_eq_nil_iff
      | cons second more =>
          have offsets := reply_offset ⟨offset,
            (listedItems call.store (LogicalIno.fromRaw ino).storageIno).drop offset⟩ call.fitting
          simp only at offsets ⊢
          rw [offsets]
          exact ih later

end Pages

/-- What has to hold of the directory while it is read: it never has more entries than
one scan returns, and from one call to the next no entry that all calls find moves across
the offset. -/
structure ListedSteadily (ino : Nat) (calls : List ReaddirCall) : Prop where
  within : ∀ call ∈ calls,
    (childNames call.store (LogicalIno.fromRaw ino).storageIno).card ≤ maxTikvScanLimit
  stays : ∀ item, (∀ call ∈ calls, item ∈ listedItems call.store (LogicalIno.fromRaw ino).storageIno) →
    Paging.Stays item 0 (pages ino calls)

/-- Of a directory that is undisturbed in that sense, a sequence of calls delivers every
entry that all of them find, and each once. -/
theorem entries_delivered_once (ino : Nat) (calls : List ReaddirCall)
    (handedOut : ∀ call ∈ calls, ∀ name item,
      dirEntry call.store (LogicalIno.fromRaw ino).storageIno name = some item → firstDataInode ≤ item.ino)
    (finished : Finished ino 0 calls) (undisturbed : ListedSteadily ino calls) (item : DirItem)
    (present : ∀ call ∈ calls, item ∈ listedItems call.store (LogicalIno.fromRaw ino).storageIno) :
    (deliveredEntries ino 0 calls).count item = 1 := by
  rw [delivered_pages calls undisturbed.within]
  apply Paging.delivered_once
  · intro page listed
    obtain ⟨call, member, rfl⟩ := List.mem_map.mp listed
    exact listedItems_nodup (handedOut call member)
  · intro page listed
    obtain ⟨call, member, rfl⟩ := List.mem_map.mp listed
    exact present call member
  · exact (finished_iff calls undisturbed.within).mp finished
  · exact undisturbed.stays item present

def subdirectories (entries : List (ByteString × StorageIno)) : Store :=
  applyAll ∅ (entries.map fun entry =>
    Mutation.put (.directoryChild 10 entry.1) ⟨entry.2, .directory⟩)

def subdirectory (entry : ByteString × StorageIno) : DirItem :=
  ⟨⟨entry.2, .regular⟩, entry.1, .directory⟩

def Arranged (entries : List (ByteString × StorageIno)) : Prop :=
  (entries.map Prod.fst).Nodup ∧ (entries.map Prod.fst).Pairwise NameLe ∧
    childNames (subdirectories entries) 10 = (entries.map Prod.fst).toFinset ∧
    ∀ entry ∈ entries, dirEntry (subdirectories entries) 10 entry.1 = some ⟨entry.2, .directory⟩

instance (entries : List (ByteString × StorageIno)) : Decidable (Arranged entries) :=
  inferInstanceAs (Decidable (_ ∧ _ ∧ _ ∧ _))

theorem children_arranged {entries : List (ByteString × StorageIno)} (arranged : Arranged entries) :
    children (subdirectories entries) 10 =
      entries.map fun entry => ⟨entry.2, entry.1, .directory⟩ := by
  obtain ⟨distinct, sorted, all, stored⟩ := arranged
  rw [children, all, (List.toFinset_sort NameLe distinct).mpr sorted, List.filterMap_map]
  apply List.filterMap_eq_map_iff_forall_eq_some.mpr
  intro entry member
  simp only [Function.comp_apply, stored entry member, Option.map_some]

theorem listed_arranged {entries : List (ByteString × StorageIno)} (arranged : Arranged entries) :
    listedItems (subdirectories entries) 10 = entries.map subdirectory := by
  have notRoot : specialEntries 10 = [] := rfl
  rw [listedItems, children_arranged arranged, List.flatMap_map, notRoot, List.append_nil]
  exact List.map_eq_flatMap.symm

theorem arranged_numbers {entries : List (ByteString × StorageIno)} (arranged : Arranged entries)
    (numbers : ∀ entry ∈ entries, firstDataInode ≤ entry.2) {name : ByteString} {item : StorageDirItem}
    (found : dirEntry (subdirectories entries) 10 name = some item) : firstDataInode ≤ item.ino := by
  have listed : (⟨item.ino, name, item.typ⟩ : DirectoryItem) ∈ children (subdirectories entries) 10 :=
    mem_children.mpr found
  rw [children_arranged arranged] at listed
  obtain ⟨entry, member, same⟩ := List.mem_map.mp listed
  have isNumber : entry.2 = item.ino := congrArg DirectoryItem.ino same
  rw [← isNumber]
  exact numbers entry member

def ab : List (ByteString × StorageIno) := [([97], 11), ([98], 12)]

def abc : List (ByteString × StorageIno) := [([97], 11), ([98], 12), ([99], 13)]

def addedBehind : List ReaddirCall :=
  [⟨subdirectories ab, 1⟩, ⟨subdirectories abc, 5⟩, ⟨subdirectories abc, 5⟩]

theorem pages_addedBehind : pages 73 addedBehind =
    [(ab.map subdirectory, 1), (abc.map subdirectory, 5), (abc.map subdirectory, 5)] := by
  have first : listedItems (subdirectories ab) 10 = ab.map subdirectory :=
    listed_arranged (by decide +kernel)
  have second : listedItems (subdirectories abc) 10 = abc.map subdirectory :=
    listed_arranged (by decide +kernel)
  rw [← first, ← second]
  rfl

theorem entries_delivered_once_added :
    (deliveredEntries 73 0 addedBehind).count (subdirectory ([98], 12)) = 1 := by
  have within : ∀ call ∈ addedBehind,
      (childNames call.store (LogicalIno.fromRaw 73).storageIno).card ≤ maxTikvScanLimit := by
    decide +kernel
  apply entries_delivered_once
  · intro call member
    simp only [addedBehind, List.mem_cons, List.not_mem_nil, or_false] at member
    intro name item
    rcases member with rfl | rfl | rfl
    · exact arranged_numbers (by decide +kernel) (by decide)
    · exact arranged_numbers (by decide +kernel) (by decide)
    · exact arranged_numbers (by decide +kernel) (by decide)
  · rw [finished_iff addedBehind within, pages_addedBehind]
    exact (by decide : 3 ≤ 3)
  · refine ⟨within, ?_⟩
    intro item _
    rw [pages_addedBehind]
    exact ⟨Iff.rfl, Iff.rfl, trivial⟩
  · intro call member
    have listed : (listedItems call.store 10, call.fitting) ∈ pages 73 addedBehind :=
      List.mem_map.mpr ⟨call, member, rfl⟩
    rw [pages_addedBehind] at listed
    have inAll : ∀ page ∈ [(ab.map subdirectory, 1), (abc.map subdirectory, 5), (abc.map subdirectory, 5)],
        subdirectory ([98], 12) ∈ page.1 := by decide
    exact inAll _ listed

/-- The first directory is removed when it has been delivered, and the second one is
never delivered. -/
theorem entry_not_delivered :
    ¬ ∀ (ino : Nat) (calls : List ReaddirCall),
      (∀ call ∈ calls, ∀ name item,
        dirEntry call.store (LogicalIno.fromRaw ino).storageIno name = some item →
        firstDataInode ≤ item.ino) →
      Finished ino 0 calls →
      ∀ item, (∀ call ∈ calls, item ∈ listedItems call.store (LogicalIno.fromRaw ino).storageIno) →
        (deliveredEntries ino 0 calls).count item = 1 := by
  intro claim
  let calls : List ReaddirCall := [⟨subdirectories ab, 1⟩, ⟨subdirectories [([98], 12)], 1⟩]
  have within : ∀ call ∈ calls,
      (childNames call.store (LogicalIno.fromRaw 73).storageIno).card ≤ maxTikvScanLimit := by
    decide +kernel
  have first : listedItems (subdirectories ab) 10 = ab.map subdirectory :=
    listed_arranged (by decide +kernel)
  have second : listedItems (subdirectories [([98], 12)]) 10 = [([98], 12)].map subdirectory :=
    listed_arranged (by decide +kernel)
  have isPages : pages 73 calls = [(ab.map subdirectory, 1), ([([98], 12)].map subdirectory, 1)] := by
    rw [← first, ← second]
    rfl
  have once := claim 73 calls ?_ ?_ (subdirectory ([98], 12)) ?_
  · rw [delivered_pages calls within, isPages] at once
    revert once
    decide
  · intro call member name item
    simp only [calls, List.mem_cons, List.not_mem_nil, or_false] at member
    rcases member with rfl | rfl
    · exact arranged_numbers (by decide +kernel) (by decide)
    · exact arranged_numbers (by decide +kernel) (by decide)
  · rw [finished_iff calls within, isPages]
    exact (by decide : 1 ≤ 1)
  · intro call member
    have listed : (listedItems call.store 10, call.fitting) ∈ pages 73 calls :=
      List.mem_map.mpr ⟨call, member, rfl⟩
    rw [isPages] at listed
    have inAll : ∀ page ∈ [(ab.map subdirectory, 1), ([([98], 12)].map subdirectory, 1)],
        subdirectory ([98], 12) ∈ page.1 := by decide
    exact inAll _ listed

end TiFs
