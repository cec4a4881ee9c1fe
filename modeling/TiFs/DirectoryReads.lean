import TiFs.HashFsError
import TiFs.ScopedRecords
import TiFs.SnapshotCopy

/-! Whether all entries of a directory are read. A scan returns no more records than its
limit, and the reader of a directory and the copy of one both make a single scan. -/

namespace TiFs

open KeyValue

def ScopedRecords.directoryReadChildren {scope : Bytes} (decode : Bytes → Except FsError StorageDirItem)
    (hashLen : Nat) (self : ScopedRecords scope) (dirIno : UInt64) : Except HashFsError (List DirectoryItem) :=
  (self.directoryScanForChildren decode hashLen dirIno maxTikvScanLimit).mapError HashFsError.ofFsError

def SnapshotPhase.visited : SnapshotPhase → List DirectoryItem
  | .reserve _ _ srcList => srcList
  | _ => []

/-- There is one item for each entry of the directory, with its name, inode and type. -/
structure ListsChildren (store : Store) (dir : StorageIno) (items : List DirectoryItem) : Prop where
  once : (items.map DirectoryItem.name).Nodup
  listed : ∀ item : DirectoryItem, item ∈ items ↔ dirEntry store dir item.name = some ⟨item.ino, item.typ⟩

/-- The reader of the directory and the copy of it see all of its entries. -/
structure DirectoryComplete {scope : Bytes} (decode : Bytes → Except FsError StorageDirItem) (hashLen : Nat)
    (raw : ScopedRecords scope) (store : Store) (dirIno : UInt64) : Prop where
  read : ∃ items, raw.directoryReadChildren decode hashLen dirIno = .ok items ∧
    ListsChildren store dirIno.toNat items
  copied : ∀ (cfg : TiFsConfig) (state : SnapshotSystem cfg) (ambient : Ambient) (snapshotDir : StorageDirItem)
    (destination : ParentStorageIno) (copyJobs : List (ParentStorageIno × ParentStorageIno)),
    state.phase = .nextJob ⟨snapshotDir, (dirIno.toNat, destination) :: copyJobs⟩ →
    ListsChildren store dirIno.toNat (state.advance store ambient).phase.visited

section Complete

variable {scope : Bytes} {decode : Bytes → Except FsError StorageDirItem} {hashLen : Nat}
  {raw : ScopedRecords scope} {store : Store} {dirIno : UInt64}

theorem readChildren_run (hashLen : Nat) (small : dirIno.toNat < 2 ^ 64 - 1)
    (holds : ScopedRecords.HoldsChildren decode raw store dirIno) :
    raw.directoryReadChildren decode hashLen dirIno = .ok (scannedChildren store dirIno.toNat) := by
  have refines := ScopedRecords.scan_refines hashLen maxTikvScanLimit small holds
  rw [scan_run] at refines
  cases scanned : raw.directoryScanForChildren decode hashLen dirIno maxTikvScanLimit with
  | error issue =>
      rw [scanned] at refines
      cases refines
  | ok items =>
      rw [scanned] at refines
      rw [ScopedRecords.directoryReadChildren, scanned, (Prod.mk.inj (Except.ok.inj refines)).1]
      rfl

theorem visited_eq {cfg : TiFsConfig} {state : SnapshotSystem cfg} {ambient : Ambient} {dir : StorageIno}
    {snapshotDir : StorageDirItem} {destination : ParentStorageIno}
    {copyJobs : List (ParentStorageIno × ParentStorageIno)}
    (current : state.phase = .nextJob ⟨snapshotDir, (dir, destination) :: copyJobs⟩) :
    (state.advance store ambient).phase.visited = scannedChildren store dir := by
  rw [SnapshotSystem.advance, current]
  simp only [SnapshotSystem.readSource, scan_run]
  by_cases none : (scannedChildren store dir).length = 0
  · rw [if_pos none, List.eq_nil_of_length_eq_zero none]
    rfl
  · rw [if_neg none]
    rfl

theorem scanned_lists_iff (dir : StorageIno) :
    ListsChildren store dir (scannedChildren store dir) ↔ (childNames store dir).card ≤ maxTikvScanLimit := by
  constructor
  · intro lists
    have covered : childNames store dir ⊆ ((scannedChildren store dir).map DirectoryItem.name).toFinset := by
      intro name listed
      rw [mem_childNames, Option.ne_none_iff_exists'] at listed
      obtain ⟨item, found⟩ := listed
      exact List.mem_toFinset.mpr
        (List.mem_map_of_mem ((lists.listed ⟨item.ino, name, item.typ⟩).mpr found))
    calc (childNames store dir).card
        ≤ ((scannedChildren store dir).map DirectoryItem.name).toFinset.card := Finset.card_le_card covered
      _ ≤ ((scannedChildren store dir).map DirectoryItem.name).length := List.toFinset_card_le _
      _ = (scannedChildren store dir).length := List.length_map _
      _ ≤ (((childNames store dir).sort NameLe).take maxTikvScanLimit).length := List.length_filterMap_le _ _
      _ ≤ maxTikvScanLimit := List.length_take_le _ _
  · intro small
    exact ⟨scannedChildren_names store dir,
      fun item => ⟨dirEntry_of_scanned, fun found => mem_scanned_of_small small found⟩⟩

/-- A directory is read as a whole, and copied as a whole, exactly if its entries are within
the limit of a scan. -/
theorem directory_complete_iff (decode : Bytes → Except FsError StorageDirItem) (hashLen : Nat)
    (raw : ScopedRecords scope) (store : Store) (dirIno : UInt64) (small : dirIno.toNat < 2 ^ 64 - 1)
    (holds : ScopedRecords.HoldsChildren decode raw store dirIno) :
    DirectoryComplete decode hashLen raw store dirIno ↔
      (childNames store dirIno.toNat).card ≤ maxTikvScanLimit := by
  rw [← scanned_lists_iff]
  constructor
  · intro complete
    obtain ⟨items, ran, lists⟩ := complete.read
    rw [readChildren_run hashLen small holds] at ran
    rwa [Except.ok.inj ran]
  · intro lists
    refine ⟨⟨_, readChildren_run hashLen small holds, lists⟩, ?_⟩
    intro cfg state ambient snapshotDir destination copyJobs current
    rwa [visited_eq current]

end Complete

def linkName (i : Nat) : ByteString :=
  [UInt8.ofNat (97 + i / 676), UInt8.ofNat (97 + i / 26 % 26), UInt8.ofNat (97 + i % 26)]

def linkValue : Bytes := "\x7b\"ino\":11,\"typ\":\"File\"\x7d".toList.map fun char => UInt8.ofNat char.toNat

def decodeLink (value : Bytes) : Except FsError StorageDirItem :=
  if value = linkValue then .ok ⟨11, .file⟩ else .error (.unknownError "deserialization failed!")

theorem linkName_lt {i j : Nat} (less : i < j) (few : j < 17576) : linkName i < linkName j := by
  have byte : ∀ n < 26, (UInt8.ofNat (97 + n)).toNat = 97 + n := by
    intro n small
    rw [UInt8.toNat_ofNat', Nat.mod_eq_of_lt (by omega)]
  have firstI := byte (i / 676) (by omega)
  have firstJ := byte (j / 676) (by omega)
  have secondI := byte (i / 26 % 26) (by omega)
  have secondJ := byte (j / 26 % 26) (by omega)
  have thirdI := byte (i % 26) (by omega)
  have thirdJ := byte (j % 26) (by omega)
  simp only [linkName, List.cons_lt_cons_iff, List.lt_irrefl, and_false, or_false, UInt8.lt_iff_toNat_lt,
    ← UInt8.toNat_inj, firstI, firstJ, secondI, secondJ, thirdI, thirdJ]
  omega

theorem linkName_ascii (i : Nat) (few : i < 17576) : Utf8.lossy (linkName i) = linkName i := by
  apply Utf8.lossy_of_ascii
  intro byte listed
  have small : ∀ n < 26, UInt8.ofNat (97 + n) ≤ 0x7F := by
    intro n small
    rw [UInt8.le_iff_toNat_le, UInt8.toNat_ofNat', Nat.mod_eq_of_lt (by omega)]
    have isLast : (0x7F : UInt8).toNat = 127 := rfl
    omega
  simp only [linkName, List.mem_cons, List.not_mem_nil, or_false] at listed
  rcases listed with rfl | rfl | rfl
  · exact small _ (by omega)
  · exact small _ (by omega)
  · exact small _ (by omega)

def manyLinks (count : Nat) : List Write :=
  (List.range count).map fun i => Mutation.put (.directoryChild 10 (linkName i)) ⟨11, .file⟩

def linkedStore (count : Nat) : Store := applyAll ∅ (manyLinks count)

def linkedRecords (count : Nat) (few : count ≤ 17576) : ScopedRecords [7] where
  records := ⟨(List.range count).map fun i => ((LogicalKey.directoryChild 10 (linkName i)).bytes [7], linkValue), by
    rw [List.pairwise_map]
    refine (List.pairwise_lt_range).imp_of_mem ?_
    intro i j _ inRange less
    exact ScopedRecords.child_bytes_lt_iff.mpr
      (linkName_lt less ((List.mem_range.mp inRange).trans_le few))⟩
  keyed := by
    intro record member _
    obtain ⟨i, _, rfl⟩ := List.mem_map.mp member
    exact ⟨.directoryChild 10 (linkName i), rfl⟩

section Links

variable {count : Nat}

theorem linkName_injOn (few : count ≤ 17576) : Set.InjOn linkName {i | i < count} := by
  intro i inI j inJ same
  rcases Nat.lt_trichotomy i j with less | isSame | more
  · exact absurd same (Std.ne_of_lt (linkName_lt less (inJ.trans_le few)))
  · exact isSame
  · exact absurd same.symm (Std.ne_of_lt (linkName_lt more (inI.trans_le few)))

theorem dirEntry_linkedStore (few : count ≤ 17576) {name : ByteString} {item : StorageDirItem} :
    dirEntry (linkedStore count) 10 name = some item ↔ ∃ i < count, linkName i = name ∧ item = ⟨11, .file⟩ := by
  constructor
  · intro found
    rcases lookup_applyAll_eq_some found with old | written
    · cases old
    · obtain ⟨i, inRange, isWrite⟩ := List.mem_map.mp written
      have isKey := congrArg Mutation.key isWrite
      rw [Mutation.put_key, Mutation.put_key, Key.directoryChild.injEq] at isKey
      obtain rfl := isKey.2
      cases isWrite
      exact ⟨i, List.mem_range.mp inRange, rfl, rfl⟩
  · rintro ⟨i, inRange, rfl, rfl⟩
    refine lookup_applyAll_put ?_ (List.mem_map_of_mem (List.mem_range.mpr inRange))
    rw [manyLinks, List.map_map]
    refine List.Nodup.map_on ?_ List.nodup_range
    intro j inJ k inK same
    exact linkName_injOn few (List.mem_range.mp inJ) (List.mem_range.mp inK) (Key.directoryChild.inj same).2

theorem linkedRecords_hold (count : Nat) (few : count ≤ 17576) :
    ScopedRecords.HoldsChildren decodeLink (linkedRecords count few) (linkedStore count) 10 := by
  constructor
  · intro name value stored
    obtain ⟨i, inRange, isRecord⟩ := List.mem_map.mp stored
    obtain ⟨isKey, rfl⟩ := Prod.mk.inj isRecord
    have names := congrArg (ScopedRecords.nameOf [7]) isKey
    rw [ScopedRecords.nameOf_child, ScopedRecords.nameOf_child] at names
    subst names
    have inCount := List.mem_range.mp inRange
    exact ⟨linkName_ascii i (inCount.trans_le few), ⟨11, .file⟩, if_pos rfl,
      (dirEntry_linkedStore few).mpr ⟨i, inCount, rfl, rfl⟩⟩
  · intro name item found
    obtain ⟨i, inCount, rfl, rfl⟩ := (dirEntry_linkedStore few).mp found
    exact ⟨linkValue, List.mem_map_of_mem (List.mem_range.mpr inCount)⟩

theorem card_linked (few : count ≤ 17576) : (childNames (linkedStore count) 10).card = count := by
  have names : childNames (linkedStore count) 10 = (Finset.range count).image linkName := by
    ext name
    rw [mem_childNames, Option.ne_none_iff_exists', Finset.mem_image]
    constructor
    · rintro ⟨item, found⟩
      obtain ⟨i, inCount, isName, _⟩ := (dirEntry_linkedStore few).mp found
      exact ⟨i, Finset.mem_range.mpr inCount, isName⟩
    · rintro ⟨i, inCount, isName⟩
      exact ⟨⟨11, .file⟩, (dirEntry_linkedStore few).mpr ⟨i, Finset.mem_range.mp inCount, isName, rfl⟩⟩
  rw [names, Finset.card_image_of_injOn, Finset.card_range]
  intro i inI j inJ
  exact linkName_injOn few (Finset.mem_range.mp inI) (Finset.mem_range.mp inJ)

end Links

theorem directory_complete_three_links :
    DirectoryComplete decodeLink 3 (linkedRecords 3 (by decide)) (linkedStore 3) 10 := by
  refine (directory_complete_iff decodeLink 3 (linkedRecords 3 (by decide)) (linkedStore 3) 10 (by decide)
    (linkedRecords_hold 3 (by decide))).mpr ?_
  exact (card_linked (by decide)).le.trans (by decide)

/-- Of a directory with one entry more than the limit, the last one is not read. -/
theorem directory_reads_miss_entry :
    ¬ ∀ (scope : Bytes) (decode : Bytes → Except FsError StorageDirItem) (hashLen : Nat)
      (raw : ScopedRecords scope) (store : Store) (dirIno : UInt64), dirIno.toNat < 2 ^ 64 - 1 →
      ScopedRecords.HoldsChildren decode raw store dirIno →
      DirectoryComplete decode hashLen raw store dirIno := by
  intro claim
  have holds := linkedRecords_hold 10241 (by decide)
  obtain ⟨items, ran, lists⟩ :=
    (claim [7] decodeLink 3 (linkedRecords 10241 (by decide)) (linkedStore 10241) 10 (by decide) holds).read
  rw [readChildren_run 3 (by decide) holds] at ran
  rw [← Except.ok.inj ran] at lists
  have within : (childNames (linkedStore 10241) 10).card ≤ maxTikvScanLimit := (scanned_lists_iff 10).mp lists
  rw [card_linked (by decide)] at within
  revert within
  decide

end TiFs
