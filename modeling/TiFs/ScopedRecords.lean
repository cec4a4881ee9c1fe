import TiFs.CriticalSection
import TiFs.Directory
import TiFs.Library.Utf8

/-! Reading ranges of records as TiKV keeps them, by the bytes of their keys and in their
order. The keys of a file system begin with its scope, and a scan of a range is parsed
record by record. -/

namespace TiFs

open BigEndian KeyValue

instance (range : BoundRange) (key : KeyBuffer) : Decidable (range.Contains key) :=
  inferInstanceAs (Decidable (_ ∧ _))

/-- The records of a store of which one file system has a scope: every key that begins with
the scope is one that its builder writes. -/
structure ScopedRecords (scope : Bytes) where
  records : RawStore
  keyed : ∀ record ∈ records.entries, scope <+: record.1 → ∃ key : LogicalKey, record.1 = key.bytes scope

namespace ScopedRecords

variable {scope : Bytes}

def empty (scope : Bytes) : ScopedRecords scope := ⟨.empty, fun _ member => by cases member⟩

def put (self : ScopedRecords scope) (key : LogicalKey) (value : Bytes) : ScopedRecords scope where
  records := self.records.put (key.bytes scope) value
  keyed := by
    intro record member begins
    rcases SortedMap.mem_put.mp member with rfl | ⟨_, old⟩
    · exact ⟨key, rfl⟩
    · exact self.keyed record old begins

def Holds (self : ScopedRecords scope) (key : LogicalKey) (value : Bytes) : Prop :=
  (key.bytes scope, value) ∈ self.records.entries

/-- `scan` returns the first records of a range in the order of their keys. -/
def scan (self : ScopedRecords scope) (range : BoundRange) (limit : Nat) : List (KeyBuffer × Bytes) :=
  self.records.scanBetween range.start range.stop limit

def within (self : ScopedRecords scope) (range : BoundRange) : List (KeyBuffer × Bytes) :=
  self.records.between range.start range.stop

theorem mem_within {self : ScopedRecords scope} {range : BoundRange} {record : KeyBuffer × Bytes} :
    record ∈ self.within range ↔ record ∈ self.records.entries ∧ range.Contains record.1 :=
  SortedMap.mem_between

theorem scan_eq_take (self : ScopedRecords scope) (range : BoundRange) (limit : Nat) :
    self.scan range limit = (self.within range).take limit := rfl

theorem keyed_of_between {self : ScopedRecords scope} {start stop : Bytes} {record : KeyBuffer × Bytes}
    (member : record ∈ self.within ⟨scope ++ start, scope ++ stop⟩) :
    ∃ key : LogicalKey, record.1 = key.bytes scope := by
  obtain ⟨stored, notBelow, below⟩ := mem_within.mp member
  obtain ⟨rest, begins⟩ := exists_append_of_between (List.not_lt.mpr notBelow) below
  exact self.keyed record stored ⟨rest, begins.symm⟩

section Children

variable {dirIno : UInt64}

theorem mem_children_within {self : ScopedRecords scope} (small : dirIno.toNat < 2 ^ 64 - 1)
    {record : KeyBuffer × Bytes} :
    record ∈ self.within ((ScopedKeyBuilder.new scope).directoryChildRange dirIno) ↔
      ∃ name, record.1 = (LogicalKey.directoryChild dirIno name).bytes scope ∧ record ∈ self.records.entries := by
  constructor
  · intro member
    obtain ⟨stored, inside⟩ := mem_within.mp member
    have isRange : (ScopedKeyBuilder.new scope).directoryChildRange dirIno =
        ⟨scope ++ (getByRight KeyKind.iter .directoryChild :: writeBigEndian dirIno),
         scope ++ (getByRight KeyKind.iter .directoryChild :: writeBigEndian (dirIno + 1))⟩ := by
      simp [ScopedKeyBuilder.directoryChildRange, ScopedKeyBuilder.writeKeyKind, ScopedKeyBuilder.push,
        ScopedKeyBuilder.new]
    rw [isRange] at member
    obtain ⟨key, isKey⟩ := keyed_of_between member
    rw [isKey] at inside
    obtain ⟨name, rfl⟩ := (contains_directoryChildRange_iff small).mp inside
    exact ⟨name, isKey, stored⟩
  · rintro ⟨name, isKey, stored⟩
    refine mem_within.mpr ⟨stored, ?_⟩
    rw [isKey]
    exact (contains_directoryChildRange_iff small).mpr ⟨name, rfl⟩

end Children

section BlockHashes

variable {ino start stop : UInt64}

theorem mem_hashes_within {self : ScopedRecords scope} {record : KeyBuffer × Bytes} :
    record ∈ self.within ((ScopedKeyBuilder.new scope).blockHashRange ino start stop) ↔
      ∃ index, record.1 = (LogicalKey.blockHash ino index).bytes scope ∧ (start ≤ index ∧ index < stop) ∧
        record ∈ self.records.entries := by
  constructor
  · intro member
    obtain ⟨stored, inside⟩ := mem_within.mp member
    have isRange : (ScopedKeyBuilder.new scope).blockHashRange ino start stop =
        ⟨scope ++ (getByRight KeyKind.iter .inoBlockHashMapping :: (writeBigEndian ino ++ writeBigEndian start)),
         scope ++ (getByRight KeyKind.iter .inoBlockHashMapping ::
          (writeBigEndian ino ++ writeBigEndian stop))⟩ := by
      simp [ScopedKeyBuilder.blockHashRange, ScopedKeyBuilder.blockHash, ScopedKeyBuilder.writeKeyKind,
        ScopedKeyBuilder.push, ScopedKeyBuilder.new]
    rw [isRange] at member
    obtain ⟨key, isKey⟩ := keyed_of_between member
    rw [isKey] at inside
    obtain ⟨index, rfl, bounds⟩ := contains_blockHashRange_iff.mp inside
    exact ⟨index, isKey, bounds, stored⟩
  · rintro ⟨index, isKey, bounds, stored⟩
    refine mem_within.mpr ⟨stored, ?_⟩
    rw [isKey]
    exact contains_blockHashRange_iff.mpr ⟨index, rfl, bounds⟩

end BlockHashes

end ScopedRecords

theorem mapM_eq_filterMap {A B E : Type} {items : List A} {body : A → Except E B} {part : A → Option B}
    (ok : ∀ item ∈ items, ∃ result, body item = .ok result ∧ part item = some result) :
    items.mapM body = .ok (items.filterMap part) := by
  induction items with
  | nil => rfl
  | cons head tail ih =>
      obtain ⟨result, ran, isPart⟩ := ok head List.mem_cons_self
      rw [List.mapM_cons, ran, ih fun item listed => ok item (List.mem_cons_of_mem _ listed),
        List.filterMap_cons_some isPart]
      rfl

theorem map_toNat_lt_iff {left right : ByteString} :
    left.map UInt8.toNat < right.map UInt8.toNat ↔ left < right := by
  induction left generalizing right with
  | nil =>
      cases right with
      | nil => simp [List.lt_irrefl]
      | cons byte rest => simp [List.nil_lt_cons]
  | cons byte rest ih =>
      cases right with
      | nil => simp [List.not_lt_nil]
      | cons other more =>
          rw [List.map_cons, List.map_cons, List.cons_lt_cons_iff, List.cons_lt_cons_iff, ih, UInt8.toNat_inj,
            UInt8.lt_iff_toNat_lt]

theorem nameLe_iff {left right : ByteString} : NameLe left right ↔ ¬ right < left := by
  rw [← map_toNat_lt_iff]
  exact not_lt.symm

namespace ScopedRecords

variable {scope : Bytes}

def directoryScanForChildren (decode : Bytes → Except FsError StorageDirItem) (hashLen : Nat)
    (self : ScopedRecords scope) (dirIno : UInt64) (limit : Nat) : Except FsError (List DirectoryItem) :=
  (self.scan ((ScopedKeyBuilder.new scope).directoryChildRange dirIno) limit).mapM fun record => do
    let parser ← KeyParser.start record.1 scope hashLen
    let (_, name) ← parser.parseDirectoryChild
    let item ← decode record.2
    return ⟨item.ino, Utf8.lossy name, item.typ⟩

/-- The records of the entries of a directory: names are UTF-8, values are encoded items. -/
structure HoldsChildren (decode : Bytes → Except FsError StorageDirItem) (raw : ScopedRecords scope)
    (store : Store) (dirIno : UInt64) : Prop where
  entries : ∀ name value, raw.Holds (.directoryChild dirIno name) value → Utf8.lossy name = name ∧
    ∃ item, decode value = .ok item ∧ dirEntry store dirIno.toNat name = some item
  stored : ∀ name item, dirEntry store dirIno.toNat name = some item →
    ∃ value, raw.Holds (.directoryChild dirIno name) value

section Children

variable {dirIno : UInt64}

def nameOf (scope : Bytes) (key : KeyBuffer) : ByteString := key.drop (scope.length + 9)

theorem nameOf_child (dirIno : UInt64) (name : ByteString) :
    nameOf scope ((LogicalKey.directoryChild dirIno name).bytes scope) = name := by
  have front : (LogicalKey.directoryChild dirIno name).bytes scope =
      (scope ++ getByRight KeyKind.iter .directoryChild :: writeBigEndian dirIno) ++ name := by
    rw [LogicalKey.bytes_eq, List.append_assoc]
    rfl
  have length : (scope ++ getByRight KeyKind.iter .directoryChild :: writeBigEndian dirIno).length =
      scope.length + 9 := by
    simp
  rw [nameOf, front, ← length, List.drop_left]

theorem child_bytes_lt_iff {left right : ByteString} :
    (LogicalKey.directoryChild dirIno left).bytes scope < (LogicalKey.directoryChild dirIno right).bytes scope ↔
      left < right := by
  rw [LogicalKey.bytes_eq, LogicalKey.bytes_eq, scoped_lt_iff]
  simp only [LogicalKey.kind, LogicalKey.body, writeBigEndian_append_lt_iff, UInt8.lt_irrefl, UInt64.lt_irrefl,
    false_or, true_and]

theorem names_within {decode : Bytes → Except FsError StorageDirItem} {self : ScopedRecords scope}
    {store : Store} (small : dirIno.toNat < 2 ^ 64 - 1) (holds : HoldsChildren decode self store dirIno) :
    (self.within ((ScopedKeyBuilder.new scope).directoryChildRange dirIno)).map (fun record =>
      nameOf scope record.1) = (childNames store dirIno.toNat).sort NameLe := by
  set records := self.within ((ScopedKeyBuilder.new scope).directoryChildRange dirIno) with isRecords
  have ordered : (records.map fun record => nameOf scope record.1).Pairwise (· < ·) := by
    rw [List.pairwise_map]
    have sorted : records.Pairwise fun left right => left.1 < right.1 := SortedMap.between_sorted _ _ _
    refine sorted.imp_of_mem ?_
    intro left right inLeft inRight less
    obtain ⟨leftName, isLeft, _⟩ := (mem_children_within small).mp inLeft
    obtain ⟨rightName, isRight, _⟩ := (mem_children_within small).mp inRight
    rw [isLeft, isRight] at less ⊢
    rw [nameOf_child, nameOf_child]
    exact child_bytes_lt_iff.mp less
  have members : ∀ name, name ∈ (records.map fun record => nameOf scope record.1) ↔
      name ∈ (childNames store dirIno.toNat).sort NameLe := by
    intro name
    rw [Finset.mem_sort, mem_childNames, Option.ne_none_iff_exists', List.mem_map]
    constructor
    · rintro ⟨record, member, rfl⟩
      obtain ⟨name, isKey, stored⟩ := (mem_children_within small).mp member
      rw [isKey, nameOf_child]
      obtain ⟨_, item, _, isItem⟩ := holds.entries name record.2 (by rw [Holds, ← isKey]; exact stored)
      exact ⟨item, isItem⟩
    · rintro ⟨item, isItem⟩
      obtain ⟨value, stored⟩ := holds.stored name item isItem
      exact ⟨_, (mem_children_within small).mpr ⟨name, rfl, stored⟩, nameOf_child dirIno name⟩
  have nodup : (records.map fun record => nameOf scope record.1).Nodup :=
    ordered.imp fun less => Std.ne_of_lt less
  refine ((List.perm_ext_iff_of_nodup nodup (Finset.sort_nodup _ _)).mpr members).eq_of_pairwise
    (fun first second _ _ => antisymm) ?_ (Finset.pairwise_sort _ _)
  exact ordered.imp fun less => nameLe_iff.mpr (List.lt_asymm less)

/-- The scan of the records of a directory is the scan of its entries. -/
theorem scan_refines {decode : Bytes → Except FsError StorageDirItem} {self : ScopedRecords scope}
    {store : Store} (hashLen limit : Nat) (small : dirIno.toNat < 2 ^ 64 - 1)
    (holds : HoldsChildren decode self store dirIno) :
    atomically (TiFs.directoryScanForChildren dirIno.toNat limit) store =
      (self.directoryScanForChildren decode hashLen dirIno limit).map fun items => (items, store) := by
  have parsed : ∀ record ∈ self.scan ((ScopedKeyBuilder.new scope).directoryChildRange dirIno) limit,
      ∃ item : DirectoryItem,
        (do
          let parser ← KeyParser.start record.1 scope hashLen
          let (_, name) ← parser.parseDirectoryChild
          let item ← decode record.2
          return (⟨item.ino, Utf8.lossy name, item.typ⟩ : DirectoryItem)) = .ok item ∧
        ((dirEntry store dirIno.toNat (nameOf scope record.1)).map fun item =>
          (⟨item.ino, nameOf scope record.1, item.typ⟩ : DirectoryItem)) = some item := by
    intro record listed
    obtain ⟨name, isKey, stored⟩ := (mem_children_within small).mp (List.mem_of_mem_take listed)
    obtain ⟨valid, item, decoded, isItem⟩ :=
      holds.entries name record.2 (by rw [Holds, ← isKey]; exact stored)
    refine ⟨⟨item.ino, name, item.typ⟩, ?_, ?_⟩
    · rw [isKey, LogicalKey.start_bind, decoded]
      simp only [KeyParser.parseDirectoryChild, LogicalKey.kind, LogicalKey.body, readBigEndian_write, ne_eq,
        not_true_eq_false, if_false]
      simp only [bind, Except.bind, valid]
      rfl
    · rw [isKey, nameOf_child, isItem]
      rfl
  rw [directoryScanForChildren, mapM_eq_filterMap parsed, scan_eq_take]
  have names := names_within small holds
  have listed : (((childNames store dirIno.toNat).sort NameLe).take limit).filterMap (fun name =>
      (dirEntry store dirIno.toNat name).map fun item => (⟨item.ino, name, item.typ⟩ : DirectoryItem)) =
      ((self.within ((ScopedKeyBuilder.new scope).directoryChildRange dirIno)).take limit).filterMap
        fun record => (dirEntry store dirIno.toNat (nameOf scope record.1)).map fun item =>
          (⟨item.ino, nameOf scope record.1, item.typ⟩ : DirectoryItem) := by
    rw [← names, ← List.map_take, List.filterMap_map]
    rfl
  rw [← listed]
  rfl

end Children

end ScopedRecords

end TiFs
