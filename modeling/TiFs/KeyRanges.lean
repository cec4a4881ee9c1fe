import TiFs.KeyCodec

namespace TiFs

open BigEndian

/-- The start is included and the end is not. -/
structure BoundRange where
  start : KeyBuffer
  stop : KeyBuffer

def BoundRange.Contains (range : BoundRange) (key : KeyBuffer) : Prop :=
  range.start ≤ key ∧ key < range.stop

namespace ScopedKeyBuilder

def parentLinkScan (self : ScopedKeyBuilder) (ino : UInt64) : BoundRange :=
  let me := self.writeKeyKind .parentLink
  ⟨(me.push (writeBigEndian ino)).buf, (me.push (writeBigEndian (ino + 1))).buf⟩

def directoryChildRange (self : ScopedKeyBuilder) (dirIno : UInt64) : BoundRange :=
  ⟨((self.writeKeyKind .directoryChild).push (writeBigEndian dirIno)).buf,
   ((self.writeKeyKind .directoryChild).push (writeBigEndian (dirIno + 1))).buf⟩

def blockHashRange (self : ScopedKeyBuilder) (ino start stop : UInt64) : BoundRange :=
  ⟨self.blockHash ino start, self.blockHash ino stop⟩

def blockRange (self : ScopedKeyBuilder) (ino start stop : UInt64) : BoundRange :=
  ⟨self.block ino start, self.block ino stop⟩

def inodeMetadataRange (self : ScopedKeyBuilder) (ino : UInt64) : BoundRange :=
  ⟨self.inodeDescription ino, self.inodeDescription (ino + 1)⟩

end ScopedKeyBuilder

section Order

variable {scope : Bytes}

theorem writeBigEndian_append_lt_iff {left right : UInt64} {leftRest rightRest : Bytes} :
    writeBigEndian left ++ leftRest < writeBigEndian right ++ rightRest ↔
      left < right ∨ left = right ∧ leftRest < rightRest := by
  rw [writeBigEndian, writeBigEndian, write_append_lt_iff left.toNat_lt right.toNat_lt,
    UInt64.lt_iff_toNat_lt, UInt64.toNat_inj]

theorem scoped_lt_iff {left right : UInt8} {leftBody rightBody : Bytes} :
    scope ++ left :: leftBody < scope ++ right :: rightBody ↔
      left < right ∨ left = right ∧ leftBody < rightBody := by
  rw [append_lt_append_iff rfl, List.cons_lt_cons_iff]
  simp [List.lt_irrefl]

theorem contains_scoped_iff {kind : KeyKind} {start stop : Bytes} {key : LogicalKey} :
    (BoundRange.mk (scope ++ getByRight KeyKind.iter kind :: start)
        (scope ++ getByRight KeyKind.iter kind :: stop)).Contains (key.bytes scope) ↔
      key.kind = kind ∧ ¬ key.body < start ∧ key.body < stop := by
  rw [BoundRange.Contains, key.bytes_eq, ← List.not_lt, scoped_lt_iff, scoped_lt_iff]
  constructor
  · intro inside
    obtain ⟨notBelow, below⟩ := inside
    rcases below with less | ⟨same, bodyBelow⟩
    · exact absurd (Or.inl less) notBelow
    · exact ⟨KeyKind.id_injective same, fun bodyLess => notBelow (Or.inr ⟨same, bodyLess⟩), bodyBelow⟩
  · intro inside
    obtain ⟨rfl, notBelow, below⟩ := inside
    refine ⟨?_, Or.inr ⟨rfl, below⟩⟩
    intro less
    rcases less with less | ⟨_, bodyLess⟩
    · exact absurd less (UInt8.lt_irrefl _)
    · exact notBelow bodyLess

theorem lt_succ_of_small {ino : UInt64} (small : ino.toNat < 2 ^ 64 - 1) (other : UInt64) :
    other < ino + 1 ↔ other < ino ∨ other = ino := by
  have next : (ino + 1).toNat = ino.toNat + 1 := by
    rw [UInt64.toNat_add]
    exact Nat.mod_eq_of_lt (by simp; omega)
  rw [UInt64.lt_iff_toNat_lt, UInt64.lt_iff_toNat_lt, ← UInt64.toNat_inj, next]
  omega

/-- What follows a number is between the number and the next one exactly if the
numbers agree; both ends may be followed by the smallest string of what follows. -/
theorem between_iff {ino other : UInt64} (small : ino.toNat < 2 ^ 64 - 1) {rest least : Bytes}
    (isLeast : ¬ rest < least) :
    (¬ writeBigEndian other ++ rest < writeBigEndian ino ++ least ∧
        writeBigEndian other ++ rest < writeBigEndian (ino + 1) ++ least) ↔ other = ino := by
  rw [writeBigEndian_append_lt_iff, writeBigEndian_append_lt_iff, lt_succ_of_small small]
  constructor
  · intro between
    obtain ⟨notBelow, below⟩ := between
    rcases below with (less | same) | ⟨_, restLess⟩
    · exact absurd (Or.inl less) notBelow
    · exact same
    · exact absurd restLess isLeast
  · intro same
    refine ⟨?_, Or.inl (Or.inr same)⟩
    intro below
    rcases below with less | ⟨_, restLess⟩
    · rw [same] at less
      exact absurd less (UInt64.lt_irrefl _)
    · exact isLeast restLess

theorem contains_directoryChildRange_iff {ino : UInt64} (small : ino.toNat < 2 ^ 64 - 1)
    {key : LogicalKey} :
    ((ScopedKeyBuilder.new scope).directoryChildRange ino).Contains (key.bytes scope) ↔
      ∃ name, key = .directoryChild ino name := by
  have isRange : (ScopedKeyBuilder.new scope).directoryChildRange ino =
      ⟨scope ++ getByRight KeyKind.iter .directoryChild :: (writeBigEndian ino ++ []),
       scope ++ getByRight KeyKind.iter .directoryChild :: (writeBigEndian (ino + 1) ++ [])⟩ := by
    simp [ScopedKeyBuilder.directoryChildRange, ScopedKeyBuilder.writeKeyKind, ScopedKeyBuilder.push,
      ScopedKeyBuilder.new]
  rw [isRange, contains_scoped_iff]
  constructor
  · intro inside
    cases key with
    | directoryChild parent name =>
        obtain rfl := (between_iff small (List.not_lt_nil name)).mp inside.2
        exact ⟨name, rfl⟩
    | _ => cases inside.1
  · intro isChild
    obtain ⟨name, rfl⟩ := isChild
    exact ⟨rfl, (between_iff small (List.not_lt_nil name)).mpr rfl⟩

theorem contains_parentLinkScan_iff {ino : UInt64} (small : ino.toNat < 2 ^ 64 - 1)
    {key : LogicalKey} :
    ((ScopedKeyBuilder.new scope).parentLinkScan ino).Contains (key.bytes scope) ↔
      ∃ parent name, key = .parentLink ino parent name := by
  have isRange : (ScopedKeyBuilder.new scope).parentLinkScan ino =
      ⟨scope ++ getByRight KeyKind.iter .parentLink :: (writeBigEndian ino ++ []),
       scope ++ getByRight KeyKind.iter .parentLink :: (writeBigEndian (ino + 1) ++ [])⟩ := by
    simp [ScopedKeyBuilder.parentLinkScan, ScopedKeyBuilder.writeKeyKind, ScopedKeyBuilder.push,
      ScopedKeyBuilder.new]
  rw [isRange, contains_scoped_iff]
  constructor
  · intro inside
    cases key with
    | parentLink other parent name =>
        obtain rfl := (between_iff small (List.not_lt_nil (writeBigEndian parent ++ name))).mp inside.2
        exact ⟨parent, name, rfl⟩
    | _ => cases inside.1
  · intro isLink
    obtain ⟨parent, name, rfl⟩ := isLink
    exact ⟨rfl, (between_iff small (List.not_lt_nil (writeBigEndian parent ++ name))).mpr rfl⟩

theorem not_lt_description (tag : InoMetadata) (rest : Bytes) :
    ¬ getByRight InoMetadata.iter tag :: rest < [getByRight InoMetadata.iter .description] := by
  rw [List.cons_lt_cons_iff]
  intro less
  rcases less with less | ⟨_, restLess⟩
  · have lowest : getByRight InoMetadata.iter .description = 0 := rfl
    rw [lowest, UInt8.lt_iff_toNat_lt] at less
    exact absurd less (Nat.not_lt_zero _)
  · exact List.not_lt_nil rest restLess

theorem contains_inodeMetadataRange_iff {ino : UInt64} (small : ino.toNat < 2 ^ 64 - 1)
    {key : LogicalKey} :
    ((ScopedKeyBuilder.new scope).inodeMetadataRange ino).Contains (key.bytes scope) ↔
      (∃ tag, key = .inodeX ino tag) ∨ ∃ instanceId, key = .openedInode ino instanceId := by
  have isRange : (ScopedKeyBuilder.new scope).inodeMetadataRange ino =
      ⟨scope ++ getByRight KeyKind.iter .inoMetadata ::
          (writeBigEndian ino ++ [getByRight InoMetadata.iter .description]),
       scope ++ getByRight KeyKind.iter .inoMetadata ::
          (writeBigEndian (ino + 1) ++ [getByRight InoMetadata.iter .description])⟩ := by
    simp [ScopedKeyBuilder.inodeMetadataRange, ScopedKeyBuilder.inodeDescription,
      ScopedKeyBuilder.inodeX, ScopedKeyBuilder.writeKeyKind, ScopedKeyBuilder.push,
      ScopedKeyBuilder.new]
  rw [isRange, contains_scoped_iff]
  constructor
  · intro inside
    cases key with
    | inodeX other tag =>
        obtain rfl := (between_iff small (not_lt_description tag [])).mp inside.2
        exact Or.inl ⟨tag, rfl⟩
    | openedInode other instanceId =>
        obtain rfl :=
          (between_iff small (not_lt_description .opened (Uuid.asBytes instanceId))).mp inside.2
        exact Or.inr ⟨instanceId, rfl⟩
    | _ => cases inside.1
  · intro isMetadata
    rcases isMetadata with ⟨tag, rfl⟩ | ⟨instanceId, rfl⟩
    · exact ⟨rfl, (between_iff small (not_lt_description tag [])).mpr rfl⟩
    · exact ⟨rfl,
        (between_iff small (not_lt_description .opened (Uuid.asBytes instanceId))).mpr rfl⟩

theorem writeBigEndian_lt_iff {left right : UInt64} :
    writeBigEndian left < writeBigEndian right ↔ left < right := by
  rw [writeBigEndian, writeBigEndian, write_lt_write_iff left.toNat_lt right.toNat_lt,
    UInt64.lt_iff_toNat_lt]

theorem contains_blockHashRange_iff {ino start stop : UInt64} {key : LogicalKey} :
    ((ScopedKeyBuilder.new scope).blockHashRange ino start stop).Contains (key.bytes scope) ↔
      ∃ index, key = .blockHash ino index ∧ start ≤ index ∧ index < stop := by
  have isRange : (ScopedKeyBuilder.new scope).blockHashRange ino start stop =
      ⟨scope ++ getByRight KeyKind.iter .inoBlockHashMapping ::
          (writeBigEndian ino ++ writeBigEndian start),
       scope ++ getByRight KeyKind.iter .inoBlockHashMapping ::
          (writeBigEndian ino ++ writeBigEndian stop)⟩ := by
    simp [ScopedKeyBuilder.blockHashRange, ScopedKeyBuilder.blockHash, ScopedKeyBuilder.writeKeyKind,
      ScopedKeyBuilder.push, ScopedKeyBuilder.new]
  rw [isRange, contains_scoped_iff]
  constructor
  · intro inside
    cases key with
    | blockHash other index =>
        obtain ⟨_, notBelow, below⟩ := inside
        rw [LogicalKey.body, writeBigEndian_append_lt_iff, writeBigEndian_lt_iff] at notBelow below
        rcases below with less | ⟨rfl, below⟩
        · exact absurd (Or.inl less) notBelow
        · refine ⟨index, rfl, ?_, below⟩
          rw [← UInt64.not_lt]
          exact fun less => notBelow (Or.inr ⟨rfl, less⟩)
    | _ => cases inside.1
  · intro isHash
    obtain ⟨index, rfl, notBelow, below⟩ := isHash
    refine ⟨rfl, ?_, ?_⟩
    · rw [LogicalKey.body, writeBigEndian_append_lt_iff, writeBigEndian_lt_iff]
      intro less
      rcases less with less | ⟨_, less⟩
      · exact absurd less (UInt64.lt_irrefl _)
      · exact UInt64.not_lt.mpr notBelow less
    · rw [LogicalKey.body, writeBigEndian_append_lt_iff, writeBigEndian_lt_iff]
      exact Or.inr ⟨rfl, below⟩

theorem blockHash_bytes_lt_iff {ino left right : UInt64} :
    (LogicalKey.blockHash ino left).bytes scope < (LogicalKey.blockHash ino right).bytes scope ↔
      left < right := by
  rw [LogicalKey.bytes_eq, LogicalKey.bytes_eq, scoped_lt_iff, LogicalKey.body, LogicalKey.body,
    writeBigEndian_append_lt_iff, writeBigEndian_lt_iff]
  constructor
  · intro less
    rcases less with less | ⟨_, less | ⟨_, less⟩⟩
    · exact absurd less (UInt8.lt_irrefl _)
    · exact absurd less (UInt64.lt_irrefl _)
    · exact less
  · intro less
    exact Or.inr ⟨rfl, Or.inr ⟨rfl, less⟩⟩

end Order

/-- Every scan range holds its family of keys of one inode and nothing else. -/
theorem scan_ranges_exact (scope : Bytes) (ino start stop : UInt64)
    (small : ino.toNat < 2 ^ 64 - 1) :
    (∀ key : LogicalKey,
      ((ScopedKeyBuilder.new scope).directoryChildRange ino).Contains (key.bytes scope) ↔
        ∃ name, key = .directoryChild ino name) ∧
    (∀ key : LogicalKey,
      ((ScopedKeyBuilder.new scope).parentLinkScan ino).Contains (key.bytes scope) ↔
        ∃ parent name, key = .parentLink ino parent name) ∧
    (∀ key : LogicalKey,
      ((ScopedKeyBuilder.new scope).inodeMetadataRange ino).Contains (key.bytes scope) ↔
        (∃ tag, key = .inodeX ino tag) ∨ ∃ instanceId, key = .openedInode ino instanceId) ∧
    (∀ key : LogicalKey,
      ((ScopedKeyBuilder.new scope).blockHashRange ino start stop).Contains (key.bytes scope) ↔
        ∃ index, key = .blockHash ino index ∧ start ≤ index ∧ index < stop) ∧
    ∀ left right : UInt64,
      (LogicalKey.blockHash ino left).bytes scope < (LogicalKey.blockHash ino right).bytes scope ↔
        left < right := by
  refine ⟨?_, ?_, ?_, ?_, ?_⟩
  · exact fun key => contains_directoryChildRange_iff small
  · exact fun key => contains_parentLinkScan_iff small
  · exact fun key => contains_inodeMetadataRange_iff small
  · exact fun key => contains_blockHashRange_iff
  · exact fun left right => blockHash_bytes_lt_iff

/-- The byte of the inode number carries into the next one. -/
theorem scan_ranges_exact_carry :
    ((ScopedKeyBuilder.new [7]).directoryChildRange 255).Contains
      ((LogicalKey.directoryChild 255 [255, 255]).bytes [7]) ∧
    ¬ ((ScopedKeyBuilder.new [7]).directoryChildRange 255).Contains
      ((LogicalKey.directoryChild 256 []).bytes [7]) := by
  have children := (scan_ranges_exact [7] 255 0 0 (by decide)).1
  constructor
  · exact (children _).mpr ⟨_, rfl⟩
  · intro inside
    obtain ⟨name, isChild⟩ := (children _).mp inside
    exact absurd (LogicalKey.directoryChild.inj isChild).1 (by decide)

end TiFs
