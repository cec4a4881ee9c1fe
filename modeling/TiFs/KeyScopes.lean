import TiFs.KeyRanges

/-! File systems that share a cluster. The name a file system is mounted with is the
scope of its key builder, put in front of the kind of every key without a length or a
separator. -/

namespace TiFs

open BigEndian

inductive ScanRange where
  | directoryChildRange (dirIno : UInt64)
  | parentLinkScan (ino : UInt64)
  | blockRange (ino start stop : UInt64)
  | blockHashRange (ino start stop : UInt64)
  | inodeMetadataRange (ino : UInt64)

namespace ScanRange

def bounds (scope : Bytes) : ScanRange → BoundRange
  | .directoryChildRange dirIno => (ScopedKeyBuilder.new scope).directoryChildRange dirIno
  | .parentLinkScan ino => (ScopedKeyBuilder.new scope).parentLinkScan ino
  | .blockRange ino start stop => (ScopedKeyBuilder.new scope).blockRange ino start stop
  | .blockHashRange ino start stop => (ScopedKeyBuilder.new scope).blockHashRange ino start stop
  | .inodeMetadataRange ino => (ScopedKeyBuilder.new scope).inodeMetadataRange ino

def ino : ScanRange → UInt64
  | .directoryChildRange dirIno => dirIno
  | .parentLinkScan ino => ino
  | .blockRange ino _ _ => ino
  | .blockHashRange ino _ _ => ino
  | .inodeMetadataRange ino => ino

def kind : ScanRange → KeyKind
  | .directoryChildRange _ => .directoryChild
  | .parentLinkScan _ => .parentLink
  | .blockRange _ _ _ => .block
  | .blockHashRange _ _ _ => .inoBlockHashMapping
  | .inodeMetadataRange _ => .inoMetadata

theorem bounds_eq (scope : Bytes) (range : ScanRange) :
    ∃ start stop, range.bounds scope =
      ⟨scope ++ getByRight KeyKind.iter range.kind :: start,
       scope ++ getByRight KeyKind.iter range.kind :: stop⟩ := by
  cases range <;>
    simp [bounds, kind, ScopedKeyBuilder.directoryChildRange, ScopedKeyBuilder.parentLinkScan,
      ScopedKeyBuilder.blockRange, ScopedKeyBuilder.block, ScopedKeyBuilder.blockHashRange,
      ScopedKeyBuilder.blockHash, ScopedKeyBuilder.inodeMetadataRange,
      ScopedKeyBuilder.inodeDescription, ScopedKeyBuilder.inodeX, ScopedKeyBuilder.writeKeyKind,
      ScopedKeyBuilder.push, ScopedKeyBuilder.new]

end ScanRange

/-- The file system of a scope builds the key, or a range that holds it. -/
def Meets (scope : Bytes) (key : KeyBuffer) : Prop :=
  (∃ own : LogicalKey, own.bytes scope = key) ∨
    ∃ range : ScanRange, range.ino.toNat < 2 ^ 64 - 1 ∧ (range.bounds scope).Contains key

theorem KeyKind.id_small (kind : KeyKind) : getByRight KeyKind.iter kind < 12 := by
  cases kind <;> decide

theorem Meets.starts {scope : Bytes} {key : KeyBuffer} (meets : Meets scope key) :
    ∃ kind rest, key = scope ++ getByRight KeyKind.iter kind :: rest := by
  rcases meets with ⟨own, rfl⟩ | ⟨range, _, inside⟩
  · exact ⟨own.kind, own.body, own.bytes_eq scope⟩
  · obtain ⟨start, stop, isRange⟩ := range.bounds_eq scope
    rw [isRange, BoundRange.Contains, ← List.not_lt] at inside
    obtain ⟨notBelow, below⟩ := inside
    dsimp only at notBelow below
    rw [List.append_cons] at notBelow below
    obtain ⟨rest, rfl⟩ := exists_append_of_between notBelow below
    exact ⟨range.kind, rest, (List.append_cons _ _ _).symm⟩

/-- The second scope is the first one followed by the byte of a kind. -/
def Nested (scope inner : Bytes) : Prop := ∃ byte rest, byte < 12 ∧ inner = scope ++ byte :: rest

/-- Two strings with different scopes in front of a kind agree only if one scope
goes on with the byte of a kind where the other one ends. -/
theorem nested_of_same {p q : Bytes} (different : p ≠ q) {pKind qKind : KeyKind} {pRest qRest : Bytes}
    (same : p ++ getByRight KeyKind.iter pKind :: pRest = q ++ getByRight KeyKind.iter qKind :: qRest) :
    Nested p q ∨ Nested q p := by
  rcases List.append_eq_append_iff.mp same with ⟨middle, isLonger, isRest⟩ | ⟨middle, isLonger, isRest⟩
  · cases middle with
    | nil => exact absurd (by simpa using isLonger.symm) different
    | cons byte middle =>
        rw [List.cons_append, List.cons.injEq] at isRest
        exact Or.inl ⟨byte, middle, isRest.1 ▸ pKind.id_small, isLonger⟩
  · cases middle with
    | nil => exact absurd (by simpa using isLonger) different
    | cons byte middle =>
        rw [List.cons_append, List.cons.injEq] at isRest
        exact Or.inr ⟨byte, middle, isRest.1 ▸ qKind.id_small, isLonger⟩

theorem Meets.nested {p q : Bytes} (different : p ≠ q) {key : LogicalKey}
    (meets : Meets p (key.bytes q)) : Nested p q ∨ Nested q p := by
  obtain ⟨kind, rest, same⟩ := meets.starts
  rw [key.bytes_eq] at same
  exact nested_of_same different same.symm

theorem Nested.small_mem {scope inner : Bytes} (nested : Nested scope inner) :
    ∃ byte ∈ inner, byte < 12 := by
  obtain ⟨byte, rest, small, rfl⟩ := nested
  exact ⟨byte, by simp, small⟩

/-- A file system meets a key of another one only if one of their names continues the
other with the byte of a kind; so two file systems without such bytes in their names
never meet keys of each other. -/
theorem scopes_isolated (p q : Bytes) (different : p ≠ q) :
    (∀ key : LogicalKey, Meets p (key.bytes q) → Nested p q ∨ Nested q p) ∧
    ((∀ byte ∈ p, 12 ≤ byte) → (∀ byte ∈ q, 12 ≤ byte) →
      ∀ key : LogicalKey, ¬ Meets p (key.bytes q) ∧ ¬ Meets q (key.bytes p)) := by
  constructor
  · intro key meets
    exact meets.nested different
  · intro pLarge qLarge key
    have notNested : ¬ (Nested p q ∨ Nested q p) := by
      intro nested
      rcases nested with nested | nested
      · obtain ⟨byte, member, small⟩ := nested.small_mem
        exact UInt8.not_lt.mpr (qLarge byte member) small
      · obtain ⟨byte, member, small⟩ := nested.small_mem
        exact UInt8.not_lt.mpr (pLarge byte member) small
    constructor
    · intro meets
      exact notNested (meets.nested different)
    · intro meets
      exact notNested (meets.nested different.symm).symm

/-- The names `fs` and `fs2` keep apart. -/
theorem scopes_isolated_numbered :
    ¬ Meets [102, 115] (LogicalKey.metaStatic.bytes [102, 115, 50]) :=
  ((scopes_isolated [102, 115] [102, 115, 50] (by decide)).2 (by simp) (by simp) .metaStatic).1

/-- A name that goes on with the byte of a kind and the number of a directory lies
among the children of that directory. -/
example : Meets [102] (LogicalKey.metaStatic.bytes [102, 5, 0, 0, 0, 0, 0, 0, 0, 1]) :=
  Or.inr ⟨.directoryChildRange 1, by decide, by decide, by decide⟩

end TiFs
