import TiFs.KeyRanges

/-! The ranges that are made of a builder itself: over the keys that begin with its bytes,
and over the lists of pending deletes. Against the writers of the keys they are for. -/

namespace TiFs

open BigEndian

namespace ScopedKeyBuilder

/-- The last byte is increased in place; there is no range where it is missing or overflows. -/
def subKeyRange (self : ScopedKeyBuilder) : Option BoundRange :=
  match self.buf.getLast? with
  | some last =>
      if last.toNat + 1 < 2 ^ 8 then some ⟨self.buf, self.buf.dropLast ++ [last + 1]⟩ else none
  | none => none

def namedHashedBlockRange (self : ScopedKeyBuilder) (hash : TiFsHash) : Option BoundRange :=
  (((self.writeKeyKind .namedHashedBlock).push hash).push
    [getByRight HashedBlockMeta.iter .aNamedBlock]).subKeyRange

def namedHashedBlockAllRange (self : ScopedKeyBuilder) (hash : TiFsHash) : Option BoundRange :=
  ((self.writeKeyKind .namedHashedBlock).push hash).subKeyRange

/-- `pending_delete_x` writes the kind of the key behind the one that is already there. -/
def pendingDeleteScanList (self : ScopedKeyBuilder) : BoundRange :=
  let me := self.writeKeyKind .pendingDelete
  ⟨(me.pendingDeleteX .aIterationNumber).buf, (me.pendingDeleteX .dActiveWriters).buf⟩

end ScopedKeyBuilder

def namedKey (scope : Bytes) (hash : TiFsHash) (tag : HashedBlockMeta) (name : Uuid) : KeyBuffer :=
  (LogicalKey.namedHashedBlockX hash tag (some name)).bytes scope

/-- All keys of a hash are in its range, and none of another hash as long. -/
def AllRangeCovers (scope : Bytes) (hash : TiFsHash) : Prop :=
  ∃ range, (ScopedKeyBuilder.new scope).namedHashedBlockAllRange hash = some range ∧
    (∀ tag name, range.Contains (namedKey scope hash tag name)) ∧
    ∀ other tag name, other.length = hash.length → other ≠ hash → ¬ range.Contains (namedKey scope other tag name)

/-- Of the keys of a hash those of named blocks are in the range, and of other hashes as long none is. -/
def NamedRangeCovers (scope : Bytes) (hash : TiFsHash) : Prop :=
  ∃ range, (ScopedKeyBuilder.new scope).namedHashedBlockRange hash = some range ∧
    ∀ other tag name, other.length = hash.length →
      (range.Contains (namedKey scope other tag name) ↔ other = hash ∧ tag = .aNamedBlock)

/-- The lists in front of the active writers are in the range, and the active writers are not. -/
def ScanListCovers (scope : Bytes) : Prop :=
  (∀ kind ∈ [PendingDeleteMeta.aIterationNumber, .bLastUpdate, .cPendingDeletes],
    (ScopedKeyBuilder.new scope).pendingDeleteScanList.Contains ((LogicalKey.pendingDeleteX kind).bytes scope)) ∧
  (∀ hash, (ScopedKeyBuilder.new scope).pendingDeleteScanList.Contains
    ((LogicalKey.pendingDeleteBlockHash hash).bytes scope)) ∧
  ∀ iterationNumber writerId, ¬ (ScopedKeyBuilder.new scope).pendingDeleteScanList.Contains
    ((LogicalKey.pendingDeleteActiveWriter iterationNumber writerId).bytes scope)

section SubKeys

variable {scope front : Bytes} {last : UInt8} {range : BoundRange} {key : KeyBuffer}

theorem subKeyRange_concat (front : Bytes) (last : UInt8) :
    ScopedKeyBuilder.subKeyRange ⟨front ++ [last]⟩ =
      if last.toNat + 1 < 2 ^ 8 then some ⟨front ++ [last], front ++ [last + 1]⟩ else none := by
  simp only [ScopedKeyBuilder.subKeyRange, List.getLast?_concat, List.dropLast_concat]

/-- The range of a builder holds exactly the keys that begin with its bytes. -/
theorem contains_subKeyRange_iff (isRange : ScopedKeyBuilder.subKeyRange ⟨front ++ [last]⟩ = some range) :
    range.Contains key ↔ ∃ rest, key = front ++ last :: rest := by
  rw [subKeyRange_concat] at isRange
  obtain ⟨small, isBounds⟩ := Option.ite_none_right_eq_some.mp isRange
  obtain rfl := Option.some.inj isBounds
  have next : (last + 1).toNat = last.toNat + 1 := by
    rw [UInt8.toNat_add]
    exact Nat.mod_eq_of_lt small
  rw [BoundRange.Contains, ← List.not_lt]
  dsimp only
  constructor
  · rintro ⟨notBelow, below⟩
    obtain ⟨behind, rfl⟩ := exists_append_of_between notBelow below
    rw [append_lt_append_iff rfl] at notBelow below
    simp only [List.lt_irrefl, false_or, true_and] at notBelow below
    cases behind with
    | nil => exact absurd (List.nil_lt_cons last []) notBelow
    | cons byte rest =>
        rw [List.cons_lt_cons_iff] at notBelow below
        refine ⟨rest, ?_⟩
        have least : ¬ byte < last := fun less => notBelow (Or.inl less)
        have most : byte < last + 1 := below.resolve_right (fun same => List.not_lt_nil rest same.2)
        rw [UInt8.lt_iff_toNat_lt] at least most
        rw [UInt8.toNat_inj.mp (show byte.toNat = last.toNat by omega)]
  · rintro ⟨rest, rfl⟩
    constructor
    · rw [append_lt_append_iff rfl]
      simp only [List.lt_irrefl, false_or, true_and, List.cons_lt_cons_iff, UInt8.lt_irrefl]
      exact List.not_lt_nil rest
    · rw [append_lt_append_iff rfl]
      refine Or.inr ⟨rfl, List.cons_lt_cons_iff.mpr (Or.inl ?_)⟩
      rw [UInt8.lt_iff_toNat_lt, next]
      exact Nat.lt_succ_self _

theorem kind_of_subKeyRange {kind : KeyKind} {bytes : Bytes} {key : LogicalKey}
    (isRange : (((ScopedKeyBuilder.new scope).writeKeyKind kind).push bytes).subKeyRange = some range)
    (inside : range.Contains (key.bytes scope)) : key.kind = kind := by
  have isBuilder : ((ScopedKeyBuilder.new scope).writeKeyKind kind).push bytes =
      ⟨scope ++ getByRight KeyKind.iter kind :: bytes⟩ := by
    simp only [ScopedKeyBuilder.writeKeyKind, ScopedKeyBuilder.push, ScopedKeyBuilder.new, List.append_assoc,
      List.cons_append, List.nil_append]
  obtain ⟨front, last, isLast⟩ : ∃ front last, getByRight KeyKind.iter kind :: bytes = front ++ [last] :=
    ⟨_, _, (List.dropLast_append_getLast (List.cons_ne_nil _ _)).symm⟩
  rw [isBuilder, isLast, ← List.append_assoc] at isRange
  obtain ⟨rest, begins⟩ := (contains_subKeyRange_iff isRange).mp inside
  rw [List.append_cons, List.append_assoc scope front, ← isLast, key.bytes_eq, List.append_assoc,
    List.append_cancel_left_eq, List.cons_append, List.cons.injEq] at begins
  exact KeyKind.id_injective begins.1

end SubKeys

section Families

variable {scope : Bytes}

theorem not_contains_allRange {hash other : TiFsHash} {tag : HashedBlockMeta} {name : Uuid} {range : BoundRange}
    (isRange : (ScopedKeyBuilder.new scope).namedHashedBlockAllRange hash = some range) :
    ¬ range.Contains (namedKey scope other tag name) := by
  intro inside
  cases kind_of_subKeyRange isRange inside

theorem not_contains_namedRange {hash other : TiFsHash} {tag : HashedBlockMeta} {name : Uuid} {range : BoundRange}
    (isRange : (ScopedKeyBuilder.new scope).namedHashedBlockRange hash = some range) :
    ¬ range.Contains (namedKey scope other tag name) := by
  intro inside
  have joined : ((ScopedKeyBuilder.new scope).writeKeyKind .namedHashedBlock).push
      (hash ++ [getByRight HashedBlockMeta.iter .aNamedBlock]) =
      (((ScopedKeyBuilder.new scope).writeKeyKind .namedHashedBlock).push hash).push
        [getByRight HashedBlockMeta.iter .aNamedBlock] := by
    simp only [ScopedKeyBuilder.push, List.append_assoc]
  rw [ScopedKeyBuilder.namedHashedBlockRange, ← joined] at isRange
  cases kind_of_subKeyRange isRange inside

theorem pendingDelete_body {key : LogicalKey} (isPending : key.kind = .pendingDelete) :
    ∃ byte rest, key.body = byte :: rest ∧ byte < getByRight KeyKind.iter .pendingDelete := by
  cases key with
  | pendingDeleteX kind => exact ⟨_, _, rfl, by cases kind <;> decide⟩
  | pendingDeleteBlockHash hash => exact ⟨_, _, rfl, by decide⟩
  | pendingDeleteActiveWriter iterationNumber writerId => exact ⟨_, _, rfl, by decide⟩
  | _ => cases isPending

theorem not_contains_scanList {key : LogicalKey} (isPending : key.kind = .pendingDelete) :
    ¬ (ScopedKeyBuilder.new scope).pendingDeleteScanList.Contains (key.bytes scope) := by
  have isRange : (ScopedKeyBuilder.new scope).pendingDeleteScanList =
      ⟨scope ++ getByRight KeyKind.iter .pendingDelete :: [getByRight KeyKind.iter .pendingDelete,
          getByRight PendingDeleteMeta.iter .aIterationNumber],
       scope ++ getByRight KeyKind.iter .pendingDelete :: [getByRight KeyKind.iter .pendingDelete,
          getByRight PendingDeleteMeta.iter .dActiveWriters]⟩ := by
    simp only [ScopedKeyBuilder.pendingDeleteScanList, ScopedKeyBuilder.pendingDeleteX,
      ScopedKeyBuilder.writeKeyKind, ScopedKeyBuilder.push, ScopedKeyBuilder.new, List.append_assoc,
      List.cons_append, List.nil_append]
  rw [isRange, contains_scoped_iff]
  rintro ⟨_, notBelow, _⟩
  obtain ⟨byte, rest, isBody, less⟩ := pendingDelete_body isPending
  rw [isBody, List.cons_lt_cons_iff] at notBelow
  exact notBelow (Or.inl less)

/-- A hash that ends with the largest byte has no range at all. -/
theorem allRange_eq_none_iff (hash : TiFsHash) :
    (ScopedKeyBuilder.new scope).namedHashedBlockAllRange hash = none ↔ hash.getLast? = some 255 := by
  have isBuilder : ((ScopedKeyBuilder.new scope).writeKeyKind .namedHashedBlock).push hash =
      ⟨scope ++ getByRight KeyKind.iter .namedHashedBlock :: hash⟩ := by
    simp only [ScopedKeyBuilder.writeKeyKind, ScopedKeyBuilder.push, ScopedKeyBuilder.new, List.append_assoc,
      List.cons_append, List.nil_append]
  rw [ScopedKeyBuilder.namedHashedBlockAllRange, isBuilder]
  rcases List.eq_nil_or_concat hash with rfl | ⟨front, last, rfl⟩
  · rw [subKeyRange_concat, if_pos (by decide)]
    simp only [reduceCtorEq, List.getLast?_nil]
  · rw [List.concat_eq_append, ← List.cons_append, ← List.append_assoc, subKeyRange_concat,
      List.getLast?_concat, Option.some.injEq]
    have bound := last.toNat_lt
    by_cases small : last.toNat + 1 < 2 ^ 8
    · rw [if_pos small]
      simp only [reduceCtorEq, false_iff]
      rintro rfl
      exact absurd small (by decide)
    · rw [if_neg small]
      simp only [true_iff]
      exact UInt8.toNat_inj.mp (show last.toNat = 255 by omega)

end Families

/-- None of the ranges covers its family, for any scope and any hash: the two over named
blocks are over another kind of keys than the one these are written with, and the one over
pending deletes begins behind all of them. -/
theorem ranges_never_cover (scope : Bytes) (hash : TiFsHash) :
    ¬ AllRangeCovers scope hash ∧ ¬ NamedRangeCovers scope hash ∧ ¬ ScanListCovers scope := by
  refine ⟨?_, ?_, ?_⟩
  · rintro ⟨range, isRange, inside, _⟩
    exact not_contains_allRange isRange (inside .aNamedBlock 0)
  · rintro ⟨range, isRange, precise⟩
    exact not_contains_namedRange isRange ((precise hash .aNamedBlock 0 rfl).mpr ⟨rfl, rfl⟩)
  · rintro ⟨inside, _⟩
    exact not_contains_scanList rfl (inside .aIterationNumber List.mem_cons_self)

/-- A key of the hash 1 is not in the range of all its keys, and the range of the hash 255 overflows. -/
theorem ranges_miss :
    (∃ range, (ScopedKeyBuilder.new []).namedHashedBlockAllRange [1] = some range ∧
      ¬ range.Contains (namedKey [] [1] .aNamedBlock 0)) ∧
    ¬ AllRangeCovers [] [1] ∧
    (ScopedKeyBuilder.new []).namedHashedBlockAllRange [255] = none ∧
    ¬ (ScopedKeyBuilder.new []).pendingDeleteScanList.Contains
      ((LogicalKey.pendingDeleteX .aIterationNumber).bytes []) := by
  have isRange : (ScopedKeyBuilder.new []).namedHashedBlockAllRange [1] = some ⟨[11, 1], [11, 2]⟩ := rfl
  refine ⟨⟨_, isRange, not_contains_allRange isRange⟩, ?_, (allRange_eq_none_iff [255]).mpr rfl,
    not_contains_scanList rfl⟩
  rintro ⟨range, isOther, inside, _⟩
  exact not_contains_allRange isOther (inside .aNamedBlock 0)

end TiFs
