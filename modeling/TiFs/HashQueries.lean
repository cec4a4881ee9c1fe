import Mathlib.Order.Interval.Finset.Nat
import TiFs.HashFsError
import TiFs.ScopedRecords
import TiFs.CallRefinement

/-! Queries for the block hashes of an inode. A range is scanned in chunks that are as wide
as the limit of a scan, and a list of ranges is made a set of ranges before that. -/

namespace TiFs

open BigEndian KeyValue Tables

abbrev HashMapping := SortedMap UInt64 TiFsHash

namespace ScopedRecords

variable {scope : Bytes}

def collectHash (scope : Bytes) (hashLen : Nat) (ino : UInt64) (result : HashMapping)
    (record : KeyBuffer × Bytes) : Except FsError HashMapping := do
  let parser ← KeyParser.start record.1 scope hashLen
  let (keyIno, index) ← parser.parseKeyBlockAddress
  if record.2.length ≠ hashLen then return result
  if keyIno ≠ ino then return result
  return result.put index record.2

/-- The number of blocks in a range, which is cast to a `u32`. -/
def scanLimit (start stop : UInt64) : UInt32 := if start < stop then (stop - start).toUInt32 else 0

@[irreducible] def hbGetBlockHashListByBlockRange (hashLen : Nat) (self : ScopedRecords scope) (ino start stop : UInt64) :
    Except FsError HashMapping :=
  (self.scan ((ScopedKeyBuilder.new scope).blockHashRange ino start stop) (scanLimit start stop).toNat).foldlM
    (collectHash scope hashLen ino) .empty

def hashListUnlimited (hashLen : Nat) (self : ScopedRecords scope) (ino start stop : UInt64) :
    Except FsError HashMapping :=
  (self.within ((ScopedKeyBuilder.new scope).blockHashRange ino start stop)).foldlM
    (collectHash scope hashLen ino) .empty

def chunkEnd (i stop : UInt64) : UInt64 := min (i + UInt64.ofNat maxTikvScanLimit) stop

/-- The loop over the chunks of a range; without a result the fuel is used up. -/
def chunkedLoop (hashLen : Nat) (self : ScopedRecords scope) (ino stop : UInt64) :
    Nat → UInt64 → HashMapping → Option (Except FsError HashMapping)
  | 0, _, _ => none
  | fuel + 1, i, result =>
      if i < stop then
        match self.hbGetBlockHashListByBlockRange hashLen ino i (chunkEnd i stop) with
        | .ok chunk => chunkedLoop hashLen self ino stop fuel (chunkEnd i stop) (result.extend chunk.entries)
        | .error issue => some (.error issue)
      else some (.ok result)

def hbGetBlockHashListByBlockRangeChunked (hashLen : Nat) (self : ScopedRecords scope) (ino start stop : UInt64)
    (fuel : Nat) : Option (Except FsError HashMapping) :=
  self.chunkedLoop hashLen ino stop fuel start .empty

def MapsTo (hashLen : Nat) (self : ScopedRecords scope) (ino index : UInt64) (hash : TiFsHash) : Prop :=
  self.Holds (.blockHash ino index) hash ∧ hash.length = hashLen

section Query

variable {self : ScopedRecords scope} {hashLen : Nat} {ino start stop : UInt64} {result : HashMapping}

def indexOf (scope : Bytes) (key : KeyBuffer) : UInt64 := UInt64.ofNat (read (key.drop (scope.length + 9)))

theorem indexOf_hash (ino index : UInt64) :
    indexOf scope ((LogicalKey.blockHash ino index).bytes scope) = index := by
  have front : (LogicalKey.blockHash ino index).bytes scope =
      (scope ++ getByRight KeyKind.iter .inoBlockHashMapping :: writeBigEndian ino) ++ writeBigEndian index := by
    rw [LogicalKey.bytes_eq, List.append_assoc]
    rfl
  have length : (scope ++ getByRight KeyKind.iter .inoBlockHashMapping :: writeBigEndian ino).length =
      scope.length + 9 := by
    simp
  have small : index.toNat < 256 ^ 8 := index.toNat_lt
  rw [indexOf, front, ← length, List.drop_left, writeBigEndian, read_write small, UInt64.ofNat_toNat]

theorem collectHash_run {record : KeyBuffer × Bytes} {index : UInt64}
    (isKey : record.1 = (LogicalKey.blockHash ino index).bytes scope) :
    collectHash scope hashLen ino result record =
      .ok (if record.2.length = hashLen then result.put index record.2 else result) := by
  have parsed : (KeyParser.start record.1 scope hashLen >>= KeyParser.parseKeyBlockAddress) =
      .ok (ino, index) := by
    have back : (LogicalKey.blockHash ino index).ParsesBack scope hashLen := LogicalKey.parsesBack scope trivial
    rw [isKey]
    exact back
  have asOne : collectHash scope hashLen ino result record =
      (KeyParser.start record.1 scope hashLen >>= KeyParser.parseKeyBlockAddress) >>= fun address =>
        if record.2.length ≠ hashLen then return result
        else if address.1 ≠ ino then return result
        else return result.put address.2 record.2 := by
    rw [collectHash]
    cases KeyParser.start record.1 scope hashLen <;> rfl
  rw [asOne, parsed]
  by_cases isLen : record.2.length = hashLen
  · simp only [bind, Except.bind, isLen, ne_eq, not_true_eq_false, if_false, if_true]
    rfl
  · simp only [bind, Except.bind, isLen, ne_eq, not_false_eq_true, if_true, if_false]
    rfl

theorem collected {records : List (KeyBuffer × Bytes)}
    (blocks : ∀ record ∈ records, ∃ index, record.1 = (LogicalKey.blockHash ino index).bytes scope)
    (result : HashMapping) :
    records.foldlM (collectHash scope hashLen ino) result =
      .ok (result.extend ((records.filter fun record => record.2.length = hashLen).map fun record =>
        (indexOf scope record.1, record.2))) := by
  induction records generalizing result with
  | nil => rfl
  | cons head tail ih =>
      obtain ⟨index, isKey⟩ := blocks head List.mem_cons_self
      have rest := fun next => ih (fun record listed => blocks record (List.mem_cons_of_mem _ listed)) next
      rw [List.foldlM_cons, collectHash_run isKey]
      by_cases isLen : head.2.length = hashLen
      · rw [if_pos isLen, List.filter_cons_of_pos (by simpa using isLen), List.map_cons, isKey, indexOf_hash]
        exact rest _
      · rw [if_neg isLen, List.filter_cons_of_neg (by simpa using isLen)]
        exact rest _

theorem hash_unique {first second : TiFsHash} (maps : self.MapsTo hashLen ino start first)
    (also : self.MapsTo hashLen ino start second) : first = second :=
  (Prod.mk.inj (SortedMap.eq_of_mem maps.1 also.1 rfl)).2

def Holding (hashLen : Nat) (self : ScopedRecords scope) (ino : UInt64) (result : HashMapping) : Prop :=
  ∀ index hash, (index, hash) ∈ result.entries → self.MapsTo hashLen ino index hash

theorem mem_extend_holding {pairs : List (UInt64 × TiFsHash)} (holding : self.Holding hashLen ino result)
    (more : ∀ index hash, (index, hash) ∈ pairs → self.MapsTo hashLen ino index hash)
    {entry : UInt64 × TiFsHash} :
    entry ∈ (result.extend pairs).entries ↔ entry ∈ result.entries ∨ entry ∈ pairs := by
  refine SortedMap.mem_extend ?_
  rintro ⟨index, first⟩ ⟨other, second⟩ inFirst inSecond same
  obtain rfl : index = other := same
  have maps : ∀ hash, (index, hash) ∈ result.entries ∨ (index, hash) ∈ pairs →
      self.MapsTo hashLen ino index hash :=
    fun hash member => member.elim (holding index hash) (more index hash)
  rw [hash_unique (maps first inFirst) (maps second inSecond)]

theorem collected_within {records : List (KeyBuffer × Bytes)}
    (isRange : ∀ record, record ∈ records ↔
      record ∈ self.within ((ScopedKeyBuilder.new scope).blockHashRange ino start stop)) :
    ∃ found, records.foldlM (collectHash scope hashLen ino) .empty = .ok found ∧ ∀ index hash,
      (index, hash) ∈ found.entries ↔ (start ≤ index ∧ index < stop) ∧ self.MapsTo hashLen ino index hash := by
  have blocks : ∀ record ∈ records, ∃ index, record.1 = (LogicalKey.blockHash ino index).bytes scope := by
    intro record member
    obtain ⟨index, isKey, _⟩ := mem_hashes_within.mp ((isRange record).mp member)
    exact ⟨index, isKey⟩
  refine ⟨_, collected blocks .empty, ?_⟩
  have inPairs : ∀ index hash, (index, hash) ∈ ((records.filter fun record => record.2.length = hashLen).map
      fun record => (indexOf scope record.1, record.2)) ↔
      (start ≤ index ∧ index < stop) ∧ self.MapsTo hashLen ino index hash := by
    intro index hash
    rw [List.mem_map]
    constructor
    · rintro ⟨record, member, isPair⟩
      obtain ⟨listed, isLen⟩ := List.mem_filter.mp member
      obtain ⟨other, isKey, bounds, stored⟩ := mem_hashes_within.mp ((isRange record).mp listed)
      obtain ⟨isIndex, rfl⟩ := Prod.mk.inj isPair
      rw [isKey, indexOf_hash] at isIndex
      subst isIndex
      refine ⟨bounds, ?_, by simpa using isLen⟩
      rw [Holds, ← isKey]
      exact stored
    · rintro ⟨bounds, stored, isLen⟩
      refine ⟨((LogicalKey.blockHash ino index).bytes scope, hash), List.mem_filter.mpr ⟨?_, by simpa using isLen⟩,
        by rw [indexOf_hash]⟩
      exact (isRange _).mpr (mem_hashes_within.mpr ⟨index, rfl, bounds, stored⟩)
  intro index hash
  have none : self.Holding hashLen ino SortedMap.empty := fun index hash member => by cases member
  rw [mem_extend_holding none fun index hash member => ((inPairs index hash).mp member).2, inPairs]
  simp [SortedMap.empty]

theorem unlimited_spec (hashLen : Nat) (self : ScopedRecords scope) (ino start stop : UInt64) :
    ∃ found, self.hashListUnlimited hashLen ino start stop = .ok found ∧ ∀ index hash,
      (index, hash) ∈ found.entries ↔ (start ≤ index ∧ index < stop) ∧ self.MapsTo hashLen ino index hash :=
  collected_within fun _ => Iff.rfl

theorem within_length (self : ScopedRecords scope) (ino start stop : UInt64) :
    (self.within ((ScopedKeyBuilder.new scope).blockHashRange ino start stop)).length ≤
      stop.toNat - start.toNat := by
  set records := self.within ((ScopedKeyBuilder.new scope).blockHashRange ino start stop)
  have sorted : records.Pairwise fun left right => left.1 < right.1 := SortedMap.between_sorted _ _ _
  have nodup : (records.map fun record => (indexOf scope record.1).toNat).Nodup := by
    rw [List.Nodup, List.pairwise_map]
    refine sorted.imp_of_mem ?_
    intro left right inLeft inRight less
    obtain ⟨leftIndex, isLeft, _⟩ := mem_hashes_within.mp inLeft
    obtain ⟨rightIndex, isRight, _⟩ := mem_hashes_within.mp inRight
    rw [isLeft, isRight] at less ⊢
    rw [indexOf_hash, indexOf_hash]
    exact Nat.ne_of_lt (UInt64.lt_iff_toNat_lt.mp (blockHash_bytes_lt_iff.mp less))
  have covered : (records.map fun record => (indexOf scope record.1).toNat).toFinset ⊆
      Finset.Ico start.toNat stop.toNat := by
    intro number listed
    obtain ⟨record, member, rfl⟩ := List.mem_map.mp (List.mem_toFinset.mp listed)
    obtain ⟨index, isKey, bounds, _⟩ := mem_hashes_within.mp member
    rw [isKey, indexOf_hash, Finset.mem_Ico]
    exact ⟨UInt64.le_iff_toNat_le.mp bounds.1, UInt64.lt_iff_toNat_lt.mp bounds.2⟩
  have counted := Finset.card_le_card covered
  rwa [List.toFinset_card_of_nodup nodup, List.length_map, Nat.card_Ico] at counted

theorem scanLimit_toNat (less : start ≤ stop) (chunk : stop.toNat - start.toNat ≤ maxTikvScanLimit) :
    (scanLimit start stop).toNat = stop.toNat - start.toNat := by
  rw [scanLimit]
  by_cases nonempty : start < stop
  · rw [if_pos nonempty, UInt64.toNat_toUInt32, UInt64.toNat_sub_of_le _ _ less]
    have bound : maxTikvScanLimit < 2 ^ 32 := by decide
    exact Nat.mod_eq_of_lt (by omega)
  · rw [if_neg nonempty]
    have below := UInt64.le_iff_toNat_le.mp (UInt64.not_lt.mp nonempty)
    rw [Nat.sub_eq_zero_of_le below]
    rfl

theorem chunk_spec (hashLen : Nat) (self : ScopedRecords scope) (ino : UInt64) (less : start ≤ stop)
    (chunk : stop.toNat - start.toNat ≤ maxTikvScanLimit) :
    ∃ found, self.hbGetBlockHashListByBlockRange hashLen ino start stop = .ok found ∧ ∀ index hash,
      (index, hash) ∈ found.entries ↔ (start ≤ index ∧ index < stop) ∧ self.MapsTo hashLen ino index hash := by
  rw [hbGetBlockHashListByBlockRange]
  refine collected_within fun record => ?_
  rw [scan_eq_take, scanLimit_toNat less chunk, List.take_of_length_le (self.within_length ino start stop)]

theorem chunkEnd_toNat (bound : stop.toNat ≤ 2 ^ 64 - maxTikvScanLimit) (left : start < stop) :
    (chunkEnd start stop).toNat = min (start.toNat + maxTikvScanLimit) stop.toNat := by
  have leftNat := UInt64.lt_iff_toNat_lt.mp left
  have width : (UInt64.ofNat maxTikvScanLimit).toNat = maxTikvScanLimit := by decide
  have next : (start + UInt64.ofNat maxTikvScanLimit).toNat = start.toNat + maxTikvScanLimit := by
    rw [UInt64.toNat_add, width, Nat.mod_eq_of_lt (by omega)]
  have isMin : chunkEnd start stop =
      if start + UInt64.ofNat maxTikvScanLimit ≤ stop then start + UInt64.ofNat maxTikvScanLimit else stop := rfl
  rw [isMin, ← next]
  by_cases inside : start + UInt64.ofNat maxTikvScanLimit ≤ stop
  · rw [if_pos inside, Nat.min_eq_left (UInt64.le_iff_toNat_le.mp inside)]
  · have outside := UInt64.le_of_lt (UInt64.not_le.mp inside)
    rw [if_neg inside, Nat.min_eq_right (UInt64.le_iff_toNat_le.mp outside)]

theorem chunkedLoop_spec (bound : stop.toNat ≤ 2 ^ 64 - maxTikvScanLimit) (fuel : Nat) (i : UInt64)
    (result : HashMapping) (enough : stop.toNat - i.toNat < fuel) (holding : self.Holding hashLen ino result) :
    ∃ found, self.chunkedLoop hashLen ino stop fuel i result = some (.ok found) ∧ ∀ index hash,
      (index, hash) ∈ found.entries ↔ (index, hash) ∈ result.entries ∨
        (i ≤ index ∧ index < stop) ∧ self.MapsTo hashLen ino index hash := by
  induction fuel generalizing i result with
  | zero => omega
  | succ fuel ih =>
      rw [chunkedLoop]
      by_cases left : i < stop
      · rw [if_pos left]
        have leftNat := UInt64.lt_iff_toNat_lt.mp left
        have ends := chunkEnd_toNat bound left
        have positive : 0 < maxTikvScanLimit := by decide
        generalize chunkEnd i stop = chunkEnd at ends ⊢
        have forward : i ≤ chunkEnd := UInt64.le_iff_toNat_le.mpr (by omega)
        have within : chunkEnd ≤ stop := UInt64.le_iff_toNat_le.mpr (by omega)
        obtain ⟨chunk, ran, inChunk⟩ := self.chunk_spec hashLen ino forward (by omega)
        simp only [ran]
        have inNext : ∀ entry, entry ∈ (result.extend chunk.entries).entries ↔
            entry ∈ result.entries ∨ entry ∈ chunk.entries :=
          fun entry => mem_extend_holding holding fun index hash member => ((inChunk index hash).mp member).2
        have holdingNext : self.Holding hashLen ino (result.extend chunk.entries) := by
          intro index hash member
          exact ((inNext _).mp member).elim (holding index hash) fun new => ((inChunk index hash).mp new).2
        obtain ⟨found, looped, inFound⟩ := ih chunkEnd _ (by omega) holdingNext
        refine ⟨found, looped, fun index hash => ?_⟩
        rw [inFound, inNext, inChunk, or_assoc, ← or_and_right]
        have split : ((i ≤ index ∧ index < chunkEnd) ∨ chunkEnd ≤ index ∧ index < stop) ↔ i ≤ index ∧ index < stop := by
          simp only [UInt64.le_iff_toNat_le, UInt64.lt_iff_toNat_lt] at forward within ⊢
          omega
        rw [split]
      · rw [if_neg left]
        refine ⟨result, rfl, fun index hash => ?_⟩
        have empty : ¬ (i ≤ index ∧ index < stop) := by
          intro inside
          exact left (UInt64.lt_of_le_of_lt inside.1 inside.2)
        simp [empty]

theorem chunked_spec (hashLen : Nat) (self : ScopedRecords scope) (ino start : UInt64)
    (bound : stop.toNat ≤ 2 ^ 64 - maxTikvScanLimit) :
    ∃ found, (∀ fuel, stop.toNat - start.toNat < fuel →
      self.hbGetBlockHashListByBlockRangeChunked hashLen ino start stop fuel = some (.ok found)) ∧
    ∀ index hash, (index, hash) ∈ found.entries ↔
      (start ≤ index ∧ index < stop) ∧ self.MapsTo hashLen ino index hash := by
  have none : self.Holding hashLen ino SortedMap.empty := fun index hash member => by cases member
  have each : ∀ fuel, stop.toNat - start.toNat < fuel → ∃ found,
      self.hbGetBlockHashListByBlockRangeChunked hashLen ino start stop fuel = some (.ok found) ∧
      ∀ index hash, (index, hash) ∈ found.entries ↔
        (start ≤ index ∧ index < stop) ∧ self.MapsTo hashLen ino index hash := by
    intro fuel enough
    obtain ⟨found, ran, inFound⟩ := chunkedLoop_spec bound fuel start .empty enough none
    refine ⟨found, ran, fun index hash => ?_⟩
    rw [inFound]
    simp [SortedMap.empty]
  obtain ⟨found, _, inFound⟩ := each _ (Nat.lt_succ_self _)
  refine ⟨found, fun fuel enough => ?_, inFound⟩
  obtain ⟨other, ran, inOther⟩ := each fuel enough
  have same : other = found :=
    SortedMap.ext_mem fun entry => (inOther entry.1 entry.2).trans (inFound entry.1 entry.2).symm
  rw [ran, same]

end Query

end ScopedRecords

inductive RangeSetRange where
  | range (start stop : UInt64)
  | rangeFrom (start : UInt64)
  deriving DecidableEq, Repr

def RangeSetRange.Contains : RangeSetRange → UInt64 → Prop
  | .range start stop, index => start ≤ index ∧ index < stop
  | .rangeFrom start, index => start ≤ index

/-- The functions of `RangeSet2` that the queries call. -/
structure RangeSetApi where
  RangeSet2 : Type
  empty : RangeSet2
  fromRange : UInt64 → UInt64 → RangeSet2
  unionWith : RangeSet2 → RangeSet2 → RangeSet2
  iter : RangeSet2 → List RangeSetRange

namespace RangeSetApi

variable (api : RangeSetApi)

def Contains (set : api.RangeSet2) (index : UInt64) : Prop := ∃ range ∈ api.iter set, range.Contains index

/-- The ranges of a set denote the numbers in it. -/
structure Lawful : Prop where
  empty : ∀ index, ¬ api.Contains api.empty index
  fromRange : ∀ start stop index, api.Contains (api.fromRange start stop) index ↔ start ≤ index ∧ index < stop
  unionWith : ∀ left right index,
    api.Contains (api.unionWith left right) index ↔ api.Contains left index ∨ api.Contains right index

def collection (blockRanges : List (UInt64 × UInt64)) : api.RangeSet2 :=
  blockRanges.foldl (fun set range => api.unionWith set (api.fromRange range.1 range.2)) api.empty

theorem contains_collection {api : RangeSetApi} (lawful : api.Lawful) (blockRanges : List (UInt64 × UInt64))
    (index : UInt64) : api.Contains (api.collection blockRanges) index ↔
      ∃ range ∈ blockRanges, range.1 ≤ index ∧ index < range.2 := by
  induction blockRanges using List.reverseRecOn with
  | nil => simpa [collection] using lawful.empty index
  | append_singleton front last ih =>
      rw [collection, List.foldl_append, List.foldl_cons, List.foldl_nil, ← collection, lawful.unionWith,
        lawful.fromRange, ih]
      simp only [List.mem_append, List.mem_singleton]
      constructor
      · rintro (⟨range, listed, inside⟩ | inside)
        · exact ⟨range, Or.inl listed, inside⟩
        · exact ⟨last, Or.inr rfl, inside⟩
      · rintro ⟨range, listed | rfl, inside⟩
        · exact Or.inl ⟨range, listed, inside⟩
        · exact Or.inr inside

end RangeSetApi

namespace ScopedRecords

variable {scope : Bytes}

def withRange (blockHashesAll : Option HashMapping) (blockHashes : HashMapping) : HashMapping :=
  match blockHashesAll with
  | some hm => hm.extend blockHashes.entries
  | none => blockHashes

/-- The queries for the ranges of a set, one after the other. Without a result the fuel is
used up, or the call panics at a range without an end. -/
def readRanges (hashLen : Nat) (self : ScopedRecords scope) (ino : UInt64) (fuel : Nat) :
    List RangeSetRange → Option HashMapping → Option (Except HashFsError (Option HashMapping))
  | [], blockHashesAll => some (.ok blockHashesAll)
  | .rangeFrom _ :: _, _ => none
  | .range start stop :: rest, blockHashesAll =>
      match self.hbGetBlockHashListByBlockRangeChunked hashLen ino start stop fuel with
      | none => none
      | some (.error issue) => some (.error (.ofFsError issue))
      | some (.ok blockHashes) =>
          self.readRanges hashLen ino fuel rest (some (withRange blockHashesAll blockHashes))

def inodeReadBlockHashesBlockRange (api : RangeSetApi) (hashLen : Nat) (self : ScopedRecords scope)
    (ino : UInt64) (blockRanges : List (UInt64 × UInt64)) (fuel : Nat) :
    Option (Except HashFsError HashMapping) :=
  (self.readRanges hashLen ino fuel (api.iter (api.collection blockRanges)) none).map fun result =>
    result.map fun blockHashesAll => blockHashesAll.getD .empty

section Ranges

variable {self : ScopedRecords scope} {hashLen : Nat} {ino : UInt64}

/-- A range that has an end, and unless it is empty leaves room for a chunk behind it. -/
def Bounded (range : RangeSetRange) : Prop :=
  ∃ start stop, range = .range start stop ∧ (start < stop → stop.toNat ≤ 2 ^ 64 - maxTikvScanLimit)

theorem chunked_bounded (hashLen : Nat) (self : ScopedRecords scope) (ino : UInt64) {start stop : UInt64}
    (bounded : start < stop → stop.toNat ≤ 2 ^ 64 - maxTikvScanLimit) :
    ∃ found, (∀ fuel, 2 ^ 64 ≤ fuel →
      self.hbGetBlockHashListByBlockRangeChunked hashLen ino start stop fuel = some (.ok found)) ∧
    ∀ index hash, (index, hash) ∈ found.entries ↔
      (start ≤ index ∧ index < stop) ∧ self.MapsTo hashLen ino index hash := by
  by_cases nonempty : start < stop
  · obtain ⟨found, ran, inFound⟩ := self.chunked_spec hashLen ino start (bounded nonempty)
    have small := stop.toNat_lt
    exact ⟨found, fun fuel enough => ran fuel (by omega), inFound⟩
  · refine ⟨.empty, ?_, ?_⟩
    · intro fuel enough
      obtain ⟨more, rfl⟩ := Nat.exists_eq_succ_of_ne_zero (n := fuel) (by omega)
      rw [hbGetBlockHashListByBlockRangeChunked, chunkedLoop, if_neg nonempty]
    · intro index hash
      have outside : ¬ (start ≤ index ∧ index < stop) := fun inside =>
        nonempty (UInt64.lt_of_le_of_lt inside.1 inside.2)
      simp [outside, SortedMap.empty]

def soFar (blockHashesAll : Option HashMapping) : HashMapping := blockHashesAll.getD .empty

theorem readRanges_spec (ranges : List RangeSetRange) (bounded : ∀ range ∈ ranges, Bounded range)
    (blockHashesAll : Option HashMapping) (holding : self.Holding hashLen ino (soFar blockHashesAll)) :
    ∃ all, (∀ fuel, 2 ^ 64 ≤ fuel → self.readRanges hashLen ino fuel ranges blockHashesAll = some (.ok all)) ∧
      ∀ index hash, (index, hash) ∈ (soFar all).entries ↔ (index, hash) ∈ (soFar blockHashesAll).entries ∨
        (∃ range ∈ ranges, range.Contains index) ∧ self.MapsTo hashLen ino index hash := by
  induction ranges generalizing blockHashesAll with
  | nil => exact ⟨blockHashesAll, fun _ _ => rfl, by simp⟩
  | cons head tail ih =>
      obtain ⟨start, stop, rfl, room⟩ := bounded head List.mem_cons_self
      obtain ⟨blockHashes, ran, inHashes⟩ := self.chunked_bounded hashLen ino room
      have inNext : ∀ entry, entry ∈ (withRange blockHashesAll blockHashes).entries ↔
          entry ∈ (soFar blockHashesAll).entries ∨ entry ∈ blockHashes.entries := by
        intro entry
        cases blockHashesAll with
        | none => simp [withRange, soFar, SortedMap.empty]
        | some hm => exact mem_extend_holding holding fun index hash member => ((inHashes index hash).mp member).2
      have holdingNext : self.Holding hashLen ino (soFar (some (withRange blockHashesAll blockHashes))) := by
        intro index hash member
        exact ((inNext _).mp member).elim (holding index hash) fun new => ((inHashes index hash).mp new).2
      obtain ⟨all, rest, inAll⟩ := ih (fun range listed => bounded range (List.mem_cons_of_mem _ listed)) _
        holdingNext
      refine ⟨all, fun fuel enough => ?_, fun index hash => ?_⟩
      · rw [readRanges, ran fuel enough]
        exact rest fuel enough
      · rw [inAll, soFar, Option.getD_some, inNext, inHashes, or_assoc, ← or_and_right]
        simp only [List.mem_cons, exists_eq_or_imp, RangeSetRange.Contains]

/-- The ranges of a collection have ends with room behind them if the given ranges have. -/
theorem collection_bounded {api : RangeSetApi} (lawful : api.Lawful) {blockRanges : List (UInt64 × UInt64)}
    (room : ∀ range ∈ blockRanges, range.2.toNat ≤ 2 ^ 64 - maxTikvScanLimit) :
    ∀ range ∈ api.iter (api.collection blockRanges), Bounded range := by
  intro range listed
  have inside : ∀ index, range.Contains index → index.toNat < 2 ^ 64 - maxTikvScanLimit := by
    intro index contained
    obtain ⟨given, isGiven, _, below⟩ :=
      (RangeSetApi.contains_collection lawful blockRanges index).mp ⟨range, listed, contained⟩
    exact (UInt64.lt_iff_toNat_lt.mp below).trans_le (room given isGiven)
  cases range with
  | range start stop =>
      refine ⟨start, stop, rfl, fun nonempty => ?_⟩
      have below := UInt64.lt_iff_toNat_lt.mp nonempty
      have last : (stop - 1).toNat = stop.toNat - 1 := by
        rw [UInt64.toNat_sub_of_le _ _ (UInt64.le_iff_toNat_le.mpr (by rw [UInt64.toNat_one]; omega)),
          UInt64.toNat_one]
      have contained := inside (stop - 1) ⟨UInt64.le_iff_toNat_le.mpr (by omega),
        UInt64.lt_iff_toNat_lt.mpr (by omega)⟩
      omega
  | rangeFrom start =>
      have contained := inside (UInt64.ofNat (2 ^ 64 - 1)) (UInt64.le_iff_toNat_le.mpr (by
        have small := start.toNat_lt
        rw [UInt64.toNat_ofNat']
        omega))
      rw [UInt64.toNat_ofNat'] at contained
      have positive : 0 < maxTikvScanLimit := by decide
      omega

theorem inodeReadRanges_spec {api : RangeSetApi} (lawful : api.Lawful) (hashLen : Nat)
    (self : ScopedRecords scope) (ino : UInt64) {blockRanges : List (UInt64 × UInt64)}
    (room : ∀ range ∈ blockRanges, range.2.toNat ≤ 2 ^ 64 - maxTikvScanLimit) :
    ∃ found, (∀ fuel, 2 ^ 64 ≤ fuel →
      self.inodeReadBlockHashesBlockRange api hashLen ino blockRanges fuel = some (.ok found)) ∧
    ∀ index hash, (index, hash) ∈ found.entries ↔
      (∃ range ∈ blockRanges, range.1 ≤ index ∧ index < range.2) ∧ self.MapsTo hashLen ino index hash := by
  have none : self.Holding hashLen ino (soFar none) := fun index hash member => by cases member
  obtain ⟨all, ran, inAll⟩ := readRanges_spec _ (collection_bounded lawful room) _ none
  refine ⟨soFar all, fun fuel enough => ?_, fun index hash => ?_⟩
  · rw [inodeReadBlockHashesBlockRange, ran fuel enough]
    rfl
  · rw [inAll, ← RangeSetApi.contains_collection lawful]
    simp [soFar, SortedMap.empty, RangeSetApi.Contains]

end Ranges

section Refinement

def HoldsHashes (raw : ScopedRecords scope) (store : Store) (ino : UInt64) : Prop :=
  ∀ index hash, raw.Holds (.blockHash ino index) hash ↔ mapping store ⟨ino.toNat, index.toNat⟩ = some hash

/-- The query over the records is the query over the mappings of the inode. -/
theorem chunked_refines {raw : ScopedRecords scope} {store : Store} {ino : UInt64} (cfg : TiFsConfig)
    (holds : HoldsHashes raw store ino) (start : UInt64) {stop : UInt64}
    (bound : stop.toNat ≤ 2 ^ 64 - maxTikvScanLimit) :
    ∃ found typed, (∀ fuel, stop.toNat - start.toNat < fuel →
      raw.hbGetBlockHashListByBlockRangeChunked cfg.hashLen ino start stop fuel = some (.ok found)) ∧
      atomically (TiFs.hbGetBlockHashListByBlockRangeChunked cfg ino.toNat (start.toNat, stop.toNat)) store =
        .ok (typed, store) ∧
      ∀ index hash, (index, hash) ∈ found.entries ↔ typed.lookup index.toNat = some hash := by
  obtain ⟨found, ran, inFound⟩ := raw.chunked_spec cfg.hashLen ino start bound
  obtain ⟨typed, ranTyped, inTyped⟩ := readRange_spec cfg store ino.toNat (start.toNat, stop.toNat)
  refine ⟨found, typed, ran, ranTyped, fun index hash => ?_⟩
  rw [inFound, inTyped, UInt64.le_iff_toNat_le, UInt64.lt_iff_toNat_lt, MapsTo, holds index hash]
  by_cases inside : start.toNat ≤ index.toNat ∧ index.toNat < stop.toNat
  · rw [if_pos inside, scanned, Option.filter_eq_some_iff]
    simp [inside]
  · rw [if_neg inside]
    simp [inside]

end Refinement

/-- Block-hash queries are exact: a query for a list of ranges ends with the mappings of their
union whose hashes have the right length, and one range is read in chunks as without a limit. -/
theorem block_hash_queries_exact (api : RangeSetApi) (lawful : api.Lawful) (hashLen : Nat)
    (self : ScopedRecords scope) (ino : UInt64) :
    (∀ blockRanges : List (UInt64 × UInt64),
      (∀ range ∈ blockRanges, range.2.toNat ≤ 2 ^ 64 - maxTikvScanLimit) →
      ∃ found, (∀ fuel, 2 ^ 64 ≤ fuel →
        self.inodeReadBlockHashesBlockRange api hashLen ino blockRanges fuel = some (.ok found)) ∧
        ∀ index hash, (index, hash) ∈ found.entries ↔
          (∃ range ∈ blockRanges, range.1 ≤ index ∧ index < range.2) ∧
            self.Holds (.blockHash ino index) hash ∧ hash.length = hashLen) ∧
    ∀ start stop : UInt64, stop.toNat ≤ 2 ^ 64 - maxTikvScanLimit →
      ∃ found, self.hashListUnlimited hashLen ino start stop = .ok found ∧ ∀ fuel, 2 ^ 64 ≤ fuel →
        self.hbGetBlockHashListByBlockRangeChunked hashLen ino start stop fuel = some (.ok found) := by
  constructor
  · intro blockRanges room
    exact inodeReadRanges_spec lawful hashLen self ino room
  · intro start stop bound
    obtain ⟨found, ran, inFound⟩ := self.unlimited_spec hashLen ino start stop
    obtain ⟨chunked, ranChunked, inChunked⟩ := self.chunked_bounded hashLen ino fun _ => bound
    have same : chunked = found :=
      SortedMap.ext_mem fun entry => (inChunked entry.1 entry.2).trans (inFound entry.1 entry.2).symm
    exact ⟨found, ran, same ▸ ranChunked⟩

def rangeLists : RangeSetApi where
  RangeSet2 := List (UInt64 × UInt64)
  empty := []
  fromRange start stop := if start < stop then [(start, stop)] else []
  unionWith left right := left ++ right
  iter set := set.map fun range => .range range.1 range.2

theorem rangeLists_lawful : rangeLists.Lawful where
  empty index := by
    rintro ⟨range, listed, _⟩
    cases listed
  fromRange start stop index := by
    by_cases nonempty : start < stop
    · simp [RangeSetApi.Contains, rangeLists, nonempty, RangeSetRange.Contains]
    · have outside : ¬ (start ≤ index ∧ index < stop) := fun inside =>
        nonempty (UInt64.lt_of_le_of_lt inside.1 inside.2)
      simp [RangeSetApi.Contains, rangeLists, nonempty, outside]
  unionWith left right index := by
    have both : rangeLists.iter (rangeLists.unionWith left right) = rangeLists.iter left ++ rangeLists.iter right :=
      List.map_append
    simp only [RangeSetApi.Contains, both, List.mem_append, or_and_right, exists_or]

def threeBlocks : ScopedRecords [7] :=
  (((empty [7]).put (.blockHash 10 0) [7, 7, 1]).put (.blockHash 10 1) [8, 8, 1]).put (.blockHash 10 2) [9]

theorem block_hash_queries_three_blocks :
    (∃ found, (∀ fuel, 2 ^ 64 ≤ fuel →
        threeBlocks.inodeReadBlockHashesBlockRange rangeLists 3 10 [(0, 1), (2, 20000)] fuel = some (.ok found)) ∧
      (0, [7, 7, 1]) ∈ found.entries ∧ (1, [8, 8, 1]) ∉ found.entries ∧ (2, [9]) ∉ found.entries) ∧
    ∃ found, threeBlocks.hashListUnlimited 3 10 0 20000 = .ok found ∧ ∀ fuel, 2 ^ 64 ≤ fuel →
      threeBlocks.hbGetBlockHashListByBlockRangeChunked 3 10 0 20000 fuel = some (.ok found) := by
  obtain ⟨ranges, single⟩ := block_hash_queries_exact rangeLists rangeLists_lawful 3 threeBlocks 10
  refine ⟨?_, single 0 20000 (by decide)⟩
  have room : ∀ range ∈ ([(0, 1), (2, 20000)] : List (UInt64 × UInt64)),
      range.2.toNat ≤ 2 ^ 64 - maxTikvScanLimit := by
    intro range listed
    simp only [List.mem_cons, List.not_mem_nil, or_false] at listed
    rcases listed with rfl | rfl
    · decide
    · decide
  obtain ⟨found, ran, inFound⟩ := ranges [(0, 1), (2, 20000)] room
  refine ⟨found, ran, ?_, ?_, ?_⟩
  · refine (inFound 0 [7, 7, 1]).mpr ⟨⟨(0, 1), List.mem_cons_self, ?_, ?_⟩, by unfold Holds; decide +kernel, rfl⟩
    · exact UInt64.le_refl 0
    · decide
  · intro member
    obtain ⟨⟨range, listed, above, below⟩, _⟩ := (inFound 1 [8, 8, 1]).mp member
    simp only [List.mem_cons, List.not_mem_nil, or_false] at listed
    rcases listed with rfl | rfl
    · exact UInt64.lt_irrefl 1 below
    · revert above
      decide
  · intro member
    exact absurd ((inFound 2 [9]).mp member).2.2 (by decide)

end ScopedRecords

end TiFs
