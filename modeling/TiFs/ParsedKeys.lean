import TiFs.KeyCodec

/-! What the parse functions of keys accept: the bytes of a key that the builder can write, of
their kind and under their scope, and whatever comes behind it. -/

namespace TiFs

open BigEndian

section Readers

variable {A : Type} [DecidableEq A]

theorem except_bind_eq_ok_iff {E B C : Type} {first : Except E B} {next : B → Except E C} {result : C} :
    (first >>= next) = .ok result ↔ ∃ middle, first = .ok middle ∧ next middle = .ok result := by
  constructor
  · intro ran
    cases first with
    | error issue => cases ran
    | ok middle => exact ⟨middle, rfl, ran⟩
  · rintro ⟨middle, rfl, rest⟩
    exact rest

theorem readBigEndian_eq_ok_iff {i rest : Bytes} {value : UInt64} :
    readBigEndian i = .ok (value, rest) ↔ i = writeBigEndian value ++ rest := by
  constructor
  · intro isRead
    by_cases short : i.length < 8
    · rw [readBigEndian, if_pos short] at isRead
      cases isRead
    · rw [readBigEndian, if_neg short] at isRead
      obtain ⟨rfl, rfl⟩ := Prod.mk.inj (Except.ok.inj isRead)
      have length : (i.take 8).length = 8 := List.length_take_of_le (Nat.le_of_not_lt short)
      have small : read (i.take 8) < UInt64.size := by
        have bound := read_lt (i.take 8)
        rw [length] at bound
        exact bound
      have bytes := write_read (i.take 8)
      rw [length] at bytes
      rw [writeBigEndian, UInt64.toNat_ofNat_of_lt' small, bytes, List.take_append_drop]
  · rintro rfl
    exact readBigEndian_write value rest

theorem parseUuid_eq_ok_iff {i rest : Bytes} {id : Uuid} :
    parseUuid i = .ok (id, rest) ↔ i = Uuid.asBytes id ++ rest := by
  constructor
  · intro isRead
    by_cases short : i.length < 16
    · rw [parseUuid, if_pos short] at isRead
      cases isRead
    · rw [parseUuid, if_neg short] at isRead
      obtain ⟨rfl, rfl⟩ := Prod.mk.inj (Except.ok.inj isRead)
      have length : (i.take 16).length = 16 := List.length_take_of_le (Nat.le_of_not_lt short)
      have small : read (i.take 16) < 2 ^ 128 := by
        have bound := read_lt (i.take 16)
        rw [length] at bound
        exact bound
      have bytes := write_read (i.take 16)
      rw [length] at bytes
      rw [Uuid.asBytes, BitVec.toNat_ofNat, Nat.mod_eq_of_lt small, bytes, List.take_append_drop]
  · rintro rfl
    exact parseUuid_asBytes id rest

theorem getByRight_of_getByLeft {iter : List A} (distinct : iter.Nodup) {id : UInt8} {item : A}
    (isItem : getByLeft iter id = some item) : getByRight iter item = id := by
  obtain ⟨inside, rfl⟩ := List.getElem?_eq_some_iff.mp isItem
  rw [getByRight, distinct.idxOf_getElem, UInt8.ofNat_toNat]

theorem nextKind_eq_ok_iff {iter : List A} (distinct : iter.Nodup) (short : iter.length < 256)
    {message : String} {i rest : Bytes} {item : A} (listed : item ∈ iter) :
    nextKind iter message i = .ok (item, rest) ↔ i = getByRight iter item :: rest := by
  constructor
  · intro isRead
    cases isItem : getByLeft iter (i.headD 0xFF) with
    | none =>
        simp only [nextKind, isItem] at isRead
        cases isRead
    | some found =>
        simp only [nextKind, isItem] at isRead
        obtain ⟨rfl, rfl⟩ := Prod.mk.inj (Except.ok.inj isRead)
        rw [getByRight_of_getByLeft distinct isItem]
        cases i with
        | nil =>
            obtain ⟨inside, _⟩ := List.getElem?_eq_some_iff.mp isItem
            exact absurd inside (Nat.not_lt.mpr (Nat.le_of_lt_succ short))
        | cons byte tail => rfl
  · rintro rfl
    exact nextKind_of_get (getByLeft_getByRight listed short.le) message rest

theorem KeyKind.nextKind_iff {message : String} {i rest : Bytes} {kind : KeyKind} :
    nextKind KeyKind.iter message i = .ok (kind, rest) ↔ i = getByRight KeyKind.iter kind :: rest :=
  nextKind_eq_ok_iff (by decide) (by decide) (by cases kind <;> decide)

theorem InoMetadata.nextKind_iff {message : String} {i rest : Bytes} {tag : InoMetadata} :
    nextKind InoMetadata.iter message i = .ok (tag, rest) ↔ i = getByRight InoMetadata.iter tag :: rest :=
  nextKind_eq_ok_iff (by decide) (by decide) (by cases tag <;> decide)

theorem HashedBlockMeta.nextKind_iff {message : String} {i rest : Bytes} {tag : HashedBlockMeta} :
    nextKind HashedBlockMeta.iter message i = .ok (tag, rest) ↔
      i = getByRight HashedBlockMeta.iter tag :: rest :=
  nextKind_eq_ok_iff (by decide) (by decide) (by cases tag <;> decide)

theorem PendingDeleteMeta.nextKind_iff {message : String} {i rest : Bytes} {tag : PendingDeleteMeta} :
    nextKind PendingDeleteMeta.iter message i = .ok (tag, rest) ↔
      i = getByRight PendingDeleteMeta.iter tag :: rest :=
  nextKind_eq_ok_iff (by decide) (by decide) (by cases tag <;> decide)

end Readers

inductive KeyParse where
  | pendingDeletesX
  | ino
  | hashBlockKeyX
  | keyHashedBlock
  | keyBlockAddress
  | lockKey (keyToLock : Bytes)
  | directoryChild
  deriving DecidableEq, Repr

namespace KeyParse

def run (parser : KeyParser) : KeyParse → Except FsError LogicalKey
  | .pendingDeletesX => do
      let parsed ← parser.parsePendingDeletesX
      return .pendingDeleteX parsed.tag
  | .ino => do
      let parsed ← parser.parseIno
      return .inodeX parsed.ino parsed.tag
  | .hashBlockKeyX => do
      let parsed ← parser.parseHashBlockKeyX
      return .namedHashedBlockX parsed.hash parsed.tag none
  | .keyHashedBlock => do
      let hash ← parser.parseKeyHashedBlock
      return if parser.kind = .hashedBlock then .hashedBlock hash else .hashedBlockExists hash
  | .keyBlockAddress => do
      let address ← parser.parseKeyBlockAddress
      return if parser.kind = .block then .block address.1 address.2 else .blockHash address.1 address.2
  | .lockKey keyToLock => do
      let uuid ← parser.parseLockKey keyToLock
      return .keyLockState keyToLock uuid
  | .directoryChild => do
      let child ← parser.parseDirectoryChild
      return .directoryChild child.1 child.2

def Reads : KeyParse → LogicalKey → Prop
  | .pendingDeletesX, .pendingDeleteX _ => True
  | .ino, .inodeX _ _ => True
  | .hashBlockKeyX, .namedHashedBlockX _ _ name => name = none
  | .keyHashedBlock, .hashedBlock _ => True
  | .keyHashedBlock, .hashedBlockExists _ => True
  | .keyBlockAddress, .block _ _ => True
  | .keyBlockAddress, .blockHash _ _ => True
  | .lockKey keyToLock, .keyLockState key _ => key = keyToLock
  | .directoryChild, .directoryChild _ _ => True
  | _, _ => False

/-- A name ends where its key ends; the other parse functions leave alone what comes behind. -/
def Leaves : KeyParse → Bytes → Prop
  | .directoryChild, rest => rest = []
  | _, _ => True

end KeyParse

namespace KeyParser

variable {parser : KeyParser}

theorem start_eq_ok_iff {i scope : Bytes} {hashLen : Nat} :
    start i scope hashLen = .ok parser ↔
      parser.hashLen = hashLen ∧ i = scope ++ getByRight KeyKind.iter parser.kind :: parser.i := by
  constructor
  · intro started
    by_cases prefixed : i.take scope.length = scope
    · simp only [start, prefixed, ne_eq, not_true_eq_false, if_false] at started
      obtain ⟨⟨kind, rest⟩, isKind, isParser⟩ := except_bind_eq_ok_iff.mp started
      obtain rfl := Except.ok.inj isParser
      refine ⟨rfl, ?_⟩
      have split := List.take_append_drop scope.length i
      rw [prefixed, KeyKind.nextKind_iff.mp isKind] at split
      exact split.symm
    · simp only [start, prefixed, ne_eq, not_false_eq_true, if_true] at started
      cases started
  · rintro ⟨rfl, rfl⟩
    simp only [start, List.take_left, List.drop_left, ne_eq, not_true_eq_false, if_false]
    exact except_bind_eq_ok_iff.mpr ⟨_, KeyKind.nextKind_iff.mpr rfl, rfl⟩

theorem parseHash_eq_ok_iff {me : KeyParser} {hash : TiFsHash} :
    parser.parseHash = .ok (me, hash) ↔
      me = { parser with i := me.i } ∧ hash.length = parser.hashLen ∧ parser.i = hash ++ me.i := by
  constructor
  · intro parsed
    by_cases whole : (parser.i.take parser.hashLen).length = parser.hashLen
    · simp only [parseHash, whole, ne_eq, not_true_eq_false, if_false] at parsed
      obtain ⟨rfl, rfl⟩ := Prod.mk.inj (Except.ok.inj parsed)
      exact ⟨rfl, whole, (List.take_append_drop _ _).symm⟩
    · simp only [parseHash, whole, ne_eq, not_false_eq_true, if_true] at parsed
      cases parsed
  · rintro ⟨isMe, isLen, isInput⟩
    obtain ⟨hashLen, i, kind⟩ := parser
    subst isInput
    rw [parseHash_append isLen me.i kind, isMe]

theorem kind_eq_ok_iff {A : Type} {kind : KeyKind} {issue : FsError} {next : Except FsError A} {result : A} :
    (do
      if parser.kind ≠ kind then throw issue
      next) = .ok result ↔ parser.kind = kind ∧ next = .ok result := by
  by_cases isKind : parser.kind = kind
  · simp only [isKind, ne_eq, not_true_eq_false, if_false, true_and]
  · simp only [isKind, ne_eq, not_false_eq_true, if_true, false_and, iff_false]
    exact nofun

theorem parsePendingDeletesX_eq_ok_iff {parsed : KeyParserPendingDelete} :
    parser.parsePendingDeletesX = .ok parsed ↔ parser.kind = .pendingDelete ∧
      ∃ rest, parser.i = getByRight PendingDeleteMeta.iter parsed.tag :: rest ∧
        parsed.pre = { parser with i := rest } := by
  rw [parsePendingDeletesX, kind_eq_ok_iff, except_bind_eq_ok_iff]
  apply and_congr_right
  intro _
  constructor
  · rintro ⟨⟨tag, rest⟩, isTag, isParsed⟩
    obtain rfl := Except.ok.inj isParsed
    exact ⟨rest, PendingDeleteMeta.nextKind_iff.mp isTag, rfl⟩
  · rintro ⟨rest, isInput, isPre⟩
    obtain ⟨pre, tag⟩ := parsed
    subst isPre
    exact ⟨(tag, rest), PendingDeleteMeta.nextKind_iff.mpr isInput, rfl⟩

theorem parseIno_eq_ok_iff {parsed : KeyParserIno} :
    parser.parseIno = .ok parsed ↔ parser.kind = .inoMetadata ∧
      ∃ rest, parser.i = writeBigEndian parsed.ino ++ getByRight InoMetadata.iter parsed.tag :: rest ∧
        parsed.pre = { parser with i := rest } := by
  rw [parseIno, kind_eq_ok_iff, except_bind_eq_ok_iff]
  apply and_congr_right
  intro _
  constructor
  · rintro ⟨⟨ino, behind⟩, isIno, ran⟩
    obtain ⟨⟨tag, rest⟩, isTag, isParsed⟩ := except_bind_eq_ok_iff.mp ran
    obtain rfl := Except.ok.inj isParsed
    refine ⟨rest, ?_, rfl⟩
    rw [readBigEndian_eq_ok_iff.mp isIno, InoMetadata.nextKind_iff.mp isTag]
  · rintro ⟨rest, isInput, isPre⟩
    obtain ⟨pre, ino, tag⟩ := parsed
    subst isPre
    refine ⟨(ino, _), readBigEndian_eq_ok_iff.mpr isInput, ?_⟩
    exact except_bind_eq_ok_iff.mpr ⟨(tag, rest), InoMetadata.nextKind_iff.mpr rfl, rfl⟩

theorem parseHashBlockKeyX_eq_ok_iff {parsed : KeyParserHashBlock} :
    parser.parseHashBlockKeyX = .ok parsed ↔ parser.kind = .hashedBlock ∧
      parsed.hash.length = parser.hashLen ∧
        ∃ rest, parser.i = parsed.hash ++ getByRight HashedBlockMeta.iter parsed.tag :: rest ∧
          parsed.pre = { parser with i := rest } := by
  rw [parseHashBlockKeyX, kind_eq_ok_iff, except_bind_eq_ok_iff]
  apply and_congr_right
  intro _
  constructor
  · rintro ⟨⟨me, hash⟩, isHash, ran⟩
    obtain ⟨⟨tag, rest⟩, isTag, isParsed⟩ := except_bind_eq_ok_iff.mp ran
    obtain rfl := Except.ok.inj isParsed
    obtain ⟨isMe, isLen, isInput⟩ := parseHash_eq_ok_iff.mp isHash
    refine ⟨isLen, rest, ?_, ?_⟩
    · rw [isInput, HashedBlockMeta.nextKind_iff.mp isTag]
    · rw [isMe]
  · rintro ⟨isLen, rest, isInput, isPre⟩
    obtain ⟨pre, hash, tag⟩ := parsed
    subst isPre
    refine ⟨({ parser with i := _ }, hash), parseHash_eq_ok_iff.mpr ⟨rfl, isLen, isInput⟩, ?_⟩
    exact except_bind_eq_ok_iff.mpr ⟨(tag, rest), HashedBlockMeta.nextKind_iff.mpr rfl, rfl⟩

theorem parseHash_snd_eq_ok_iff {hash : TiFsHash} :
    (do return (← parser.parseHash).2 : Except FsError TiFsHash) = .ok hash ↔
      hash.length = parser.hashLen ∧ ∃ rest, parser.i = hash ++ rest := by
  rw [except_bind_eq_ok_iff]
  constructor
  · rintro ⟨⟨me, found⟩, isHash, same⟩
    obtain rfl := Except.ok.inj same
    obtain ⟨_, isLen, isInput⟩ := parseHash_eq_ok_iff.mp isHash
    exact ⟨isLen, me.i, isInput⟩
  · rintro ⟨isLen, rest, isInput⟩
    exact ⟨({ parser with i := rest }, hash), parseHash_eq_ok_iff.mpr ⟨rfl, isLen, isInput⟩, rfl⟩

theorem parseKeyHashedBlock_eq_ok_iff {hash : TiFsHash} :
    parser.parseKeyHashedBlock = .ok hash ↔
      (parser.kind = .hashedBlock ∨ parser.kind = .hashedBlockExists) ∧
        hash.length = parser.hashLen ∧ ∃ rest, parser.i = hash ++ rest := by
  cases isKind : parser.kind with
  | hashedBlock => simp only [parseKeyHashedBlock, isKind, parseHash_snd_eq_ok_iff, true_or, true_and]
  | hashedBlockExists =>
      simp only [parseKeyHashedBlock, isKind, parseHash_snd_eq_ok_iff, or_true, true_and]
  | _ => simp [parseKeyHashedBlock, isKind]

theorem deserializeBlockAddress_eq_ok_iff {i : Bytes} {address : UInt64 × UInt64} :
    deserializeBlockAddress i = .ok address ↔
      ∃ rest, i = writeBigEndian address.1 ++ (writeBigEndian address.2 ++ rest) := by
  rw [deserializeBlockAddress, except_bind_eq_ok_iff]
  constructor
  · rintro ⟨⟨ino, behind⟩, isIno, ran⟩
    obtain ⟨⟨index, rest⟩, isIndex, same⟩ := except_bind_eq_ok_iff.mp ran
    obtain rfl := Except.ok.inj same
    exact ⟨rest, by rw [readBigEndian_eq_ok_iff.mp isIno, readBigEndian_eq_ok_iff.mp isIndex]⟩
  · rintro ⟨rest, isInput⟩
    refine ⟨(address.1, _), readBigEndian_eq_ok_iff.mpr isInput, ?_⟩
    exact except_bind_eq_ok_iff.mpr ⟨(address.2, rest), readBigEndian_write address.2 rest, rfl⟩

theorem parseKeyBlockAddress_eq_ok_iff {address : UInt64 × UInt64} :
    parser.parseKeyBlockAddress = .ok address ↔
      (parser.kind = .block ∨ parser.kind = .inoBlockHashMapping) ∧
        ∃ rest, parser.i = writeBigEndian address.1 ++ (writeBigEndian address.2 ++ rest) := by
  cases isKind : parser.kind with
  | block => simp only [parseKeyBlockAddress, isKind, deserializeBlockAddress_eq_ok_iff, true_or, true_and]
  | inoBlockHashMapping =>
      simp only [parseKeyBlockAddress, isKind, deserializeBlockAddress_eq_ok_iff, or_true, true_and]
  | _ => simp [parseKeyBlockAddress, isKind]

theorem parseLockKey_eq_ok_iff {keyToLock : Bytes} {uuid : Uuid} :
    parser.parseLockKey keyToLock = .ok uuid ↔ parser.kind = .keyLockStates ∧
      ∃ rest, parser.i = keyToLock ++ (Uuid.asBytes uuid ++ rest) := by
  rw [parseLockKey, kind_eq_ok_iff]
  apply and_congr_right
  intro _
  by_cases prefixed : parser.i.take keyToLock.length = keyToLock
  · simp only [prefixed, ne_eq, not_true_eq_false, if_false]
    rw [except_bind_eq_ok_iff]
    have split := List.take_append_drop keyToLock.length parser.i
    rw [prefixed] at split
    constructor
    · rintro ⟨⟨found, rest⟩, isUuid, same⟩
      obtain rfl := Except.ok.inj same
      refine ⟨rest, ?_⟩
      rw [← parseUuid_eq_ok_iff.mp isUuid]
      exact split.symm
    · rintro ⟨rest, isInput⟩
      refine ⟨(uuid, rest), ?_, rfl⟩
      rw [isInput, List.drop_left]
      exact parseUuid_asBytes uuid rest
  · simp only [Ne.symm prefixed, ne_eq, not_false_eq_true, if_true]
    constructor
    · intro refused
      cases refused
    · rintro ⟨rest, isInput⟩
      rw [isInput, List.take_left] at prefixed
      exact absurd rfl prefixed

theorem parseDirectoryChild_eq_ok_iff {child : UInt64 × ByteString} :
    parser.parseDirectoryChild = .ok child ↔ parser.kind = .directoryChild ∧
      parser.i = writeBigEndian child.1 ++ child.2 := by
  rw [parseDirectoryChild, kind_eq_ok_iff, readBigEndian_eq_ok_iff]

end KeyParser

namespace KeyParse

variable {parser : KeyParser}

theorem run_eq_ok_iff {parse : KeyParse} {key : LogicalKey} :
    parse.run parser = .ok key ↔ parse.Reads key ∧ parser.kind = key.kind ∧ key.HashLen parser.hashLen ∧
      ∃ rest, parse.Leaves rest ∧ parser.i = key.body ++ rest := by
  cases parse with
  | pendingDeletesX =>
      rw [run, except_bind_eq_ok_iff]
      simp only [KeyParser.parsePendingDeletesX_eq_ok_iff]
      constructor
      · rintro ⟨parsed, ⟨isKind, rest, isInput, _⟩, same⟩
        obtain rfl := Except.ok.inj same
        exact ⟨trivial, isKind, trivial, rest, trivial, isInput⟩
      · rintro ⟨reads, isKind, _, rest, _, isInput⟩
        cases key with
        | pendingDeleteX tag => exact ⟨⟨{ parser with i := rest }, tag⟩, ⟨isKind, rest, isInput, rfl⟩, rfl⟩
        | _ => cases reads
  | ino =>
      rw [run, except_bind_eq_ok_iff]
      simp only [KeyParser.parseIno_eq_ok_iff]
      constructor
      · rintro ⟨parsed, ⟨isKind, rest, isInput, _⟩, same⟩
        obtain rfl := Except.ok.inj same
        refine ⟨trivial, isKind, trivial, rest, trivial, ?_⟩
        rw [isInput, LogicalKey.body, List.append_assoc, List.singleton_append]
      · rintro ⟨reads, isKind, _, rest, _, isInput⟩
        cases key with
        | inodeX ino tag =>
            rw [LogicalKey.body, List.append_assoc, List.singleton_append] at isInput
            exact ⟨⟨{ parser with i := rest }, ino, tag⟩, ⟨isKind, rest, isInput, rfl⟩, rfl⟩
        | _ => cases reads
  | hashBlockKeyX =>
      rw [run, except_bind_eq_ok_iff]
      simp only [KeyParser.parseHashBlockKeyX_eq_ok_iff]
      constructor
      · rintro ⟨parsed, ⟨isKind, isLen, rest, isInput, _⟩, same⟩
        obtain rfl := Except.ok.inj same
        refine ⟨rfl, isKind, isLen, rest, trivial, ?_⟩
        rw [isInput, LogicalKey.body, List.append_assoc]
        rfl
      · rintro ⟨reads, isKind, isLen, rest, _, isInput⟩
        cases key with
        | namedHashedBlockX hash tag name =>
            obtain rfl : name = none := reads
            rw [LogicalKey.body, List.append_assoc] at isInput
            exact ⟨⟨{ parser with i := rest }, hash, tag⟩, ⟨isKind, isLen, rest, isInput, rfl⟩, rfl⟩
        | _ => cases reads
  | keyHashedBlock =>
      rw [run, except_bind_eq_ok_iff]
      simp only [KeyParser.parseKeyHashedBlock_eq_ok_iff]
      constructor
      · rintro ⟨hash, ⟨isKind, isLen, rest, isInput⟩, same⟩
        obtain rfl := Except.ok.inj same
        rcases isKind with isKind | isKind
        · rw [if_pos isKind]
          exact ⟨trivial, isKind, isLen, rest, trivial, isInput⟩
        · rw [if_neg (by rw [isKind]; decide)]
          exact ⟨trivial, isKind, isLen, rest, trivial, isInput⟩
      · rintro ⟨reads, isKind, isLen, rest, _, isInput⟩
        cases key with
        | hashedBlock hash =>
            rw [LogicalKey.kind] at isKind
            refine ⟨hash, ⟨Or.inl isKind, isLen, rest, isInput⟩, ?_⟩
            rw [if_pos isKind]
            rfl
        | hashedBlockExists hash =>
            rw [LogicalKey.kind] at isKind
            refine ⟨hash, ⟨Or.inr isKind, isLen, rest, isInput⟩, ?_⟩
            rw [if_neg (by rw [isKind]; decide)]
            rfl
        | _ => cases reads
  | keyBlockAddress =>
      rw [run, except_bind_eq_ok_iff]
      simp only [KeyParser.parseKeyBlockAddress_eq_ok_iff]
      constructor
      · rintro ⟨address, ⟨isKind, rest, isInput⟩, same⟩
        obtain rfl := Except.ok.inj same
        rw [← List.append_assoc] at isInput
        rcases isKind with isKind | isKind
        · rw [if_pos isKind]
          exact ⟨trivial, isKind, trivial, rest, trivial, isInput⟩
        · rw [if_neg (by rw [isKind]; decide)]
          exact ⟨trivial, isKind, trivial, rest, trivial, isInput⟩
      · rintro ⟨reads, isKind, _, rest, _, isInput⟩
        cases key with
        | block ino index =>
            rw [LogicalKey.kind] at isKind
            rw [LogicalKey.body, List.append_assoc] at isInput
            refine ⟨(ino, index), ⟨Or.inl isKind, rest, isInput⟩, ?_⟩
            rw [if_pos isKind]
            rfl
        | blockHash ino index =>
            rw [LogicalKey.kind] at isKind
            rw [LogicalKey.body, List.append_assoc] at isInput
            refine ⟨(ino, index), ⟨Or.inr isKind, rest, isInput⟩, ?_⟩
            rw [if_neg (by rw [isKind]; decide)]
            rfl
        | _ => cases reads
  | lockKey keyToLock =>
      rw [run, except_bind_eq_ok_iff]
      simp only [KeyParser.parseLockKey_eq_ok_iff]
      constructor
      · rintro ⟨uuid, ⟨isKind, rest, isInput⟩, same⟩
        obtain rfl := Except.ok.inj same
        rw [← List.append_assoc] at isInput
        exact ⟨rfl, isKind, trivial, rest, trivial, isInput⟩
      · rintro ⟨reads, isKind, _, rest, _, isInput⟩
        cases key with
        | keyLockState locked uuid =>
            obtain rfl : locked = keyToLock := reads
            rw [LogicalKey.body, List.append_assoc] at isInput
            exact ⟨uuid, ⟨isKind, rest, isInput⟩, rfl⟩
        | _ => cases reads
  | directoryChild =>
      rw [run, except_bind_eq_ok_iff]
      simp only [KeyParser.parseDirectoryChild_eq_ok_iff]
      constructor
      · rintro ⟨child, ⟨isKind, isInput⟩, same⟩
        obtain rfl := Except.ok.inj same
        exact ⟨trivial, isKind, trivial, [], rfl, isInput.trans (List.append_nil _).symm⟩
      · rintro ⟨reads, isKind, _, rest, isEmpty, isInput⟩
        obtain rfl : rest = [] := isEmpty
        rw [List.append_nil] at isInput
        cases key with
        | directoryChild parent name => exact ⟨(parent, name), ⟨isKind, isInput⟩, rfl⟩
        | _ => cases reads

/-- A parse function succeeds on a byte string exactly if this is a key that the builder writes
under the scope, with the parts that are returned and hashes of the right length, and what the
parse function leaves alone behind it. -/
theorem accepts_iff (parse : KeyParse) (i scope : Bytes) (hashLen : Nat) (key : LogicalKey) :
    (KeyParser.start i scope hashLen >>= fun parser => parse.run parser) = .ok key ↔
      parse.Reads key ∧ key.HashLen hashLen ∧ ∃ rest, parse.Leaves rest ∧ i = key.bytes scope ++ rest := by
  have split : ∀ rest, key.bytes scope ++ rest =
      scope ++ getByRight KeyKind.iter key.kind :: (key.body ++ rest) := by
    intro rest
    rw [key.bytes_eq, List.append_assoc, List.cons_append]
  rw [except_bind_eq_ok_iff]
  constructor
  · rintro ⟨parser, started, ran⟩
    obtain ⟨rfl, isInput⟩ := KeyParser.start_eq_ok_iff.mp started
    obtain ⟨reads, isKind, isLen, rest, leaves, isBody⟩ := run_eq_ok_iff.mp ran
    refine ⟨reads, isLen, rest, leaves, ?_⟩
    rw [isInput, isKind, isBody, split]
  · rintro ⟨reads, isLen, rest, leaves, rfl⟩
    refine ⟨⟨hashLen, key.body ++ rest, key.kind⟩, KeyParser.start_eq_ok_iff.mpr ⟨rfl, split rest⟩, ?_⟩
    exact run_eq_ok_iff.mpr ⟨reads, rfl, isLen, rest, leaves, rfl⟩

/-- The last byte of a uuid is missing. -/
example : (KeyParser.start ([1, 0, 7] ++ List.replicate 15 0) [1] 3 >>= fun parser =>
    (KeyParse.lockKey [7]).run parser).toOption = none := by decide

end KeyParse

end TiFs
