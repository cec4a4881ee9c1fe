import Mathlib.Data.UInt
import TiFs.MountOptions
import TiFs.SplitterArithmetic

namespace TiFs.FsConfig

open CheckedWord MountOption

inductive HashAlgorithm where
  | blake3
  | sha256
  | sha512
  deriving DecidableEq, Repr

/-- `ALGO_NAME_MAP`. -/
def algoNameMap : List (String × HashAlgorithm) :=
  [("BLAKE3", .blake3), ("SHA-256", .sha256), ("SHA-512", .sha512)]

/-- `ALGO_HASH_LEN_MAP`. -/
def HashAlgorithm.hashLen : HashAlgorithm → UInt64
  | blake3 => 32
  | sha256 => 32
  | sha512 => 64

/-- The configuration as it is made of the mount options, with all its words. The other modules
take the part of it that their calls read: `TiFs.TiFsConfig` has its `blockSize` and `hashLen`
as numbers, and the function that `hashAlgorithm` names. -/
structure TiFsConfig where
  keyPrefix : Bytes
  blockSize : UInt64
  inlineDataLimit : UInt64
  enableAtime : Bool
  enableMtime : Bool
  directIo : Bool
  inodeCacheSize : UInt64
  hashedBlocks : Bool
  hashAlgorithm : HashAlgorithm
  hashLen : UInt64
  hashedBlocksCacheSize : UInt64
  maxSize : Option UInt64
  validateWrites : Bool
  validateReadHashes : Bool
  pureRaw : Bool
  existenceCheck : Bool
  parallelJobs : UInt64
  parallelJobsDelete : UInt64
  maxChunkSize : UInt64
  writeInProgressLimit : UInt64
  writeAccumulatorFlushThreshold : UInt64
  readAheadSize : UInt64
  readAheadInProgressLimit : UInt64
  smallTransactions : Bool
  chunkedBlockUpload : Bool
  deriving DecidableEq, Repr

def defaultBlockSize : UInt64 := 2 ^ 16

/-- The parameters that the loop over the options overwrites. -/
structure Params where
  name : Text
  maxSize : Option UInt64
  blockSize : UInt64
  hashAlgo : HashAlgorithm
  inlineDataLimit : UInt64
  smallTransactions : Bool
  parallelJobs : UInt64
  parallelJobsDelete : UInt64
  writeAccumulatorFlushThreshold : UInt64
  deriving DecidableEq, Repr

def Params.default : Params where
  name := []
  maxSize := none
  blockSize := defaultBlockSize
  hashAlgo := .blake3
  inlineDataLimit := defaultBlockSize / 2 ^ 4
  smallTransactions := false
  parallelJobs := 0
  parallelJobsDelete := 0
  writeAccumulatorFlushThreshold := 2 * 2 ^ 20

def parseDigits (value : UInt64) : Text → Except Text UInt64
  | [] => .ok value
  | digit :: digits =>
      if digit.isDigit then
        let next := value.toNat * 10 + (digit.toNat - '0'.toNat)
        if next < 2 ^ 64 then parseDigits (UInt64.ofNat next) digits
        else .error "number too large to fit in target type".toList
      else .error "invalid digit found in string".toList

/-- `str::parse` for `u64` and `usize`. -/
def parseInt : Text → Except Text UInt64
  | [] => .error "cannot parse integer from empty string".toList
  | ['+'] => .error "invalid digit found in string".toList
  | '+' :: digits => parseDigits 0 digits
  | digits => parseDigits 0 digits

def mapErr {A : Type} (what : String) (value : Text) : Except Text A → Except FsError A
  | .ok parsed => .ok parsed
  | .error err =>
      .error (.configParsingFailed (String.ofList (what.toList ++ '(' :: value ++ "): ".toList ++ err)))

section Options

-- `parse_size` is a crate of its own: it makes a number of bytes of a text with units.
variable (parseSize : Text → Except Text UInt64)

def Params.apply (params : Params) : MountOption → Except FsError Params
  | .name value => .ok { params with name := value }
  | .blkSize size => do
      let blockSize ← mapErr "failed to parse blksize" size (parseSize size)
      .ok { params with blockSize := blockSize }
  | .maxSize size => do
      let maxSize ← mapErr "failed to parse maxsize" size (parseSize size)
      .ok { params with maxSize := some maxSize }
  | .hashAlgorithm value =>
      match algoNameMap.lookup (String.ofList value) with
      | some hashAlgo => .ok { params with hashAlgo := hashAlgo }
      | none => .error (.configParsingFailed ("hash algo name unsupported: " ++ String.ofList value))
  | .inlineDataLimit value => do
      let inlineDataLimit ← mapErr "failed to parse InlineDataLimit" value (parseSize value)
      .ok { params with inlineDataLimit := inlineDataLimit }
  | .smallTxns => .ok { params with smallTransactions := true }
  | .parallelJobs value => do
      let parallelJobs ← mapErr "fail to parse ParallelJobs" value (parseInt value)
      .ok { params with parallelJobs := parallelJobs }
  | .parallelJobsDelete value => do
      let parallelJobsDelete ← mapErr "fail to parse ParallelJobsDelete" value (parseInt value)
      .ok { params with parallelJobsDelete := parallelJobsDelete }
  | .writeAccumulatorFlushThreshold value => do
      let threshold ← mapErr "fail to parse WriteAccumulatorFlushThreshold" value (parseInt value)
      .ok { params with writeAccumulatorFlushThreshold := threshold }
  | _ => .ok params

/-- A parameter that is looked up: the first option that gives one, skipping those whose
value cannot be parsed. -/
def findMap {A : Type} (options : List MountOption) (given : MountOption → Option A) (otherwise : A) : A :=
  (options.findSome? given).getD otherwise

def fromOptions (options : List MountOption) : Except FsError TiFsConfig := do
  let params ← options.foldlM (Params.apply parseSize) Params.default
  .ok
    { keyPrefix := params.name.flatMap String.utf8EncodeChar
      blockSize := params.blockSize
      inlineDataLimit := params.inlineDataLimit
      directIo := options.any (· = .directIo)
      maxSize := params.maxSize
      enableAtime := findMap options
        (fun | .noAtime => some false | .atime => some true | _ => none) true
      enableMtime := findMap options (fun | .noMtime => some false | _ => none) true
      inodeCacheSize := findMap options
        (fun | .inodeCacheSize value => (parseSize value).toOption | _ => none) (10 * 2 ^ 20)
      hashedBlocks := findMap options (fun | .hashedBlocks => some true | _ => none) false
      hashAlgorithm := params.hashAlgo
      hashLen := params.hashAlgo.hashLen
      hashedBlocksCacheSize := findMap options
        (fun | .hashedBlocksCacheSize value => (parseSize value).toOption | _ => none) (200 * 2 ^ 20)
      validateWrites := findMap options (fun | .validateWrites => some true | _ => none) false
      validateReadHashes := findMap options (fun | .validateReadHashes => some true | _ => none) false
      pureRaw := findMap options (fun | .pureRaw => some true | _ => none) false
      existenceCheck := findMap options (fun | .noExistenceCheck => some false | _ => none) true
      parallelJobs := params.parallelJobs
      parallelJobsDelete := params.parallelJobsDelete
      maxChunkSize := findMap options
        (fun | .maxChunkSize value => (parseInt value).toOption | _ => none) (UInt64.ofNat (2 ^ 64 - 1))
      writeInProgressLimit := findMap options
        (fun | .writeInProgressLimit value => (parseInt value).toOption | _ => none) 0
      readAheadSize := findMap options
        (fun | .readAheadSize value => (parseSize value).toOption | _ => none) 0
      readAheadInProgressLimit := findMap options
        (fun | .readAheadInProgressLimit value => (parseInt value).toOption | _ => none) 10
      smallTransactions := params.smallTransactions
      chunkedBlockUpload := true
      writeAccumulatorFlushThreshold := params.writeAccumulatorFlushThreshold }

end Options

/-- How many entries a cache holds, and for how many seconds; the block cache has no limit in time. -/
structure CacheLimits where
  capacity : Nat
  timeToLive : Option Nat
  deriving DecidableEq, Repr

structure TiFsCaches where
  block : CacheLimits
  inodeDesc : CacheLimits
  inodeSize : CacheLimits
  inodeLockState : CacheLimits
  inodeAtime : CacheLimits
  inodeMtime : CacheLimits
  inodeAttr : CacheLimits
  deriving DecidableEq, Repr

def TiFsCaches.new (cfg : TiFsConfig) : Option TiFsCaches := do
  let perBlock ← div cfg.blockSize.toNat 16
  let inoCacheSize ← div cfg.inodeCacheSize.toNat perBlock
  let blocks ← div cfg.hashedBlocksCacheSize.toNat cfg.blockSize.toNat
  some
    { block := ⟨blocks, none⟩
      inodeDesc := ⟨inoCacheSize, some 100⟩
      inodeSize := ⟨inoCacheSize, some 5⟩
      inodeAtime := ⟨inoCacheSize, some 5⟩
      inodeMtime := ⟨inoCacheSize, some 5⟩
      inodeAttr := ⟨inoCacheSize, some 30⟩
      inodeLockState := ⟨inoCacheSize, some 2⟩ }

/-- The sizes that `TiFs::init` asks the kernel for: of a write, and to read ahead. -/
def initSizes (cfg : TiFsConfig) : Option (Nat × Nat) := do
  let maxWrite ← mul 32 (narrow 32 cfg.blockSize.toNat) 128
  let maxReadahead ← mul 32 (narrow 32 cfg.blockSize.toNat) 100
  some (maxWrite, maxReadahead)

/-- No operation on the sizes of the configuration divides by zero or overflows. -/
structure ArithmeticallySafe (cfg : TiFsConfig) : Prop where
  caches : (TiFsCaches.new cfg).isSome
  kernel : (initSizes cfg).isSome
  write : ∀ (start : Nat) (data : Bytes), start < 2 ^ 63 → data.length < 2 ^ 63 →
    (BlockSplitterWrite.checkedNew cfg.blockSize.toNat start data).isSome
  read : ∀ start size : Nat, start < 2 ^ 63 → size < 2 ^ 63 →
    (BlockSplitterRead.checkedNew cfg.blockSize.toNat start size).isSome

theorem caches_isSome_iff (cfg : TiFsConfig) :
    (TiFsCaches.new cfg).isSome ↔ 16 ≤ cfg.blockSize.toNat := by
  have quotient : 0 < cfg.blockSize.toNat / 16 ↔ 16 ≤ cfg.blockSize.toNat := by omega
  simp only [TiFsCaches.new, div_of_pos (show 0 < 16 by decide), Option.bind_eq_bind, Option.bind_some]
  by_cases enough : 16 ≤ cfg.blockSize.toNat
  · rw [div_of_pos (quotient.mpr enough), Option.bind_some, div_of_pos (by omega)]
    simp only [Option.bind_some, Option.isSome_some, enough]
  · have refused : div cfg.inodeCacheSize.toNat (cfg.blockSize.toNat / 16) = none :=
      if_neg (mt quotient.mp enough)
    rw [refused]
    simp only [Option.bind_none, Option.isSome_none, Bool.false_eq_true, enough]

theorem initSizes_isSome_iff (cfg : TiFsConfig) :
    (initSizes cfg).isSome ↔ cfg.blockSize.toNat % 2 ^ 32 < 2 ^ 25 := by
  simp only [initSizes, narrow, Option.bind_eq_bind]
  by_cases small : cfg.blockSize.toNat % 2 ^ 32 < 2 ^ 25
  · rw [mul_of_lt (by omega), Option.bind_some, mul_of_lt (by omega)]
    simp only [Option.bind_some, Option.isSome_some, small]
  · have refused : mul 32 (cfg.blockSize.toNat % 2 ^ 32) 128 = none := if_neg (by omega)
    rw [refused]
    simp only [Option.bind_none, Option.isSome_none, Bool.false_eq_true, small]

/-- The splitters need no more than a block size that is not zero. -/
theorem arithmeticallySafe_iff (cfg : TiFsConfig) :
    ArithmeticallySafe cfg ↔ 16 ≤ cfg.blockSize.toNat ∧ cfg.blockSize.toNat % 2 ^ 32 < 2 ^ 25 := by
  constructor
  · intro safe
    exact ⟨(caches_isSome_iff cfg).mp safe.caches, (initSizes_isSome_iff cfg).mp safe.kernel⟩
  · rintro ⟨enough, small⟩
    have positive : 0 < cfg.blockSize.toNat := by omega
    refine ⟨(caches_isSome_iff cfg).mpr enough, (initSizes_isSome_iff cfg).mpr small, ?_, ?_⟩
    · intro start data inFile short
      rw [BlockSplitterWrite.checkedNew_eq positive (by omega) (by omega)]
      rfl
    · intro start size inFile short
      rw [BlockSplitterRead.checkedNew_eq positive (by omega)]
      rfl

def blkSizeValue : MountOption → Option Text
  | .blkSize size => some size
  | _ => none

def lastBlkSize (options : List MountOption) : Option Text := (options.filterMap blkSizeValue).getLast?

section Accepted

variable {parseSize : Text → Except Text UInt64}

theorem mapErr_eq_ok {A : Type} {what : String} {value : Text} {result : Except Text A} {parsed : A}
    (accepted : mapErr what value result = .ok parsed) : result = .ok parsed := by
  cases result with
  | ok _ => exact congrArg Except.ok (Except.ok.inj accepted)
  | error _ => cases accepted

theorem Params.apply_blockSize {params next : Params} {option : MountOption}
    (applied : params.apply parseSize option = .ok next) :
    (blkSizeValue option = none ∧ next.blockSize = params.blockSize) ∨
      ∃ value, blkSizeValue option = some value ∧ parseSize value = .ok next.blockSize := by
  cases option with
  | blkSize size =>
      obtain ⟨blockSize, parsed, set⟩ := except_bind_eq_ok applied
      rw [← Except.ok.inj set]
      exact Or.inr ⟨size, rfl, mapErr_eq_ok parsed⟩
  | hashAlgorithm value =>
      refine Or.inl ⟨rfl, ?_⟩
      simp only [Params.apply] at applied
      split at applied
      · rw [← Except.ok.inj applied]
      · cases applied
  | maxSize | inlineDataLimit | parallelJobs | parallelJobsDelete | writeAccumulatorFlushThreshold =>
      obtain ⟨_, _, set⟩ := except_bind_eq_ok applied
      rw [← Except.ok.inj set]
      exact Or.inl ⟨rfl, rfl⟩
  | _ =>
      rw [← Except.ok.inj applied]
      exact Or.inl ⟨rfl, rfl⟩

theorem foldlM_blockSize {options : List MountOption} {params final : Params}
    (applied : options.foldlM (Params.apply parseSize) params = .ok final) :
    (lastBlkSize options = none ∧ final.blockSize = params.blockSize) ∨
      ∃ value, lastBlkSize options = some value ∧ parseSize value = .ok final.blockSize := by
  induction options generalizing params with
  | nil =>
      rw [← Except.ok.inj applied]
      exact Or.inl ⟨rfl, rfl⟩
  | cons option options ih =>
      rw [List.foldlM_cons] at applied
      obtain ⟨next, first, rest⟩ := except_bind_eq_ok applied
      rcases ih rest with ⟨absent, same⟩ | ⟨value, last, parsed⟩
      · have empty := List.getLast?_eq_none_iff.mp absent
        rcases Params.apply_blockSize first with ⟨other, kept⟩ | ⟨value, given, parsed⟩
        · refine Or.inl ⟨?_, same.trans kept⟩
          rw [lastBlkSize, List.filterMap_cons_none other]
          exact absent
        · refine Or.inr ⟨value, ?_, same ▸ parsed⟩
          rw [lastBlkSize, List.filterMap_cons_some given, empty]
          rfl
      · refine Or.inr ⟨value, ?_, parsed⟩
        cases given : blkSizeValue option with
        | none =>
            rw [lastBlkSize, List.filterMap_cons_none given]
            exact last
        | some other =>
            rw [lastBlkSize, List.filterMap_cons_some given, List.getLast?_cons]
            exact congrArg (fun found => some (found.getD other)) last

/-- An accepted configuration is safe exactly if its block size is the default one or, as
the last `blksize` gives it, at least 16 and below 2^25 in its lower 32 bits. -/
theorem accepted_safe_iff (parseSize : Text → Except Text UInt64) (options : List MountOption)
    (cfg : TiFsConfig) (accepted : fromOptions parseSize options = .ok cfg) :
    ArithmeticallySafe cfg ↔
      ∀ value size, lastBlkSize options = some value → parseSize value = .ok size →
        16 ≤ size.toNat ∧ size.toNat % 2 ^ 32 < 2 ^ 25 := by
  obtain ⟨params, applied, built⟩ := except_bind_eq_ok accepted
  have isSize : cfg.blockSize = params.blockSize := by rw [← Except.ok.inj built]
  rw [arithmeticallySafe_iff, isSize]
  rcases foldlM_blockSize applied with ⟨absent, same⟩ | ⟨last, isLast, parsed⟩
  · rw [same]
    constructor
    · intro _ value size given
      rw [absent] at given
      cases given
    · intro _
      decide
  · constructor
    · intro safe value size given known
      rw [isLast, Option.some.injEq] at given
      rw [← given, parsed] at known
      rw [← Except.ok.inj known]
      exact safe
    · intro safe
      exact safe last params.blockSize isLast parsed

end Accepted

/-- Without units a size is a plain number. -/
theorem accepted_safe_plain :
    ∃ cfg, fromOptions parseInt [.blkSize "8".toList, .blkSize "4096".toList] = .ok cfg ∧
      ArithmeticallySafe cfg := by
  refine ⟨_, rfl, (accepted_safe_iff parseInt [.blkSize "8".toList, .blkSize "4096".toList] _ rfl).mpr ?_⟩
  intro value size last parsed
  have isValue : "4096".toList = value := Option.some.inj last
  have isSize : parseInt "4096".toList = .ok 4096 := by decide
  rw [← isValue, isSize] at parsed
  rw [← Except.ok.inj parsed]
  decide

/-- Blocks of 8 bytes make the cache sizes divide by zero, blocks of 32 MiB make the size
of a write overflow. -/
theorem accepted_unsafe :
    (∃ cfg, fromOptions parseInt [.blkSize "8".toList] = .ok cfg ∧ TiFsCaches.new cfg = none ∧
      ¬ ArithmeticallySafe cfg) ∧
    ∃ cfg, fromOptions parseInt [.blkSize "33554432".toList] = .ok cfg ∧ initSizes cfg = none ∧
      ¬ ArithmeticallySafe cfg := by
  refine ⟨⟨_, rfl, by decide, ?_⟩, ⟨_, rfl, by decide, ?_⟩⟩
  · rw [arithmeticallySafe_iff]
    decide
  · rw [arithmeticallySafe_iff]
    decide

end TiFs.FsConfig
