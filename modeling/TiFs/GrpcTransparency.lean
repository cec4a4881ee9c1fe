import TiFs.GrpcService

/-! What a client of the storage service gets: the answers of the backend behind the
server, but for the calls that either side settles without asking it. -/

namespace TiFs

open RemoteCall Tables

namespace HashFsCall

/-- The answers given without the backend: the client has nothing to send for an
empty list of blocks, and the server refuses an empty list of ranges. -/
def guarded {V : Type} : HashFsCall V → Option (HashFsResult V)
  | .inodeReadBlockHashesBlockRange _ [] =>
      some (.error (.rawGrpcStatus (some (Grpc.invalidArgument "block_ranges parameter is required!"))))
  | .hbIncrementReferenceCount [] => some (.ok ∅)
  | .hbUploadNewBlock [] => some (.ok ())
  | .inodeWriteHashBlockToAddressesUpdateInoSizeAndCleaningPreviousBlockHashes _ [] => some (.ok ())
  | _ => none

/-- The call as it reaches the backend: empty inline data is no inline data. -/
def forwarded {V : Type} : HashFsCall V → HashFsCall V
  | .directoryAddChildCheckedNewInode parent name typ perm gid uid rdev (some []) =>
      .directoryAddChildCheckedNewInode parent name typ perm gid uid rdev none
  | call => call

def Reported {S V : Type} (fs : HashFsInterface S) (state : S) : HashFsCall V → Prop
  | .directoryReadChildren dirIno => ∃ items, (fs.directoryReadChildren dirIno state).1 = .ok items
  | _ => True

end HashFsCall

namespace Grpc

def relayed {V : Type} (result : HashFsResult V) : HashFsResult V :=
  result.mapError fun err => (HashFsError.of err).into

theorem sameOutcome_relayed {V : Type} (result : HashFsResult V) :
    SameOutcome (relayed result) result := by
  cases result with
  | ok value => rfl
  | error err => exact HashFsError.into_of err

section Responses

theorem map_unwrapped {A B : Type} {wrap : A → B} {unwrap : B → A}
    (inverse : ∀ value, unwrap (wrap value) = value) (argument : Option A) :
    (argument.map wrap).map unwrap = argument := by
  cases argument with
  | none => rfl
  | some value => exact congrArg some (inverse value)

theorem filterMap_unwrapped {A B : Type} {wrap : A → B} {unwrap : B → Option A}
    (inverse : ∀ item, unwrap (wrap item) = some item) (items : List A) :
    (items.map wrap).filterMap unwrap = items := by
  rw [List.filterMap_map]
  exact (List.filterMap_congr fun item _ => inverse item).trans List.filterMap_some

theorem blocks_arrive (blocks : List (TiFsHash × Bytes)) :
    (blocks.map fun block => HashBlockData.mk (some ⟨block.1⟩) block.2).filterMap
      (fun d => d.hash.map fun hash => (hash.data, d.data)) = blocks := by
  apply filterMap_unwrapped
  intro block
  rfl

theorem receiveValue_valueRs {V Value : Type} {encode : V → Value} {decode : Value → V}
    (inverse : ∀ value, decode (encode value) = value) (result : HashFsResult V) :
    receiveValue decode (valueRs encode result) = relayed result := by
  cases result with
  | ok value => exact congrArg Except.ok (inverse value)
  | error err => rfl

@[simp] theorem receiveUnit_errorRs (result : HashFsResult Unit) :
    receiveUnit (errorRs result) = relayed result := by
  cases result with
  | ok value => rfl
  | error err => rfl

@[simp] theorem receiveGotOrMade_gotOrMadeRs (result : HashFsResult (GotOrMade TiFs.StorageDirItem)) :
    receiveGotOrMade (gotOrMadeRs result) = relayed result := by
  cases result with
  | ok value =>
      cases value with
      | existedAlready item =>
          exact congrArg (fun item => Except.ok (GotOrMade.existedAlready item))
            (StorageDirItem.into_of item)
      | newlyCreated item =>
          exact congrArg (fun item => Except.ok (GotOrMade.newlyCreated item))
            (StorageDirItem.into_of item)
  | error err => rfl

@[simp] theorem receiveData_dataRs (result : HashFsResult Bytes) :
    receiveData (dataRs result) = relayed result := by
  cases result with
  | ok value => rfl
  | error err => rfl

theorem receiveChildren_ok (items : List TiFs.DirectoryItem) :
    receiveChildren (directoryReadChildrenRs (.ok items)) = .ok items := by
  rw [directoryReadChildrenRs, receiveChildren]
  refine congrArg Except.ok (filterMap_unwrapped (fun item => ?_) items)
  rw [Option.map_some, StorageDirItemKind.ofNumber_number]
  rfl

variable {wire : Wire} (lawful : wire.Lawful)
include lawful

theorem receiveAllAttributes_valueRs (result : HashFsResult AllAttributes) :
    receiveAllAttributes wire (valueRs (allAttributes wire) result) = relayed result := by
  cases result with
  | ok value =>
      obtain ⟨desc, attr, size, atime⟩ := value
      calc receiveAllAttributes wire (valueRs (allAttributes wire) (.ok (desc, attr, size, atime)))
          = .ok ((InoDescription.of wire desc).into, (InoStorageFileAttr.of wire attr).into,
              (InoSize.of wire size).into, (InoAccessTime.of wire atime).into) := rfl
        _ = .ok (desc, attr, size, atime) := by
            rw [InoDescription.into_of lawful, InoStorageFileAttr.into_of lawful,
              InoSize.into_of lawful, InoAccessTime.into_of lawful]
  | error err => rfl

theorem receiveBlockHashes_blockHashesRs
    (result : HashFsResult (HashMap TiFs.BlockIndex TiFsHash)) :
    receiveBlockHashes wire (blockHashesRs wire result) = relayed result := by
  cases result with
  | ok data =>
      exact congrArg Except.ok ((lawful.iter_lists data).collect_unwrapped (fun _ => rfl)
        (lawful.iter_lists _))
  | error err => rfl

theorem receiveBlockData_hbGetBlockDataByHashesRs (result : HashFsResult (HashMap TiFsHash Bytes)) :
    receiveBlockData (hbGetBlockDataByHashesRs wire result) = relayed result := by
  cases result with
  | ok data =>
      calc receiveBlockData (hbGetBlockDataByHashesRs wire (.ok data))
          = .ok (collectMap (wire.iter data)) :=
            congrArg (fun pairs => Except.ok (collectMap pairs)) (blocks_arrive (wire.iter data))
        _ = .ok data := congrArg Except.ok (lawful.iter_lists data).collect_eq
  | error err => rfl

theorem receivePreviousCounts_hbIncrementReferenceCountRs
    (result : HashFsResult (HashMap TiFsHash Nat)) :
    receivePreviousCounts (hbIncrementReferenceCountRs wire result) = relayed result := by
  cases result with
  | ok data =>
      have sent : ((wire.iter data).map fun entry =>
          HashBlockCount.mk (some ⟨entry.1⟩) (some (BigUint.of entry.2))).filterMap
          (fun entry => do
            let hash ← entry.hash
            let count ← entry.count
            return (hash.data, count.into)) = wire.iter data := by
        refine filterMap_unwrapped (fun entry => ?_) _
        exact congrArg (fun count => some (entry.1, count)) (BigUint.into_of entry.2)
      calc receivePreviousCounts (hbIncrementReferenceCountRs wire (.ok data))
          = .ok (collectMap (wire.iter data)) :=
            congrArg (fun pairs => Except.ok (collectMap pairs)) sent
        _ = .ok data := congrArg Except.ok (lawful.iter_lists data).collect_eq
  | error err => rfl

end Responses

section Calls

def received {V : Type} : HashFsCall V → HashFsResult V → HashFsResult V
  | .directoryReadChildren _, .error _ => .ok []
  | _, result => relayed result

theorem receiveChildren_directoryReadChildrenRs (dirIno : TiFs.StorageIno)
    (result : HashFsResult (List TiFs.DirectoryItem)) :
    receiveChildren (directoryReadChildrenRs result) =
      received (.directoryReadChildren dirIno) result := by
  cases result with
  | ok items => exact receiveChildren_ok items
  | error err => rfl

variable {S Args Response V : Type}

theorem call_serve {arguments : Except GrpcStatus Args} {args : Args}
    {method : Args → StateM S (HashFsResult V)} {direct : StateM S (HashFsResult V)}
    {respond : HashFsResult V → Response} {receive : Response → HashFsResult V}
    {seen : HashFsResult V → HashFsResult V} (passed : arguments = .ok args)
    (reached : method args = direct) (answered : ∀ result, receive (respond result) = seen result)
    (state : S) :
    call (serve arguments method respond) receive state =
      (seen (direct state).1, (direct state).2) := by
  subst passed
  rw [call, request_serve_ok, reached, answered]

theorem increments_arrive (blocks : List (TiFsHash × Nat)) :
    (blocks.map fun block => HashBlockIncrements.mk (some ⟨block.1⟩) block.2).filterMap
      (fun e => e.hash.map fun hash => (hash.data, e.inc)) = blocks := by
  apply filterMap_unwrapped
  intro block
  rfl

theorem addresses_arrive (blocks : List (TiFsHash × Nat × List TiFs.BlockIndex)) :
    (blocks.map fun block => HashBlockAddresses.mk (some ⟨block.1⟩) block.2.1
      (block.2.2.map BlockIndex.of)).filterMap
      (fun d => d.hash.map fun hash =>
        (hash.data, d.blockActualLength, d.blockIds.map BlockIndex.into)) = blocks := by
  refine filterMap_unwrapped (fun block => ?_) blocks
  exact congrArg (fun ids => some (block.1, block.2.1, ids))
    ((List.map_map ..).trans (List.map_id block.2.2))

variable {wire : Wire} (lawful : wire.Lawful) (fs : HashFsInterface S)

theorem client_newInode (parent : TiFs.ParentStorageIno) (name : ByteString)
    (typ : TiFs.StorageDirItemKind) (perm : TiFs.StorageFilePermission) (gid uid rdev : Nat)
    {inlineData arrived : Option Bytes}
    (arrives : (if (inlineData.getD []).length > 0 then some (inlineData.getD []) else none) = arrived)
    (state : S) :
    (client wire (server wire fs)).directoryAddChildCheckedNewInode parent name typ perm gid uid rdev
        inlineData state =
      (relayed (fs.directoryAddChildCheckedNewInode parent name typ perm gid uid rdev arrived state).1,
        (fs.directoryAddChildCheckedNewInode parent name typ perm gid uid rdev arrived state).2) := by
  refine call_serve rfl ?_ receiveGotOrMade_gotOrMadeRs state
  subst arrives
  dsimp only
  rw [StorageDirItemKind.ofNumber_number, StorageFilePermission.into_of]
  rfl

include lawful

theorem setAttributes_arrive (attributes : SetAttributes) :
    SetAttributes.mk ((attributes.mode.map StorageFilePermission.of).map StorageFilePermission.into)
      attributes.uid attributes.gid attributes.size
      ((attributes.atime.map (TimeOrNow.of wire)).map (TimeOrNow.into wire))
      ((attributes.mtime.map (TimeOrNow.of wire)).map (TimeOrNow.into wire))
      ((attributes.ctime.map wire.ofSystemTime).map wire.grpcTimeToSystemTime)
      ((attributes.crtime.map wire.ofSystemTime).map wire.grpcTimeToSystemTime)
      ((attributes.chgtime.map wire.ofSystemTime).map wire.grpcTimeToSystemTime)
      ((attributes.bkuptime.map wire.ofSystemTime).map wire.grpcTimeToSystemTime)
      attributes.flags = attributes := by
  have times : ∀ time : Option SystemTime,
      (time.map wire.ofSystemTime).map wire.grpcTimeToSystemTime = time :=
    map_unwrapped (grpcTimeToSystemTime_of lawful)
  have timesOrNow : ∀ time : Option TiFs.TimeOrNow,
      (time.map (TimeOrNow.of wire)).map (TimeOrNow.into wire) = time :=
    map_unwrapped (TimeOrNow.into_of lawful)
  rw [map_unwrapped StorageFilePermission.into_of, timesOrNow, timesOrNow, times, times, times, times]

theorem hashes_arrive (hashes : Finset TiFsHash) :
    (((wire.iterSet hashes).map Hash.mk).map Hash.data).toFinset = hashes := by
  ext hash
  rw [List.mem_toFinset, List.map_map, ← lawful.mem_iterSet hashes hash]
  exact Iff.of_eq (congrArg (hash ∈ ·) (List.map_id _))

theorem client_forwarded {asked : HashFsCall V} (reaches : asked.guarded = none) (state : S) :
    (client wire (server wire fs)).answer asked state =
      (received asked (fs.answer asked.forwarded state).1,
        (fs.answer asked.forwarded state).2) := by
  cases asked with
  | init gid uid =>
      exact call_serve rfl rfl (receiveValue_valueRs StorageDirItem.into_of) state
  | metaStaticRead => exact call_serve rfl rfl (receiveValue_valueRs fun _ => rfl) state
  | directoryReadChildren dirIno =>
      exact call_serve rfl rfl (receiveChildren_directoryReadChildrenRs dirIno) state
  | directoryAddChildCheckedNewInode parent name typ perm gid uid rdev inlineData =>
      match inlineData with
      | none => exact client_newInode fs parent name typ perm gid uid rdev rfl state
      | some [] => exact client_newInode fs parent name typ perm gid uid rdev rfl state
      | some (_ :: _) => exact client_newInode fs parent name typ perm gid uid rdev rfl state
  | directoryAddChildCheckedExistingInode parent name ino =>
      exact call_serve rfl rfl receiveUnit_errorRs state
  | directoryRemoveChildFile parent name => exact call_serve rfl rfl receiveUnit_errorRs state
  | directoryRemoveChildDirectory parent name => exact call_serve rfl rfl receiveUnit_errorRs state
  | directoryRenameChild parent childName newParent newChildName =>
      exact call_serve rfl rfl receiveUnit_errorRs state
  | directoryChildGetAllAttributes parent name =>
      exact call_serve rfl rfl (receiveAllAttributes_valueRs lawful) state
  | directoryAddNewSymlink gid uid parent name link =>
      exact call_serve rfl rfl (receiveValue_valueRs StorageDirItem.into_of) state
  | inodeGetAllAttributes ino =>
      exact call_serve rfl rfl (receiveAllAttributes_valueRs lawful) state
  | inodeSetAllAttributes ino attributes =>
      refine call_serve rfl ?_ receiveUnit_errorRs state
      exact congrArg (fs.inodeSetAllAttributes ino) (setAttributes_arrive lawful attributes)
  | inodeOpen ino => exact call_serve rfl rfl (receiveValue_valueRs (Uuid.into_of lawful)) state
  | inodeClose ino useId =>
      refine call_serve rfl ?_ receiveUnit_errorRs state
      exact congrArg (fs.inodeClose ino) (Uuid.into_of lawful useId)
  | inodeAllocateSize ino offset length => exact call_serve rfl rfl receiveUnit_errorRs state
  | inodeReadInlineData ino => exact call_serve rfl rfl receiveData_dataRs state
  | inodeReadBlockHashesDataRange ino start readSize =>
      exact call_serve rfl rfl (receiveBlockHashes_blockHashesRs lawful) state
  | inodeReadBlockHashesBlockRange ino blockRanges =>
      cases blockRanges with
      | nil => exact absurd reaches (Option.some_ne_none _)
      | cons first rest =>
          refine call_serve rfl ?_ (receiveBlockHashes_blockHashesRs lawful) state
          exact congrArg (fs.inodeReadBlockHashesBlockRange ino)
            ((List.map_map ..).trans (List.map_id (first :: rest)))
  | hbGetBlockDataByHashes hashes =>
      refine call_serve rfl ?_ (receiveBlockData_hbGetBlockDataByHashesRs lawful) state
      exact congrArg fs.hbGetBlockDataByHashes (hashes_arrive lawful hashes)
  | fileGetHash ino => exact call_serve rfl rfl (receiveValue_valueRs fun _ => rfl) state
  | fileReadBlockHashes ino blockRange => exact call_serve rfl rfl receiveData_dataRs state
  | hbIncrementReferenceCount blocks =>
      cases blocks with
      | nil => exact absurd reaches (Option.some_ne_none _)
      | cons first rest =>
          refine call_serve rfl ?_ (receivePreviousCounts_hbIncrementReferenceCountRs lawful) state
          exact congrArg fs.hbIncrementReferenceCount (increments_arrive (first :: rest))
  | hbUploadNewBlock blocks =>
      cases blocks with
      | nil => exact absurd reaches (Option.some_ne_none _)
      | cons first rest =>
          refine call_serve rfl ?_ receiveUnit_errorRs state
          exact congrArg fs.hbUploadNewBlock (blocks_arrive (first :: rest))
  | inodeWriteHashBlockToAddressesUpdateInoSizeAndCleaningPreviousBlockHashes ino blocks =>
      cases blocks with
      | nil => exact absurd reaches (Option.some_ne_none _)
      | cons first rest =>
          refine call_serve rfl ?_ receiveUnit_errorRs state
          exact congrArg
            (fs.inodeWriteHashBlockToAddressesUpdateInoSizeAndCleaningPreviousBlockHashes ino)
            (addresses_arrive (first :: rest))
  | snapshotCreate name => exact call_serve rfl rfl receiveGotOrMade_gotOrMadeRs state

omit lawful in
theorem client_guarded {asked : HashFsCall V} {answer : HashFsResult V}
    (guarded : asked.guarded = some answer) (state : S) :
    (client wire (server wire fs)).answer asked state = (answer, state) := by
  cases asked with
  | inodeReadBlockHashesBlockRange ino blockRanges =>
      cases blockRanges with
      | nil =>
          obtain rfl := Option.some.inj guarded
          rfl
      | cons first rest => exact absurd guarded.symm (Option.some_ne_none answer)
  | hbIncrementReferenceCount blocks =>
      cases blocks with
      | nil =>
          obtain rfl := Option.some.inj guarded
          rfl
      | cons first rest => exact absurd guarded.symm (Option.some_ne_none answer)
  | hbUploadNewBlock blocks =>
      cases blocks with
      | nil =>
          obtain rfl := Option.some.inj guarded
          rfl
      | cons first rest => exact absurd guarded.symm (Option.some_ne_none answer)
  | inodeWriteHashBlockToAddressesUpdateInoSizeAndCleaningPreviousBlockHashes ino blocks =>
      cases blocks with
      | nil =>
          obtain rfl := Option.some.inj guarded
          rfl
      | cons first rest => exact absurd guarded.symm (Option.some_ne_none answer)
  | _ => exact absurd guarded.symm (Option.some_ne_none answer)

omit lawful in
theorem sameOutcome_received {asked : HashFsCall V} {state : S} (reported : asked.Reported fs state) :
    SameOutcome (received asked (fs.answer asked.forwarded state).1)
      (fs.answer asked.forwarded state).1 := by
  cases asked with
  | directoryReadChildren dirIno =>
      obtain ⟨items, found⟩ := reported
      change SameOutcome (received _ (fs.directoryReadChildren dirIno state).1)
        (fs.directoryReadChildren dirIno state).1
      rw [found]
      rfl
  | _ => exact sameOutcome_relayed _

/-- The client answers as the backend does and leaves it in the same state, except
that both ends settle some empty lists themselves, and that empty inline data arrives
as none. -/
theorem client_answers_as_backend (asked : HashFsCall V) (state : S) :
    (∀ answer, asked.guarded = some answer →
      (client wire (server wire fs)).answer asked state = (answer, state)) ∧
    (asked.guarded = none → asked.Reported fs state →
      SameOutcome ((client wire (server wire fs)).answer asked state).1
        (fs.answer asked.forwarded state).1 ∧
      ((client wire (server wire fs)).answer asked state).2 =
        (fs.answer asked.forwarded state).2) := by
  constructor
  · intro answer guarded
    exact client_guarded fs guarded state
  · intro reaches reported
    rw [client_forwarded lawful fs reaches state]
    exact ⟨sameOutcome_received fs reported, rfl⟩

end Calls

section Hyphenated

def hexValue (digit : UInt8) : Nat := if digit.toNat < 58 then digit.toNat - 48 else digit.toNat - 87

theorem hexValue_hexDigit {n : Nat} (small : n < 16) : hexValue (hexDigit n) = n := by
  have digits : ∀ n < 16, hexValue (hexDigit n) = n := by decide
  exact digits n small

theorem hexDigit_ne_hyphen {n : Nat} (small : n < 16) : hexDigit n ≠ 45 := by
  have digits : ∀ n < 16, hexDigit n ≠ 45 := by decide
  exact digits n small

def readHex (digits : List UInt8) : Nat := digits.foldl (fun value digit => value * 16 + hexValue digit) 0

theorem readHex_digits (width value : Nat) :
    readHex ((List.range width).map fun i => hexDigit (value / 16 ^ (width - 1 - i) % 16)) =
      value % 16 ^ width := by
  induction width generalizing value with
  | zero => exact (Nat.mod_one value).symm
  | succ width ih =>
      have upper : ((List.range width).map fun i => hexDigit (value / 16 ^ (width + 1 - 1 - i) % 16)) =
          (List.range width).map fun i => hexDigit (value / 16 / 16 ^ (width - 1 - i) % 16) := by
        apply List.map_congr_left
        intro i member
        have below := List.mem_range.mp member
        rw [Nat.div_div_eq_div_mul, ← Nat.pow_succ', show (width - 1 - i).succ = width + 1 - 1 - i by omega]
      have lowest : value / 16 ^ (width + 1 - 1 - width) % 16 = value % 16 := by
        rw [Nat.add_sub_cancel, Nat.sub_self, Nat.pow_zero, Nat.div_one]
      rw [List.range_succ, List.map_append, upper, List.map_singleton, lowest, readHex,
        List.foldl_append, List.foldl_cons, List.foldl_nil,
        hexValue_hexDigit (Nat.mod_lt value (by decide))]
      have high := ih (value / 16)
      rw [readHex] at high
      rw [high, Nat.pow_succ', Nat.mod_mul]
      omega

def parseHyphenated (text : ByteString) : Option TiFs.Uuid :=
  let id := BitVec.ofNat 128 (readHex (text.filter (· ≠ 45)))
  if uuidToString id = text then some id else none

theorem parseHyphenated_uuidToString (id : TiFs.Uuid) :
    parseHyphenated (uuidToString id) = some id := by
  have digits : (uuidToString id).filter (· ≠ 45) =
      (List.range 32).map fun i => hexDigit (id.toNat / 16 ^ (32 - 1 - i) % 16) := by
    rw [uuidToString, List.filter_flatMap, List.map_eq_flatMap]
    apply List.flatMap_congr
    intro i _
    have digit := hexDigit_ne_hyphen (Nat.mod_lt (id.toNat / 16 ^ (31 - i)) (y := 16) (by decide))
    by_cases hyphen : i ∈ [8, 12, 16, 20]
    · simp [hyphen, digit]
    · simp [hyphen, digit]
  have read : BitVec.ofNat 128 (readHex ((uuidToString id).filter (· ≠ 45))) = id := by
    rw [digits, readHex_digits]
    apply BitVec.eq_of_toNat_eq
    rw [BitVec.toNat_ofNat, show (16 : Nat) ^ 32 = 2 ^ 128 by decide, Nat.mod_mod,
      Nat.mod_eq_of_lt id.isLt]
  rw [parseHyphenated]
  simp only [read, if_true]

noncomputable def hyphenated : Wire where
  Timestamp := SystemTime
  ofSystemTime := id
  tryIntoSystemTime := some
  parseStr := parseHyphenated
  iterSet := Finset.toList
  iter map := map.entries.toList.map fun entry => (entry.1, entry.2)

theorem hyphenated_lawful : hyphenated.Lawful where
  lossless _ := rfl
  parse_str := parseHyphenated_uuidToString
  mem_iterSet _ _ := Finset.mem_toList
  iter_lists map := by
    constructor
    · have keys := map.nodupKeys
      rw [← Multiset.coe_toList map.entries, Multiset.coe_nodupKeys] at keys
      rw [hyphenated, List.map_map]
      exact keys
    · intro key value
      rw [Finmap.lookup_eq_some_iff, ← Multiset.mem_toList, hyphenated, List.mem_map]
      constructor
      · rintro ⟨entry, member, same⟩
        rw [Prod.mk.injEq] at same
        rw [← same.1, ← same.2]
        exact member
      · intro member
        exact ⟨⟨key, value⟩, member, rfl⟩

/-- A backend that finds nothing, but adds a symlink where it is given inline data. -/
def emptyHanded : HashFsInterface Unit where
  init _ _ := pure (.error .fileNotFound)
  metaStaticRead := pure (.error .fileNotFound)
  directoryReadChildren _ := pure (.error .fileNotFound)
  directoryAddChildCheckedNewInode _ _ _ _ _ _ _ inlineData :=
    match inlineData with
    | some _ => pure (.ok (.newlyCreated ⟨10, .symlink⟩))
    | none => pure (.error .fileNotFound)
  directoryAddChildCheckedExistingInode _ _ _ := pure (.error .fileNotFound)
  directoryRemoveChildFile _ _ := pure (.error .fileNotFound)
  directoryRemoveChildDirectory _ _ := pure (.error .fileNotFound)
  directoryRenameChild _ _ _ _ := pure (.error .fileNotFound)
  directoryChildGetAllAttributes _ _ := pure (.error .fileNotFound)
  directoryAddNewSymlink _ _ _ _ _ := pure (.error .fileNotFound)
  inodeGetAllAttributes _ := pure (.error .fileNotFound)
  inodeSetAllAttributes _ _ := pure (.error .fileNotFound)
  inodeOpen _ := pure (.error .fileNotFound)
  inodeClose _ _ := pure (.error .fileNotFound)
  inodeAllocateSize _ _ _ := pure (.error .fileNotFound)
  inodeReadInlineData _ := pure (.error .fileNotFound)
  inodeReadBlockHashesDataRange _ _ _ := pure (.error .fileNotFound)
  inodeReadBlockHashesBlockRange _ _ := pure (.error .fileNotFound)
  hbGetBlockDataByHashes _ := pure (.error .fileNotFound)
  fileGetHash _ := pure (.error .fileNotFound)
  fileReadBlockHashes _ _ := pure (.error .fileNotFound)
  hbIncrementReferenceCount _ := pure (.error .fileNotFound)
  hbUploadNewBlock _ := pure (.error .fileNotFound)
  inodeWriteHashBlockToAddressesUpdateInoSizeAndCleaningPreviousBlockHashes _ _ :=
    pure (.error .fileNotFound)
  snapshotCreate _ := pure (.error .fileNotFound)

theorem client_answers_as_backend_symlink :
    (client hyphenated (server hyphenated emptyHanded)).answer
        (.directoryAddChildCheckedNewInode 1 [97] .symlink 0o777 0 0 0 (some [98])) () =
        (.ok (.newlyCreated ⟨10, .symlink⟩), ()) ∧
      SameOutcome
        ((client hyphenated (server hyphenated emptyHanded)).answer
          (.directoryAddChildCheckedNewInode 1 [97] .symlink 0o777 0 0 0 (some [98])) ()).1
        (emptyHanded.answer
          (.directoryAddChildCheckedNewInode 1 [97] .symlink 0o777 0 0 0 (some [98])) ()).1 := by
  refine ⟨rfl, ?_⟩
  exact ((client_answers_as_backend hyphenated_lawful emptyHanded
    (.directoryAddChildCheckedNewInode 1 [97] .symlink 0o777 0 0 0 (some [98])) ()).2 rfl trivial).1

/-- Where the client differs from the backend: lists of nothing, empty inline data,
and the children of a directory that is not found. -/
theorem client_differs_from_backend :
    ¬ SameOutcome
        ((client hyphenated (server hyphenated emptyHanded)).answer (.hbUploadNewBlock []) ()).1
        (emptyHanded.answer (.hbUploadNewBlock []) ()).1 ∧
      ¬ SameOutcome
        ((client hyphenated (server hyphenated emptyHanded)).answer
          (.inodeReadBlockHashesBlockRange 10 []) ()).1
        (emptyHanded.answer (.inodeReadBlockHashesBlockRange 10 []) ()).1 ∧
      ¬ SameOutcome
        ((client hyphenated (server hyphenated emptyHanded)).answer
          (.directoryAddChildCheckedNewInode 1 [97] .symlink 0o777 0 0 0 (some [])) ()).1
        (emptyHanded.answer
          (.directoryAddChildCheckedNewInode 1 [97] .symlink 0o777 0 0 0 (some [])) ()).1 ∧
      ¬ SameOutcome
        ((client hyphenated (server hyphenated emptyHanded)).answer (.directoryReadChildren 10) ()).1
        (emptyHanded.answer (.directoryReadChildren 10) ()).1 :=
  ⟨id, id, id, id⟩

end Hyphenated

end Grpc

end TiFs
