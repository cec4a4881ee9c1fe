import TiFs.Library.Table
import TiFs.Store

namespace TiFs

open KeyValue Tables

abbrev RefCounts := Table TiFsHash Nat
abbrev BlockHashes := Table BlockIndex TiFsHash
abbrev BlocksData := Table TiFsHash Bytes

/-- `KeyParser::parse_hash` on the bytes that follow the key kind. -/
def parseHash (hashLen : Nat) (bytes : Bytes) : Option TiFsHash :=
  if (bytes.take hashLen).length = hashLen then some (bytes.take hashLen) else none

def countedNamedUsagesId : UInt8 := 2

def prevCounterValues (cfg : TiFsConfig) (store : Store) (hashes : List TiFsHash) : RefCounts :=
  collect (hashes.filterMap fun h =>
    match store.lookup (.countedNamedUsages h), parseHash cfg.hashLen (h ++ [countedNamedUsagesId]) with
    | some cnt, some hash => some (hash, cnt)
    | _, _ => none)

def hbIncrementBlocksReferenceCount (cfg : TiFsConfig) (blocks : List (TiFsHash × Nat)) :
    Mini RefCounts := do
  let txn ← get
  let prev := prevCounterValues cfg txn.view (blocks.map Prod.fst)
  batchMutate (blocks.map fun block =>
    Mutation.put (.countedNamedUsages block.1) (block.2 + (prev.lookup block.1).getD 0))
  return prev

def addressWrite (address : BlockAddress × Option TiFsHash) : Write :=
  match address.2 with
  | some hash => Mutation.put (.blockHash address.1) hash
  | none => Mutation.delete (.blockHash address.1)

def prevHashes (store : Store) (addresses : List (BlockAddress × Option TiFsHash)) : List TiFsHash :=
  addresses.filterMap fun address => mapping store address.1

def hbReplaceBlockHashForAddressNoSizeUpdate (cfg : TiFsConfig)
    (addresses : List (BlockAddress × Option TiFsHash)) : Mini RefCounts :=
  if addresses.length = 0 then return ∅
  else do
    let txn ← get
    let prevBlockHash := prevHashes txn.view addresses
    batchMutate (addresses.map addressWrite)
    if ∃ hash ∈ prevBlockHash, hash.length ≠ cfg.hashLen then
      throw (.serialize "hash" "BIN" "hash length mismatch.")
    else return tally prevBlockHash

/-- `InoSize::block_write_size_update`, with the new record when it changed. -/
def InoSize.blockWriteSizeUpdate (current : InoSize) (addr : BlockAddress)
    (fsBlockSize newBlocksActualSize : Nat) (now : SystemTime) : Option InoSize :=
  let targetSize := addr.index * fsBlockSize + newBlocksActualSize
  if targetSize ≤ current.size then none
  else some { current.setSize targetSize fsBlockSize now with lastChange := now }

def hbReplaceBlockHashForAddressOnlySizeUpdate (cfg : TiFsConfig) (now : SystemTime)
    (addr : BlockAddress) (newBlocksActualSize : Nat) : Mini Unit := do
  let inoSize ← fetch (.inodeX addr.ino .size)
  match InoSize.blockWriteSizeUpdate inoSize addr cfg.blockSize newBlocksActualSize now with
  | some changed => put (.inodeX addr.ino .size) changed
  | none => pure ()

def hbReplaceBlockHashForAddressOnlySizeUpdateB (cfg : TiFsConfig) (now : SystemTime)
    (ino : StorageIno) (newTargetSize : Nat) : Mini Unit := do
  let inoSize ← fetch (.inodeX ino .size)
  if newTargetSize > InoSize.size inoSize then
    put (.inodeX ino .size) (InoSize.setSize inoSize newTargetSize cfg.blockSize now)

/-- The counter never goes below zero; at zero it is deleted with its block. -/
def decrementWrites (prev : RefCounts) (h : TiFsHash) (dec : Nat) : List Write :=
  let prevCounterValue := (prev.lookup h).getD 0
  let actualDec := if prevCounterValue < dec then prevCounterValue else dec
  let newCounterValue := prevCounterValue - actualDec
  if newCounterValue = 0 then
    [Mutation.delete (.countedNamedUsages h), Mutation.delete (.hashedBlock h)]
  else
    [Mutation.put (.countedNamedUsages h) newCounterValue]

def hbDecrementBlocksReferenceCountAndDeleteIfZeroReached (cfg : TiFsConfig)
    (decrements : RefCounts) : Mini Unit := do
  let txn ← get
  let prev := prevCounterValues cfg txn.view decrements.keys
  batchMutate (decrements.entries.flatMap fun entry => decrementWrites prev entry.1 entry.2)

/-- The mappings of a half open range of blocks; one of a wrong length is skipped. -/
def hbGetBlockHashListByBlockRange (cfg : TiFsConfig) (ino : StorageIno)
    (blockRange : BlockIndex × BlockIndex) : Mini BlockHashes :=
  fun txn => .ok (collect ((List.range' blockRange.1 (blockRange.2 - blockRange.1)).filterMap
    fun index => ((mapping txn.view ⟨ino, index⟩).filter fun hash => hash.length = cfg.hashLen).map
      fun hash => (index, hash)), txn)

/-- The loop over chunks of at most `maxTikvScanLimit` blocks. -/
def chunkedLoop (cfg : TiFsConfig) (ino : StorageIno) (rangeEnd : BlockIndex) :
    Nat → BlockIndex → BlockHashes → Mini BlockHashes
  | 0, _, result => return result
  | fuel + 1, i, result =>
      if i < rangeEnd then do
        let chunkEnd := min (i + maxTikvScanLimit) rangeEnd
        let chunk ← hbGetBlockHashListByBlockRange cfg ino (i, chunkEnd)
        chunkedLoop cfg ino rangeEnd fuel chunkEnd
          (extend result (chunk.entries.map fun entry => (entry.1, entry.2)))
      else return result

def hbGetBlockHashListByBlockRangeChunked (cfg : TiFsConfig) (ino : StorageIno)
    (blockRange : BlockIndex × BlockIndex) : Mini BlockHashes :=
  chunkedLoop cfg ino blockRange.2 (blockRange.2 - blockRange.1) blockRange.1 ∅

def hbUploadNewBlock (blocks : List (TiFsHash × Bytes)) : Mini Unit :=
  batchMutate (blocks.map fun block => Mutation.put (.hashedBlock block.1) block.2)

theorem parseHash_append {hashLen : Nat} {hash : TiFsHash} (length : hash.length = hashLen)
    (suffix : Bytes) : parseHash hashLen (hash ++ suffix) = some hash := by
  subst length
  simp [parseHash]

/-- Hashes without a counter may have any length. -/
theorem lookup_prevCounterValues_stored {cfg : TiFsConfig} {store : Store} {hashes : List TiFsHash}
    (lengths : ∀ hash ∈ hashes, store.lookup (.countedNamedUsages hash) ≠ none → hash.length = cfg.hashLen)
    {hash : TiFsHash} (listed : hash ∈ hashes) :
    (prevCounterValues cfg store hashes).lookup hash = store.lookup (.countedNamedUsages hash) := by
  have graph : (hashes.filterMap fun h =>
      match store.lookup (.countedNamedUsages h),
        parseHash cfg.hashLen (h ++ [countedNamedUsagesId]) with
      | some cnt, some hash => some (hash, cnt)
      | _, _ => none) =
      hashes.filterMap fun h => (store.lookup (.countedNamedUsages h)).map fun cnt => (h, cnt) := by
    refine List.filterMap_congr fun h member => ?_
    cases stored : store.lookup (.countedNamedUsages h) with
    | none => rfl
    | some cnt =>
        rw [parseHash_append (lengths h member (by rw [stored]; exact Option.some_ne_none cnt))]
        rfl
  rw [prevCounterValues, graph, lookup_collect_graph, if_pos listed]

theorem lookup_prevCounterValues {cfg : TiFsConfig} {store : Store} {hashes : List TiFsHash}
    (lengths : ∀ hash ∈ hashes, hash.length = cfg.hashLen) {hash : TiFsHash}
    (listed : hash ∈ hashes) :
    ((prevCounterValues cfg store hashes).lookup hash).getD 0 = counter store hash := by
  rw [lookup_prevCounterValues_stored (fun hash member _ => lengths hash member) listed, counter]

def amount (blocks : List (TiFsHash × Nat)) (hash : TiFsHash) : Nat :=
  ((blocks.filter fun block => block.1 = hash).map Prod.snd).sum

theorem amount_eq_zero {blocks : List (TiFsHash × Nat)} {hash : TiFsHash}
    (absent : hash ∉ blocks.map Prod.fst) : amount blocks hash = 0 := by
  have none : blocks.filter (fun block => block.1 = hash) = [] := by
    rw [List.filter_eq_nil_iff]
    intro block member same
    exact absent (List.mem_map.mpr ⟨block, member, by simpa using same⟩)
  rw [amount, none]
  rfl

theorem amount_of_mem {blocks : List (TiFsHash × Nat)} (distinct : (blocks.map Prod.fst).Nodup)
    {block : TiFsHash × Nat} (member : block ∈ blocks) : amount blocks block.1 = block.2 := by
  induction blocks with
  | nil => cases member
  | cons head tail ih =>
      obtain ⟨fresh, rest⟩ := List.nodup_cons.mp distinct
      rcases List.mem_cons.mp member with rfl | later
      · have others := amount_eq_zero fresh
        simp only [amount] at others ⊢
        rw [List.filter_cons_of_pos (by simp), List.map_cons, List.sum_cons, others, Nat.add_zero]
      · have different : head.1 ≠ block.1 := by
          intro same
          exact fresh (List.mem_map.mpr ⟨block, later, same.symm⟩)
        have tailAmount := ih rest later
        simp only [amount] at tailAmount ⊢
        rw [List.filter_cons_of_neg (by simpa using different)]
        exact tailAmount

structure Incremented (blocks : List (TiFsHash × Nat)) (store after : Store) (prev : RefCounts) :
    Prop where
  counted : ∀ hash, counter after hash = counter store hash + amount blocks hash
  previous : ∀ hash ∈ blocks.map Prod.fst, (prev.lookup hash).getD 0 = counter store hash
  frame : ∀ key : Key, (∀ hash, key ≠ .countedNamedUsages hash) →
    after.lookup key = store.lookup key

theorem increment_spec (cfg : TiFsConfig) (store : Store) (blocks : List (TiFsHash × Nat))
    (lengths : ∀ hash ∈ blocks.map Prod.fst, hash.length = cfg.hashLen)
    (distinct : (blocks.map Prod.fst).Nodup) :
    ∃ prev after, atomically (hbIncrementBlocksReferenceCount cfg blocks) store = .ok (prev, after) ∧
      Incremented blocks store after prev := by
  let prev := prevCounterValues cfg store (blocks.map Prod.fst)
  let writes : List Write := blocks.map fun block =>
    Mutation.put (.countedNamedUsages block.1) (block.2 + (prev.lookup block.1).getD 0)
  have previous : ∀ hash ∈ blocks.map Prod.fst, (prev.lookup hash).getD 0 = counter store hash :=
    fun hash listed => lookup_prevCounterValues lengths listed
  have keys : writes.map Mutation.key = (blocks.map Prod.fst).map Key.countedNamedUsages := by
    simp only [writes, List.map_map]
    rfl
  have keysDistinct : (writes.map Mutation.key).Nodup := by
    rw [keys]
    exact distinct.map fun _ _ same => Key.countedNamedUsages.inj same
  refine ⟨prev, applyAll store writes, rfl, ?_, previous, ?_⟩
  · intro hash
    by_cases listed : hash ∈ blocks.map Prod.fst
    · obtain ⟨block, member, rfl⟩ := List.mem_map.mp listed
      have written : (applyAll store writes).lookup (.countedNamedUsages block.1) =
          some (block.2 + (prev.lookup block.1).getD 0) :=
        lookup_applyAll_put keysDistinct (List.mem_map.mpr ⟨block, member, rfl⟩)
      rw [counter, written, amount_of_mem distinct member, ← previous block.1 listed]
      exact Nat.add_comm _ _
    · rw [amount_eq_zero listed, Nat.add_zero, counter, counter, lookup_applyAll_of_notMem]
      rw [keys]
      intro named
      obtain ⟨other, member, same⟩ := List.mem_map.mp named
      exact listed (Key.countedNamedUsages.inj same ▸ member)
  · intro key different
    refine lookup_applyAll_of_notMem store writes key ?_
    rw [keys]
    intro named
    obtain ⟨hash, _, same⟩ := List.mem_map.mp named
    exact different hash same.symm

structure Replaced (addresses : List (BlockAddress × Option TiFsHash)) (store after : Store)
    (decrements : RefCounts) : Prop where
  placed : ∀ address ∈ addresses, mapping after address.1 = address.2
  kept : ∀ addr, addr ∉ addresses.map Prod.fst → mapping after addr = mapping store addr
  tallied : decrements = tally (prevHashes store addresses)
  frame : ∀ key : Key, (∀ addr, key ≠ .blockHash addr) → after.lookup key = store.lookup key

theorem replaced_applyAll (store : Store) (addresses : List (BlockAddress × Option TiFsHash))
    (distinct : (addresses.map Prod.fst).Nodup) :
    Replaced addresses store (applyAll store (addresses.map addressWrite))
      (tally (prevHashes store addresses)) := by
  have keyOf : ∀ address : BlockAddress × Option TiFsHash,
      (addressWrite address).key = .blockHash address.1 := by
    rintro ⟨addr, _ | hash⟩ <;> rfl
  have keys : (addresses.map addressWrite).map Mutation.key =
      (addresses.map Prod.fst).map Key.blockHash := by
    simp only [List.map_map]
    exact List.map_congr_left fun address _ => keyOf address
  have keysDistinct : ((addresses.map addressWrite).map Mutation.key).Nodup := by
    rw [keys]
    exact distinct.map fun _ _ same => Key.blockHash.inj same
  constructor
  · rintro ⟨addr, _ | hash⟩ member
    · exact lookup_applyAll_delete keysDistinct (List.mem_map.mpr ⟨_, member, rfl⟩)
    · exact lookup_applyAll_put keysDistinct (List.mem_map.mpr ⟨_, member, rfl⟩)
  · intro addr absent
    refine lookup_applyAll_of_notMem store _ (Key.blockHash addr) ?_
    rw [keys]
    intro named
    obtain ⟨other, member, same⟩ := List.mem_map.mp named
    exact absent (Key.blockHash.inj same ▸ member)
  · rfl
  · intro key different
    refine lookup_applyAll_of_notMem store _ key ?_
    rw [keys]
    intro named
    obtain ⟨addr, _, same⟩ := List.mem_map.mp named
    exact different addr same.symm

/-- The replacement succeeds exactly if every previous mapping has the length of
a hash. -/
theorem replace_run (cfg : TiFsConfig) (store : Store)
    (addresses : List (BlockAddress × Option TiFsHash)) :
    atomically (hbReplaceBlockHashForAddressNoSizeUpdate cfg addresses) store =
      if ∀ hash ∈ prevHashes store addresses, hash.length = cfg.hashLen then
        .ok (tally (prevHashes store addresses), applyAll store (addresses.map addressWrite))
      else .error (.serialize "hash" "BIN" "hash length mismatch.") := by
  cases addresses with
  | nil => rfl
  | cons head tail =>
      have ran : hbReplaceBlockHashForAddressNoSizeUpdate cfg (head :: tail) ⟨store, []⟩ =
          (if ∃ hash ∈ prevHashes store (head :: tail), hash.length ≠ cfg.hashLen then
            (throw (.serialize "hash" "BIN" "hash length mismatch.") : Mini RefCounts)
          else return tally (prevHashes store (head :: tail)))
            ⟨store, (head :: tail).map addressWrite⟩ := rfl
      by_cases lengths : ∀ hash ∈ prevHashes store (head :: tail), hash.length = cfg.hashLen
      · have accepted : ¬ ∃ hash ∈ prevHashes store (head :: tail), hash.length ≠ cfg.hashLen := by
          push Not
          exact lengths
        rw [if_neg accepted] at ran
        rw [if_pos lengths, atomically_eq_ok ran]
        rfl
      · have refused : ∃ hash ∈ prevHashes store (head :: tail), hash.length ≠ cfg.hashLen := by
          push Not at lengths
          exact lengths
        rw [if_pos refused] at ran
        rw [if_neg lengths, atomically, ran]
        rfl

structure Decremented (decrements : RefCounts) (store after : Store) : Prop where
  counted : ∀ hash, counter after hash = counter store hash - (decrements.lookup hash).getD 0
  kept : ∀ hash, hash ∉ decrements ∨ (decrements.lookup hash).getD 0 < counter store hash →
    blockData after hash = blockData store hash
  old : ∀ hash data, blockData after hash = some data → blockData store hash = some data
  gone : ∀ hash ∈ decrements, counter store hash ≤ (decrements.lookup hash).getD 0 → blockData after hash = none
  frame : ∀ key : Key, (∀ hash, key ≠ .countedNamedUsages hash) → (∀ hash, key ≠ .hashedBlock hash) →
    after.lookup key = store.lookup key

theorem decrementWrites_last {prev : RefCounts} {h : TiFsHash} {dec : Nat}
    (last : (prev.lookup h).getD 0 ≤ dec) :
    decrementWrites prev h dec = [Mutation.delete (.countedNamedUsages h), Mutation.delete (.hashedBlock h)] := by
  have zero : (prev.lookup h).getD 0 -
      (if (prev.lookup h).getD 0 < dec then (prev.lookup h).getD 0 else dec) = 0 := by
    split <;> omega
  simp only [decrementWrites, zero, if_true]

theorem decrementWrites_more {prev : RefCounts} {h : TiFsHash} {dec : Nat}
    (more : dec < (prev.lookup h).getD 0) :
    decrementWrites prev h dec = [Mutation.put (.countedNamedUsages h) ((prev.lookup h).getD 0 - dec)] := by
  have all : (if (prev.lookup h).getD 0 < dec then (prev.lookup h).getD 0 else dec) = dec := if_neg (by omega)
  simp only [decrementWrites, all]
  exact if_neg (by omega)

theorem decrementWrites_keys (prev : RefCounts) (h : TiFsHash) (dec : Nat) :
    (decrementWrites prev h dec).map Mutation.key =
        [.countedNamedUsages h, .hashedBlock h] ∨
      (decrementWrites prev h dec).map Mutation.key = [.countedNamedUsages h] := by
  rcases Nat.lt_or_ge dec ((prev.lookup h).getD 0) with more | last
  · rw [decrementWrites_more more]
    exact Or.inr rfl
  · rw [decrementWrites_last last]
    exact Or.inl rfl

theorem put_notMem_decrementWrites (prev : RefCounts) (h : TiFsHash) (dec : Nat) (hash : TiFsHash)
    (data : Bytes) : Mutation.put (.hashedBlock hash) data ∉ decrementWrites prev h dec := by
  rcases Nat.lt_or_ge dec ((prev.lookup h).getD 0) with more | last
  · rw [decrementWrites_more more]
    simp [Mutation.put]
  · rw [decrementWrites_last last]
    simp [Mutation.put, Mutation.delete]

theorem mem_decrementWrites_keys {prev : RefCounts} {h : TiFsHash} {dec : Nat} {key : Key}
    (named : key ∈ (decrementWrites prev h dec).map Mutation.key) :
    key = .countedNamedUsages h ∨ key = .hashedBlock h := by
  rcases decrementWrites_keys prev h dec with keys | keys <;> rw [keys] at named <;> simp_all

theorem decrementWrites_nodup (prev : RefCounts) (decrements : RefCounts) :
    ((decrements.entries.flatMap fun entry =>
      decrementWrites prev entry.1 entry.2).map Mutation.key).Nodup := by
  rw [List.map_flatMap, List.nodup_flatMap]
  constructor
  · intro entry _
    rcases decrementWrites_keys prev entry.1 entry.2 with keys | keys <;> rw [keys] <;> simp
  · refine (List.nodupKeys_iff_pairwise.mp decrements.nodupKeys).imp ?_
    intro first second different key inFirst inSecond
    rcases mem_decrementWrites_keys inFirst with rfl | rfl
    · rcases mem_decrementWrites_keys inSecond with same | same
      · exact different (Key.countedNamedUsages.inj same)
      · cases same
    · rcases mem_decrementWrites_keys inSecond with same | same
      · cases same
      · exact different (Key.hashedBlock.inj same)

theorem mem_writes_of_decrement (prev : RefCounts) {decrements : RefCounts} {hash : TiFsHash} {dec : Nat}
    (found : decrements.lookup hash = some dec) {write : Write} (listed : write ∈ decrementWrites prev hash dec) :
    write ∈ decrements.entries.flatMap fun entry => decrementWrites prev entry.1 entry.2 :=
  List.mem_flatMap.mpr ⟨⟨hash, dec⟩, AList.mem_lookup_iff.mp found, listed⟩

theorem lookup_unnamed (store : Store) (prev decrements : RefCounts) {key : Key}
    (different : ∀ hash ∈ decrements, key ≠ .countedNamedUsages hash ∧ key ≠ .hashedBlock hash) :
    (applyAll store (decrements.entries.flatMap fun entry => decrementWrites prev entry.1 entry.2)).lookup key =
      store.lookup key := by
  refine lookup_applyAll_of_notMem store _ key ?_
  rw [List.map_flatMap]
  intro named
  obtain ⟨entry, member, inWrites⟩ := List.mem_flatMap.mp named
  have listed : entry.1 ∈ decrements := List.mem_keys_of_mem member
  rcases mem_decrementWrites_keys inWrites with same | same
  · exact (different entry.1 listed).1 same
  · exact (different entry.1 listed).2 same

theorem block_notMem_writes {prev decrements : RefCounts} {hash : TiFsHash} {dec : Nat}
    (found : decrements.lookup hash = some dec) (more : dec < (prev.lookup hash).getD 0) :
    Key.hashedBlock hash ∉
      (decrements.entries.flatMap fun entry => decrementWrites prev entry.1 entry.2).map Mutation.key := by
  rw [List.map_flatMap]
  intro named
  obtain ⟨entry, member, inWrites⟩ := List.mem_flatMap.mp named
  rcases mem_decrementWrites_keys inWrites with same | same
  · cases same
  · obtain rfl := Key.hashedBlock.inj same
    have equal : entry.2 = dec := Option.some.inj ((AList.mem_lookup_iff.mpr member).symm.trans found)
    rw [equal, decrementWrites_more more] at inWrites
    simp at inWrites

theorem decrement_spec (cfg : TiFsConfig) (store : Store) (decrements : RefCounts)
    (lengths : ∀ hash ∈ decrements, hash.length = cfg.hashLen) :
    ∃ after, atomically (hbDecrementBlocksReferenceCountAndDeleteIfZeroReached cfg decrements) store =
        .ok ((), after) ∧ Decremented decrements store after := by
  let prev := prevCounterValues cfg store decrements.keys
  let writes : List Write := decrements.entries.flatMap fun entry => decrementWrites prev entry.1 entry.2
  have distinct : (writes.map Mutation.key).Nodup := decrementWrites_nodup prev decrements
  have previous : ∀ hash ∈ decrements, (prev.lookup hash).getD 0 = counter store hash :=
    fun hash listed => lookup_prevCounterValues (fun other member => lengths other member) listed
  refine ⟨applyAll store writes, rfl, ?_, ?_, ?_, ?_, ?_⟩
  · intro hash
    by_cases listed : hash ∈ decrements
    · obtain ⟨dec, found⟩ := Option.isSome_iff_exists.mp (AList.lookup_isSome.mpr listed)
      rw [found, Option.getD_some, ← previous hash listed]
      rcases Nat.lt_or_ge dec ((prev.lookup hash).getD 0) with more | last
      · have left : Mutation.put (.countedNamedUsages hash) ((prev.lookup hash).getD 0 - dec) ∈ writes :=
          mem_writes_of_decrement prev found (by rw [decrementWrites_more more]; exact List.mem_cons_self)
        rw [counter, lookup_applyAll_put distinct left]
        rfl
      · have gone : Mutation.delete (.countedNamedUsages hash) ∈ writes :=
          mem_writes_of_decrement prev found (by rw [decrementWrites_last last]; exact List.mem_cons_self)
        rw [counter, lookup_applyAll_delete distinct gone]
        simp only [Option.getD_none]
        omega
    · rw [AList.lookup_eq_none.mpr listed, counter, counter, lookup_unnamed]
      · rfl
      · intro other member
        refine ⟨?_, by simp⟩
        intro same
        exact listed (Key.countedNamedUsages.inj same ▸ member)
  · intro hash spared
    by_cases listed : hash ∈ decrements
    · have more := spared.resolve_left (not_not.mpr listed)
      obtain ⟨dec, found⟩ := Option.isSome_iff_exists.mp (AList.lookup_isSome.mpr listed)
      rw [found, Option.getD_some, ← previous hash listed] at more
      exact lookup_applyAll_of_notMem store writes (Key.hashedBlock hash) (block_notMem_writes found more)
    · apply lookup_unnamed
      intro other member
      refine ⟨by simp, ?_⟩
      intro same
      exact listed (Key.hashedBlock.inj same ▸ member)
  · intro hash data found
    rcases lookup_applyAll_eq_some found with stored | written
    · exact stored
    · obtain ⟨entry, _, inWrites⟩ := List.mem_flatMap.mp written
      exact absurd inWrites (put_notMem_decrementWrites prev entry.1 entry.2 hash data)
  · intro hash listed enough
    obtain ⟨dec, found⟩ := Option.isSome_iff_exists.mp (AList.lookup_isSome.mpr listed)
    rw [found, Option.getD_some, ← previous hash listed] at enough
    apply lookup_applyAll_delete distinct
    refine mem_writes_of_decrement prev found ?_
    rw [decrementWrites_last enough]
    exact List.mem_cons_of_mem _ List.mem_cons_self
  · intro key notCounted notBlock
    exact lookup_unnamed store prev decrements fun hash _ => ⟨notCounted hash, notBlock hash⟩

theorem upload_spec (store : Store) (blocks : List (TiFsHash × Bytes))
    (distinct : (blocks.map Prod.fst).Nodup) :
    ∃ after, atomically (hbUploadNewBlock blocks) store = .ok ((), after) ∧
      (∀ block ∈ blocks, blockData after block.1 = some block.2) ∧
      (∀ hash, hash ∉ blocks.map Prod.fst → blockData after hash = blockData store hash) ∧
      ∀ key : Key, (∀ hash, key ≠ .hashedBlock hash) → after.lookup key = store.lookup key := by
  let writes : List Write := blocks.map fun block => Mutation.put (.hashedBlock block.1) block.2
  have keys : writes.map Mutation.key = (blocks.map Prod.fst).map Key.hashedBlock := by
    simp only [writes, List.map_map]
    rfl
  have keysDistinct : (writes.map Mutation.key).Nodup := by
    rw [keys]
    exact distinct.map fun _ _ same => Key.hashedBlock.inj same
  refine ⟨applyAll store writes, rfl, ?_, ?_, ?_⟩
  · intro block member
    exact lookup_applyAll_put keysDistinct (List.mem_map.mpr ⟨block, member, rfl⟩)
  · intro hash absent
    refine lookup_applyAll_of_notMem store writes (Key.hashedBlock hash) ?_
    rw [keys]
    intro named
    obtain ⟨other, member, same⟩ := List.mem_map.mp named
    exact absent (Key.hashedBlock.inj same ▸ member)
  · intro key different
    refine lookup_applyAll_of_notMem store writes key ?_
    rw [keys]
    intro named
    obtain ⟨hash, _, same⟩ := List.mem_map.mp named
    exact different hash same.symm

end TiFs
