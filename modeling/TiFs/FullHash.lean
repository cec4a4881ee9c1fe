import TiFs.FileHash

/-! `file_get_hash` on a file that nobody else uses. The blocks that it takes the hashes of
are counted in bytes of hashes, and the hash that it keeps is read back in the form that it
is stored in. -/

namespace TiFs

open KeyValue

/-- A call that runs alone takes at most four transactions. -/
def fileGetHash (cfg : TiFsConfig) (ino : StorageIno) (store : Store) : HashPhase × Store :=
  (fun state : HashPhase × Store => state.1.step cfg ino state.2)^[4] (.readHash, store)

section Run

variable {cfg : TiFsConfig} {ino : StorageIno} {store : Store}

theorem returned_step (cfg : TiFsConfig) (ino : StorageIno) (result : Except HashFsError Bytes) (store : Store) :
    HashPhase.step cfg ino (.returned result) store = (.returned result, store) := by
  rw [HashPhase.step]

theorem fileGetHash_kept {hash : Bytes} (kept : store.lookup (.inodeX ino .fullHash) = some hash) :
    fileGetHash cfg ino store = (.returned (.ok hash), store) := by
  have first : HashPhase.step cfg ino .readHash store = (.returned (.ok hash), store) := by
    simp only [HashPhase.step, kept]
  simp only [fileGetHash, Function.iterate_succ_apply', Function.iterate_zero_apply, first, returned_step]

theorem fileGetHash_noSize (notKept : store.lookup (.inodeX ino .fullHash) = none)
    (noSize : inoSize store ino = none) :
    fileGetHash cfg ino store = (.returned (.error .fileNotFound), store) := by
  have isSize : store.lookup (.inodeX ino .size) = none := noSize
  have first : HashPhase.step cfg ino .readHash store = (.readMetadata, store) := by
    simp only [HashPhase.step, notKept]
  have second : HashPhase.step cfg ino .readMetadata store = (.returned (.error .fileNotFound), store) := by
    simp only [HashPhase.step, notKept, isSize]
  simp only [fileGetHash, Function.iterate_succ_apply', Function.iterate_zero_apply, first, second, returned_step]

/-- A hash is computed over as many blocks as the hashes of the file have bytes, and it is
returned if there is a change that it can be kept for. -/
theorem fileGetHash_computed {size : InoSize} (notKept : store.lookup (.inodeX ino .fullHash) = none)
    (stored : inoSize store ino = some size) :
    fileGetHash cfg ino store =
      match store.lookup (.inodeX ino .changeIterationId) with
      | some _ =>
          (.returned (.ok (cfg.calculateHash ((fileView ino store).hashesUpTo cfg
            (divCeil size.size cfg.blockSize * cfg.hashLen)))),
            applyAll store [Mutation.put (.inodeX ino .fullHash) (serializeFullHash
              (cfg.calculateHash ((fileView ino store).hashesUpTo cfg
                (divCeil size.size cfg.blockSize * cfg.hashLen))))])
      | none => (.returned (.error (.ofFsError (.keyNotFound (some (.inodeX ino .changeIterationId))))), store) := by
  have isSize : store.lookup (.inodeX ino .size) = some size := stored
  have first : HashPhase.step cfg ino .readHash store = (.readMetadata, store) := by
    simp only [HashPhase.step, notKept]
  have second : HashPhase.step cfg ino .readMetadata store =
      (.readHashes ((store.lookup (.inodeX ino .changeIterationId)).getD 0) size.size, store) := by
    simp only [HashPhase.step, notKept, isSize]
  have third : ∀ changeIterId, HashPhase.step cfg ino (.readHashes changeIterId size.size) store =
      (.writeHash changeIterId (cfg.calculateHash ((fileView ino store).hashesUpTo cfg
        (divCeil size.size cfg.blockSize * cfg.hashLen))), store) := by
    intro changeIterId
    have read := readHashesOfFile_upTo cfg ino (divCeil size.size cfg.blockSize * cfg.hashLen) store
    simp only [HashPhase.step, hashedBlockRange, read]
  simp only [fileGetHash, Function.iterate_succ_apply', Function.iterate_zero_apply, first, second, third]
  generalize cfg.calculateHash _ = newFullHash
  cases changed : store.lookup (.inodeX ino .changeIterationId) with
  | none =>
      have failed : atomically (checkedWriteOfFileHash ino 0 newFullHash) store =
          .error (.keyNotFound (some (.inodeX ino .changeIterationId))) := by
        rw [atomically, checkedWriteOfFileHash, bind_error (fetch_of_none changed)]
      simp only [HashPhase.step, Option.getD_none, failed]
  | some changeIterId =>
      have written : atomically (checkedWriteOfFileHash ino changeIterId newFullHash) store =
          .ok (true, applyAll store [Mutation.put (.inodeX ino .fullHash) (serializeFullHash newFullHash)]) := by
        rw [atomically, checkedWriteOfFileHash, bind_ok (fetch_of_some changed), if_pos rfl]
        rfl
      simp only [HashPhase.step, Option.getD_some, written]

theorem hashesUpTo_length (cfg : TiFsConfig) (view : FileView) (count : Nat) :
    (view.hashesUpTo cfg count).length = count * cfg.hashLen := by
  have each : ∀ id, (((view.hashes id).filter fun hash => hash.length = cfg.hashLen).getD
      (cfg.calculateHash [])).length = cfg.hashLen := view.blockHash_length cfg
  induction count with
  | zero => rw [Nat.zero_mul]; rfl
  | succ count ih =>
      unfold FileView.hashesUpTo at ih ⊢
      rw [List.range_succ, List.flatMap_append, List.length_append, ih, List.flatMap_singleton, each,
        Nat.succ_mul]

theorem divCeil_eq_zero_iff {size blockSize : Nat} (positive : 0 < blockSize) :
    divCeil size blockSize = 0 ↔ size = 0 := by
  rw [divCeil, Nat.div_eq_zero_iff_lt positive]
  omega

theorem hashesUpTo_eq_iff (cfg : TiFsConfig) (view : FileView) (blocks : Nat) :
    view.hashesUpTo cfg (blocks * cfg.hashLen) = view.hashesUpTo cfg blocks ↔ blocks = 0 ∨ cfg.hashLen ≤ 1 := by
  constructor
  · intro same
    have lengths := congrArg List.length same
    rw [hashesUpTo_length, hashesUpTo_length] at lengths
    by_cases noBytes : blocks * cfg.hashLen = 0
    · rcases Nat.mul_eq_zero.mp noBytes with empty | short
      · exact Or.inl empty
      · exact Or.inr (short.le.trans (Nat.zero_le 1))
    · have single : cfg.hashLen = 1 :=
        Nat.eq_of_mul_eq_mul_left (Nat.pos_of_ne_zero noBytes) (lengths.trans (Nat.mul_one _).symm)
      exact Or.inr single.le
  · intro few
    rcases few with rfl | short
    · rw [Nat.zero_mul]
    · rcases Nat.le_one_iff_eq_zero_or_eq_one.mp short with none | single
      · have empty : ∀ count, view.hashesUpTo cfg count = [] := by
          intro count
          apply List.eq_nil_of_length_eq_zero
          rw [hashesUpTo_length, none, Nat.mul_zero]
        rw [empty, empty]
      · rw [single, Nat.mul_one]

end Run

/-- Two different lists of block hashes have one hash. -/
def HashesCollide (cfg : TiFsConfig) (first second : Bytes) : Prop :=
  first ≠ second ∧ cfg.calculateHash first = cfg.calculateHash second

/-- A hash that was not kept is the hash over the block hashes of the file exactly if the
file has been written to, and the file is empty or a hash has one byte at most or the two
lists collide. -/
theorem full_hash_iff (cfg : TiFsConfig) (ino : StorageIno) (store : Store) (size : InoSize)
    (stored : inoSize store ino = some size) (notKept : store.lookup (.inodeX ino .fullHash) = none) :
    ∃ content, readHashesOfFile cfg ino (0, divCeil size.size cfg.blockSize) store = .ok content ∧
      ((fileGetHash cfg ino store).1 = .returned (.ok (cfg.calculateHash content)) ↔
        store.lookup (.inodeX ino .changeIterationId) ≠ none ∧
          (size.size = 0 ∨ cfg.hashLen ≤ 1 ∨ HashesCollide cfg
            ((fileView ino store).hashesUpTo cfg (divCeil size.size cfg.blockSize * cfg.hashLen)) content)) := by
  refine ⟨_, readHashesOfFile_upTo cfg ino _ store, ?_⟩
  rw [fileGetHash_computed notKept stored]
  cases changed : store.lookup (.inodeX ino .changeIterationId) with
  | none => simp
  | some changeIterId =>
      simp only [HashPhase.returned.injEq, Except.ok.injEq, ne_eq, reduceCtorEq, not_false_eq_true, true_and]
      have same_iff := hashesUpTo_eq_iff cfg (fileView ino store) (divCeil size.size cfg.blockSize)
      rw [divCeil_eq_zero_iff cfg.blockSize_pos] at same_iff
      rw [← or_assoc, ← same_iff]
      constructor
      · intro sameHash
        by_cases same : (fileView ino store).hashesUpTo cfg (divCeil size.size cfg.blockSize * cfg.hashLen) =
            (fileView ino store).hashesUpTo cfg (divCeil size.size cfg.blockSize)
        · exact Or.inl same
        · exact Or.inr ⟨same, sameHash⟩
      · intro condition
        rcases condition with same | collide
        · rw [same]
        · exact collide.2

/-- A hash algorithm of one byte: the sum of the bytes. -/
def checksumConfig : TiFsConfig :=
  { paddingConfig 2 Nat.two_pos with
    hashLen := 1
    calculateHash := fun bytes => [UInt8.ofNat (bytes.foldl (fun sum byte => sum + byte.toNat) 0)]
    hash_length := fun _ => rfl }

def checksummedFile : Store := applyAll ∅
  [Mutation.put (.inodeX 10 .size) ⟨4, 2, 7⟩, Mutation.put (.inodeX 10 .changeIterationId) 5,
   Mutation.put (.blockHash ⟨10, 0⟩) [14], Mutation.put (.hashedBlock [14]) [7, 7],
   Mutation.put (.blockHash ⟨10, 1⟩) [16], Mutation.put (.hashedBlock [16]) [8, 8]]

theorem full_hash_one_byte :
    readHashesOfFile checksumConfig 10 (0, 2) checksummedFile = .ok [14, 16] ∧
      (fileGetHash checksumConfig 10 checksummedFile).1 = .returned (.ok [30]) := by
  have isContent : readHashesOfFile checksumConfig 10 (0, 2) checksummedFile = .ok [14, 16] := rfl
  obtain ⟨content, read, isHash⟩ := full_hash_iff checksumConfig 10 checksummedFile ⟨4, 2, 7⟩ (by decide) (by decide)
  have same : content = [14, 16] := Except.ok.inj (read.symm.trans isContent)
  refine ⟨isContent, ?_⟩
  rw [isHash.mpr ⟨by decide, Or.inr (Or.inl le_rfl)⟩, same]
  rfl

def hashedFile : Store := applyAll ∅
  [Mutation.put (.inodeX 10 .size) ⟨2, 1, 7⟩, Mutation.put (.inodeX 10 .changeIterationId) 5,
   Mutation.put (.blockHash ⟨10, 0⟩) (padHash 3 [7, 7])]

def countingConfig : TiFsConfig :=
  { paddingConfig 2 Nat.two_pos with
    calculateHash := fun bytes => [UInt8.ofNat bytes.length, 0, 0]
    hash_length := fun _ => rfl }

def unwrittenFile : Store := applyAll ∅ [Mutation.put (.inodeX 10 .size) ⟨0, 0, 7⟩]

/-- For one block the hash is computed over three, and for a file that was never written to
it is not returned. -/
theorem full_hash_of_more_blocks :
    (¬ ∀ (cfg : TiFsConfig) (ino : StorageIno) (store : Store) (size : InoSize) (content : Bytes),
      inoSize store ino = some size → store.lookup (.inodeX ino .fullHash) = none →
      readHashesOfFile cfg ino (0, divCeil size.size cfg.blockSize) store = .ok content →
      (fileGetHash cfg ino store).1 = .returned (.ok (cfg.calculateHash content))) ∧
    (fileGetHash countingConfig 10 hashedFile).1 = .returned (.ok [9, 0, 0]) ∧
    readHashesOfFile countingConfig 10 (0, 1) hashedFile = .ok (padHash 3 [7, 7]) ∧
    ∃ issue, (fileGetHash countingConfig 10 unwrittenFile).1 = .returned (.error issue) := by
  have computed : (fileGetHash countingConfig 10 hashedFile).1 = .returned (.ok [9, 0, 0]) := rfl
  have read : readHashesOfFile countingConfig 10 (0, 1) hashedFile = .ok (padHash 3 [7, 7]) := rfl
  refine ⟨?_, computed, read, _, rfl⟩
  intro claim
  have isHash := claim countingConfig 10 hashedFile ⟨2, 1, 7⟩ _ (by decide) (by decide) read
  have ofOneBlock : countingConfig.calculateHash (padHash 3 [7, 7]) = [3, 0, 0] := rfl
  rw [computed, ofOneBlock] at isHash
  have sameBytes := Except.ok.inj (HashPhase.returned.inj isHash)
  revert sameBytes
  decide

/-- A later call returns the hash that was kept. -/
def ReadsBack (cfg : TiFsConfig) (ino : StorageIno) (store : Store) (hash : TiFsHash) : Prop :=
  (fileGetHash cfg ino store).1 = .returned (.ok hash)

section Kept

variable {cfg : TiFsConfig} {ino : StorageIno} {store after : Store}

theorem asciiDigits_pos (n : Nat) : 0 < (asciiDigits n).length := by
  rw [asciiDigits, List.length_map]
  exact Nat.length_toDigits_pos

/-- The stored form has brackets around the digits of every byte. -/
theorem serializeFullHash_longer (hash : TiFsHash) : hash.length < (serializeFullHash hash).length := by
  have joined : ∀ parts : List Bytes, (∀ part ∈ parts, 0 < part.length) →
      parts.length ≤ ((parts.intersperse [44]).flatten).length := by
    intro parts nonempty
    induction parts with
    | nil => exact Nat.zero_le _
    | cons head tail ih =>
        have first := nonempty head List.mem_cons_self
        have rest := ih fun part member => nonempty part (List.mem_cons_of_mem _ member)
        cases tail with
        | nil => simpa using Nat.succ_le_of_lt first
        | cons second more =>
            simp only [List.intersperse_cons_cons, List.flatten_cons, List.length_append, List.length_cons] at rest ⊢
            omega
  have digits := joined (hash.map fun byte => asciiDigits byte.toNat) (by
    intro part member
    obtain ⟨byte, _, rfl⟩ := List.mem_map.mp member
    exact asciiDigits_pos byte.toNat)
  rw [List.length_map] at digits
  rw [serializeFullHash, List.length_append, List.length_cons, List.length_singleton]
  omega

theorem checkedWrite_kept {changeIteration : Uuid} {hash : TiFsHash}
    (written : atomically (checkedWriteOfFileHash ino changeIteration hash) store = .ok (true, after)) :
    after.lookup (.inodeX ino .fullHash) = some (serializeFullHash hash) := by
  cases changed : store.lookup (.inodeX ino .changeIterationId) with
  | none =>
      rw [atomically, checkedWriteOfFileHash, bind_error (fetch_of_none changed)] at written
      cases written
  | some stored =>
      rw [atomically, checkedWriteOfFileHash, bind_ok (fetch_of_some changed)] at written
      by_cases same : stored = changeIteration
      · rw [if_pos same] at written
        obtain ⟨_, rfl⟩ := Prod.mk.inj (Except.ok.inj written)
        exact lookup_put_self store _ _
      · rw [if_neg same] at written
        cases (Prod.mk.inj (Except.ok.inj written)).1

theorem fileGetHash_serialized {hash : TiFsHash}
    (kept : store.lookup (.inodeX ino .fullHash) = some (serializeFullHash hash)) :
    fileGetHash cfg ino store = (.returned (.ok (serializeFullHash hash)), store) ∧
      serializeFullHash hash ≠ hash := by
  refine ⟨fileGetHash_kept kept, ?_⟩
  intro same
  exact absurd (congrArg List.length same) (serializeFullHash_longer hash).ne'

theorem fileGetHash_keeps {first : Bytes} (notKept : store.lookup (.inodeX ino .fullHash) = none)
    (ran : fileGetHash cfg ino store = (.returned (.ok first), after)) :
    first.length = cfg.hashLen ∧ after.lookup (.inodeX ino .fullHash) = some (serializeFullHash first) := by
  cases stored : inoSize store ino with
  | none =>
      rw [fileGetHash_noSize notKept stored] at ran
      cases (Prod.mk.inj ran).1
  | some size =>
      rw [fileGetHash_computed notKept stored] at ran
      cases changed : store.lookup (.inodeX ino .changeIterationId) with
      | none =>
          rw [changed] at ran
          cases (Prod.mk.inj ran).1
      | some changeIterId =>
          rw [changed] at ran
          obtain ⟨isFirst, rfl⟩ := Prod.mk.inj ran
          rw [← Except.ok.inj (HashPhase.returned.inj isFirst)]
          exact ⟨cfg.hash_length _, lookup_put_self store _ _⟩

end Kept

/-- A hash that was kept is never returned by a later call, and a call that computes the
hash is followed by one that returns other bytes, more than a hash has. -/
theorem kept_hash_not_read_back (cfg : TiFsConfig) (ino : StorageIno) :
    (∀ (store after : Store) (changeIteration : Uuid) (hash : TiFsHash),
      atomically (checkedWriteOfFileHash ino changeIteration hash) store = .ok (true, after) →
      ¬ ReadsBack cfg ino after hash) ∧
    ∀ (store after : Store) (first : Bytes), store.lookup (.inodeX ino .fullHash) = none →
      fileGetHash cfg ino store = (.returned (.ok first), after) →
      ∃ second, fileGetHash cfg ino after = (.returned (.ok second), after) ∧ second ≠ first ∧
        cfg.hashLen < second.length := by
  constructor
  · intro store after changeIteration hash written readsBack
    obtain ⟨returned, different⟩ : fileGetHash cfg ino after = (.returned (.ok (serializeFullHash hash)), after) ∧ _ :=
      fileGetHash_serialized (checkedWrite_kept written)
    rw [ReadsBack, returned] at readsBack
    exact different (Except.ok.inj (HashPhase.returned.inj readsBack))
  · intro store after first notKept ran
    obtain ⟨isHash, kept⟩ := fileGetHash_keeps notKept ran
    obtain ⟨returned, different⟩ : fileGetHash cfg ino after = (.returned (.ok (serializeFullHash first)), after) ∧ _ :=
      fileGetHash_serialized kept
    refine ⟨_, returned, different, ?_⟩
    rw [← isHash]
    exact serializeFullHash_longer first

/-- The hash of one block is kept, and the next call returns it as a list of numbers. -/
theorem kept_hash_not_read_back_block :
    ∃ first second after, fileGetHash countingConfig 10 hashedFile = (.returned (.ok first), after) ∧
      fileGetHash countingConfig 10 after = (.returned (.ok second), after) ∧ second ≠ first := by
  have ran : ∃ first after, fileGetHash countingConfig 10 hashedFile = (.returned (.ok first), after) :=
    ⟨_, _, rfl⟩
  obtain ⟨first, after, ran⟩ := ran
  obtain ⟨second, again, different, _⟩ := (kept_hash_not_read_back countingConfig 10).2 _ _ _ (by decide) ran
  exact ⟨first, second, after, ran, again, different⟩

/-- The bytes 1, 2 and 3 are kept, and the text `[1,2,3]` is returned. -/
theorem kept_hash_returned_as_text :
    ¬ ∀ (cfg : TiFsConfig) (ino : StorageIno) (store after : Store) (changeIteration : Uuid) (hash : TiFsHash),
      atomically (checkedWriteOfFileHash ino changeIteration hash) store = .ok (true, after) →
      ReadsBack cfg ino after hash := by
  intro claim
  have written : ∃ after, atomically (checkedWriteOfFileHash 10 5 [1, 2, 3]) hashedFile = .ok (true, after) ∧
      (fileGetHash countingConfig 10 after).1 = .returned (.ok [91, 49, 44, 50, 44, 51, 93]) :=
    ⟨_, rfl, rfl⟩
  obtain ⟨after, written, returned⟩ := written
  have readsBack := claim countingConfig 10 hashedFile after 5 [1, 2, 3] written
  rw [ReadsBack, returned] at readsBack
  have sameBytes := Except.ok.inj (HashPhase.returned.inj readsBack)
  revert sameBytes
  decide

end TiFs
