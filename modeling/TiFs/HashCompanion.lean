import TiFs.HashCoherence
import TiFs.HashesFile

namespace TiFs

open KeyValue Tables

/-- `read_hash_of_file` with what `file_get_hash` returns; `none` where the slice panics. -/
def readHashOfFile (cfg : TiFsConfig) (offset size : Nat) (theHash : Except HashFsError Bytes) :
    Option (Except HashFsError Bytes) :=
  let hashSize := cfg.hashLen
  let offset := min offset hashSize
  let remaining := hashSize - offset
  let size := min size remaining
  if size = 0 then some (.ok [])
  else
    match theHash with
    | .error issue => some (.error issue)
    | .ok theHash =>
        if offset + size ≤ theHash.length then some (.ok ((theHash.drop offset).take size)) else none

section Read

variable {cfg : TiFsConfig} {offset size : Nat}

theorem readHashOfFile_error (cfg : TiFsConfig) (offset size : Nat) (issue : HashFsError) :
    readHashOfFile cfg offset size (.error issue) = some (.ok []) ∧ min (offset + size) cfg.hashLen ≤ offset ∨
      readHashOfFile cfg offset size (.error issue) = some (.error issue) := by
  by_cases nothing : min size (cfg.hashLen - min offset cfg.hashLen) = 0
  · left
    refine ⟨by simp only [readHashOfFile, nothing, if_true], ?_⟩
    omega
  · right
    simp only [readHashOfFile, nothing, if_false]

theorem readHashOfFile_long {theHash : Bytes} (long : cfg.hashLen ≤ theHash.length) :
    readHashOfFile cfg offset size (.ok theHash) =
      some (.ok ((theHash.drop offset).take (min (offset + size) cfg.hashLen - offset))) := by
  by_cases nothing : min size (cfg.hashLen - min offset cfg.hashLen) = 0
  · have none : min (offset + size) cfg.hashLen - offset = 0 := by omega
    simp only [readHashOfFile, nothing, if_true, none, List.take_zero]
  · have inside : min offset cfg.hashLen = offset := by omega
    have count : min size (cfg.hashLen - offset) = min (offset + size) cfg.hashLen - offset := by omega
    have fits : offset + (min (offset + size) cfg.hashLen - offset) ≤ theHash.length := by omega
    rw [inside] at nothing
    rw [count] at nothing
    simp only [readHashOfFile, inside, count, nothing, if_false, fits, if_true]

/-- The answer has as many bytes as a file of this size has in the range. -/
def EndsAt (offset size fileSize : Nat) : Except HashFsError Bytes → Prop
  | .error _ => True
  | .ok bytes => bytes.length = min (offset + size) fileSize - offset

theorem readHashOfFile_ends {theHash : Except HashFsError Bytes}
    (long : ∀ bytes, theHash = .ok bytes → cfg.hashLen ≤ bytes.length) :
    ∃ answer, readHashOfFile cfg offset size theHash = some answer ∧ EndsAt offset size cfg.hashLen answer := by
  cases theHash with
  | error issue =>
      rcases readHashOfFile_error cfg offset size issue with ⟨read, atEnd⟩ | read
      · exact ⟨_, read, (Nat.sub_eq_zero_of_le atEnd).symm⟩
      · exact ⟨_, read, trivial⟩
  | ok bytes =>
      refine ⟨_, readHashOfFile_long (long bytes rfl), ?_⟩
      rw [EndsAt, List.length_take, List.length_drop]
      have enough := long bytes rfl
      omega

end Read

def HashPhase.hash : HashPhase → Option Bytes
  | .writeHash _ newFullHash => some newFullHash
  | .returned (.ok hash) => some hash
  | _ => none

/-- No hash that is kept or under way is shorter than the hashes of the configuration. -/
structure HashesLong (cfg : TiFsConfig) (view : FileView) (hashers : List HashPhase) : Prop where
  kept : ∀ value ∈ view.fullHash, cfg.hashLen ≤ value.length
  found : ∀ phase ∈ hashers, ∀ hash ∈ phase.hash, cfg.hashLen ≤ hash.length

section Long

variable {cfg : TiFsConfig} {ino : StorageIno} {store : Store} {view after : FileView}
  {hashers : List HashPhase}

theorem HashesLong.cleared (long : HashesLong cfg view hashers)
    (same : after.fullHash = view.fullHash ∨ after.fullHash = none) : HashesLong cfg after hashers where
  kept := by
    intro value isFull
    rcases same with same | none
    · exact long.kept value (same ▸ isFull)
    · rw [none] at isFull
      cases isFull
  found := long.found

theorem HashesLong.set (long : HashesLong cfg view hashers) {i : Nat} {next : HashPhase}
    (isLong : ∀ hash ∈ next.hash, cfg.hashLen ≤ hash.length) : HashesLong cfg view (hashers.set i next) where
  kept := long.kept
  found := by
    intro phase member
    rcases List.mem_or_eq_of_mem_set member with before | rfl
    · exact long.found phase before
    · exact isLong

theorem HashesLong.set_none (long : HashesLong cfg view hashers) {i : Nat} {next : HashPhase}
    (isNone : next.hash = none) : HashesLong cfg view (hashers.set i next) := by
  apply long.set
  intro hash isHash
  rw [isNone] at isHash
  cases isHash

theorem RegisterMove.fullHash {ambient : Ambient} {task : RegisterTask} {phase : WritePhase}
    (move : RegisterMove cfg ambient task view phase after) :
    after.fullHash = view.fullHash ∨ after.fullHash = none := by
  cases move with
  | cleared => exact Or.inr rfl
  | _ => exact Or.inl rfl

theorem HashesLong.hashStep (long : HashesLong cfg (fileView ino store) hashers) {i : Nat} {phase : HashPhase}
    (present : hashers[i]? = some phase) :
    HashesLong cfg (fileView ino (phase.step cfg ino store).2) (hashers.set i (phase.step cfg ino store).1) := by
  cases phase with
  | readHash =>
      simp only [HashPhase.step]
      split
      · next hash isFull =>
          apply long.set
          rintro _ ⟨⟩
          exact long.kept hash isFull
      · exact long.set_none rfl
  | readMetadata =>
      simp only [HashPhase.step]
      split
      · next hash isFull =>
          apply long.set
          rintro _ ⟨⟩
          exact long.kept hash isFull
      · split
        · exact long.set_none rfl
        · exact long.set_none rfl
  | readHashes changeIterId size =>
      simp only [HashPhase.step]
      split
      · next hashData read =>
          apply long.set
          rintro _ ⟨⟩
          exact (cfg.hash_length hashData).ge
      · exact long.set_none rfl
  | writeHash changeIterId newFullHash =>
      have enough : cfg.hashLen ≤ newFullHash.length :=
        long.found _ (List.mem_of_getElem? present) newFullHash rfl
      have returned : HashesLong cfg (fileView ino store)
          (hashers.set i (.returned (.ok newFullHash))) := by
        apply long.set
        rintro _ ⟨⟩
        exact enough
      simp only [HashPhase.step]
      split
      · next done after ran =>
          rcases checkedWriteOfFileHash_cases ran with ⟨_, isView⟩ | rfl
          · rw [isView]
            refine ⟨?_, returned.found⟩
            rintro _ ⟨⟩
            exact enough.trans (serializeFullHash_longer newFullHash).le
          · exact returned
      · exact long.set_none rfl
  | returned result => exact long.set (long.found _ (List.mem_of_getElem? present))

end Long

namespace FileHashSystem

variable {cfg : TiFsConfig} {ino : StorageIno} {allowed : FileHashSystem → FileHashEvent → Prop}

def Long (cfg : TiFsConfig) (ino : StorageIno) (state : FileHashSystem) : Prop :=
  HashesLong cfg (fileView ino state.store) state.hashers

theorem Long.step {before after : FileHashSystem} {event : FileHashEvent} (long : before.Long cfg ino)
    (taken : before.Step cfg ino event after) : after.Long cfg ino := by
  cases event with
  | write blocks =>
      obtain rfl := Option.some.inj taken
      exact long
  | getHash =>
      obtain rfl := Option.some.inj taken
      refine ⟨long.kept, ?_⟩
      intro phase member
      rcases List.mem_append.mp member with before | isNew
      · exact long.found phase before
      · rw [List.mem_singleton.mp isNew]
        exact nofun
  | allocate offset length now =>
      simp only [Step, FileHashSystem.step] at taken
      split at taken
      · next result store ran =>
          obtain rfl := Option.some.inj taken
          obtain ⟨size, _, ⟨larger, _, _, isView⟩ | rfl⟩ := inodeAllocateSize_cases ran
          · exact HashesLong.cleared long (Or.inl (by rw [isView]))
          · exact long
      · cases taken
  | advanceWrite i ambient =>
      simp only [Step, FileHashSystem.step] at taken
      split at taken
      · next task present =>
          split at taken
          · next next store ran =>
              obtain rfl := Option.some.inj taken
              obtain ⟨phase, rfl, move⟩ := RegisterTask.move_of_step ran
              exact HashesLong.cleared long move.fullHash
          · cases taken
      · cases taken
  | advanceHash i =>
      simp only [Step, FileHashSystem.step] at taken
      split at taken
      · next phase present =>
          obtain rfl := Option.some.inj taken
          exact HashesLong.hashStep long present
      · cases taken

theorem long_of_kept {store : Store}
    (kept : ∀ value, store.lookup (.inodeX ino .fullHash) = some value → cfg.hashLen ≤ value.length) :
    Long cfg ino ⟨store, [], []⟩ where
  kept := kept
  found := fun _ member => by cases member

/-- A read of the `.@hash` file never slices behind the hash that it got, and it ends where
`getattr` says that the file ends, beside any block writes, allocations and computations. -/
theorem read_hash_ends (cfg : TiFsConfig) (ino : StorageIno) (store : Store)
    (kept : ∀ value, store.lookup (.inodeX ino .fullHash) = some value → cfg.hashLen ≤ value.length)
    (state : FileHashSystem) (run : Run (Step cfg ino) allowed ⟨store, [], []⟩ state) {i : Nat}
    {theHash : Except HashFsError Bytes} (returned : state.hashers[i]? = some (.returned theHash))
    {reported : Nat} {before after : Store} {stat : FuserFileAttr}
    (isHash : LogicalIno.fromRaw reported = ⟨ino, .hash⟩)
    (reply : Fuse.getattr cfg reported before = .ok (.ok stat, after)) (offset size : Nat) :
    ∃ answer, readHashOfFile cfg offset size theHash = some answer ∧ EndsAt offset size stat.size answer := by
  have long : state.Long cfg ino := by
    refine run.invariant (Long cfg ino) ?_ (long_of_kept kept)
    intro before event after long taken _
    exact long.step taken
  have isSize : stat.size = cfg.hashLen := by
    rw [Fuse.getattr, isHash] at reply
    obtain ⟨data, _, _, isStat⟩ := Fuse.bind_inv reply
    obtain ⟨same, -⟩ := Prod.mk.inj (Except.ok.inj isStat)
    rw [← Except.ok.inj same]
    rfl
  rw [isSize]
  apply readHashOfFile_ends
  rintro bytes rfl
  exact long.found _ (List.mem_of_getElem? returned) bytes rfl

/-- The second computation finds the hash that the first one kept while the block is overwritten. -/
theorem read_hash_ends_kept :
    ∃ (state : FileHashSystem) (theHash : Except HashFsError Bytes) (answer : Except HashFsError Bytes),
      state.hashers[1]?.bind HashPhase.hash ≠ state.hashers[0]?.bind HashPhase.hash ∧
        readHashOfFile (paddingConfig 2 (by decide)) 1 9 theHash = some answer ∧ EndsAt 1 9 3 answer := by
  obtain ⟨state, run, check⟩ := exists_run (paddingConfig 2 (by decide)) 10 (fun _ _ => True)
    ⟨oneBlockFile, [], []⟩
    [.getHash, .getHash, .advanceHash 0, .advanceHash 0, .advanceHash 0,
     .write [(padHash 3 [9, 9], 2, [0])], .advanceWrite 0 ⟨5, 2⟩, .advanceHash 0, .advanceHash 1]
    (fun state => (state.hashers[1]?.any fun phase => phase.isReturned) &&
      decide (state.hashers[1]?.bind HashPhase.hash ≠ state.hashers[0]?.bind HashPhase.hash))
    (by decide +kernel)
  obtain ⟨isReturned, different⟩ := Bool.and_eq_true_iff.mp check
  obtain ⟨phase, present, returned⟩ := (Option.any_eq_true _ _).mp isReturned
  have reply : ∃ stat, stat.size = 3 ∧
      Fuse.getattr (paddingConfig 2 (by decide)) (LogicalIno.toRaw ⟨10, .hash⟩) oneHashFile =
        .ok (.ok stat, oneHashFile) := ⟨_, rfl, rfl⟩
  obtain ⟨stat, isSize, reply⟩ := reply
  cases phase with
  | returned theHash =>
      obtain ⟨answer, read, ends⟩ := read_hash_ends (paddingConfig 2 (by decide)) 10 oneBlockFile nofun state run
        present (by decide) reply 1 9
      exact ⟨state, theHash, answer, of_decide_eq_true different, read, isSize ▸ ends⟩
  | _ => cases returned

end FileHashSystem

end TiFs
