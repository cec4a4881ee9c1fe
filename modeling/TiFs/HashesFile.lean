import TiFs.FullHash
import TiFs.LookupAttr

namespace TiFs

open KeyValue

def readFileKindHashes (cfg : TiFsConfig) (ino : StorageIno) (start size : Nat) (store : Store) :
    Except HashFsError Bytes := do
  let firstBlock := start / cfg.hashLen
  let firstBlockOffset := start % cfg.hashLen
  let blockCnt := divCeil (firstBlockOffset + size) cfg.hashLen
  let data ← readHashesOfFile cfg ino (firstBlock, firstBlock + blockCnt) store
  return (data.drop firstBlockOffset).take size

/-- The read returns the bytes of the hashes of so many blocks up to the reported end. -/
def ReadsHashes (cfg : TiFsConfig) (ino : StorageIno) (start size : Nat) (store : Store)
    (stat : FuserFileAttr) (blocks : Nat) : Prop :=
  readFileKindHashes cfg ino start size store =
    .ok ((((fileView ino store).hashesUpTo cfg blocks).drop start).take (min (start + size) stat.size - start))

section Read

variable {cfg : TiFsConfig} {ino : StorageIno} {store : Store} {view : FileView} {start size : Nat}

theorem hashesUpTo_eq (cfg : TiFsConfig) (view : FileView) (count : Nat) :
    view.hashesUpTo cfg count = (List.range count).flatMap (view.blockHash cfg) := rfl

theorem hashesUpTo_add (cfg : TiFsConfig) (view : FileView) (first count : Nat) :
    view.hashesUpTo cfg (first + count) =
      view.hashesUpTo cfg first ++ (List.range' first count).flatMap (view.blockHash cfg) := by
  rw [hashesUpTo_eq, hashesUpTo_eq, ← List.flatMap_append, List.range_eq_range', List.range_eq_range',
    ← List.range'_append_1, Nat.zero_add]

theorem hashesUpTo_window {few many : Nat} (fewer : few ≤ many) (inside : start + size ≤ few * cfg.hashLen) :
    ((view.hashesUpTo cfg many).drop start).take size = ((view.hashesUpTo cfg few).drop start).take size := by
  obtain ⟨rest, rfl⟩ := Nat.exists_eq_add_of_le fewer
  have length := hashesUpTo_length cfg view few
  rw [hashesUpTo_add, List.drop_append_of_le_length (by omega), List.take_append_of_le_length]
  rw [List.length_drop]
  omega

theorem readFileKindHashes_run (cfg : TiFsConfig) (ino : StorageIno) (start size : Nat) (store : Store) :
    readFileKindHashes cfg ino start size store =
      .ok ((((fileView ino store).hashesUpTo cfg
        (start / cfg.hashLen + divCeil (start % cfg.hashLen + size) cfg.hashLen)).drop start).take size) := by
  have length := hashesUpTo_length cfg (fileView ino store) (start / cfg.hashLen)
  have split : start = start / cfg.hashLen * cfg.hashLen + start % cfg.hashLen :=
    (Nat.div_add_mod' start cfg.hashLen).symm
  rw [readFileKindHashes, readHashesOfFile_range, hashesUpTo_add, Nat.add_sub_cancel_left]
  conv_rhs => rw [split, ← List.drop_drop, ← split, ← length, List.drop_left]
  rfl

theorem le_divCeil_mul (amount : Nat) {width : Nat} (positive : 0 < width) :
    amount ≤ divCeil amount width * width := by
  have upper : amount + width - 1 < (amount + width - 1) / width * width + width :=
    Nat.lt_div_mul_add positive
  rw [divCeil]
  omega

theorem readFileKindHashes_covers (positive : 0 < cfg.hashLen) (start size : Nat) :
    start + size ≤
      (start / cfg.hashLen + divCeil (start % cfg.hashLen + size) cfg.hashLen) * cfg.hashLen := by
  have split := Nat.div_add_mod' start cfg.hashLen
  have covered := le_divCeil_mul (start % cfg.hashLen + size) positive
  rw [Nat.add_mul]
  omega

/-- A read ends at the end of the file only if it asks for nothing behind it. -/
theorem hashes_window_iff (positive : 0 < cfg.hashLen) {blocks : Nat} {stat : FuserFileAttr}
    (ends : stat.size = cfg.hashLen * blocks) :
    ReadsHashes cfg ino start size store stat blocks ↔ size = 0 ∨ start + size ≤ stat.size := by
  have covered := readFileKindHashes_covers positive start size
  rw [ReadsHashes, readFileKindHashes_run, Except.ok.injEq]
  generalize start / cfg.hashLen + divCeil (start % cfg.hashLen + size) cfg.hashLen = many at covered ⊢
  constructor
  · intro same
    have lengths := congrArg List.length same
    rw [List.length_take, List.length_take, List.length_drop, List.length_drop, hashesUpTo_length,
      hashesUpTo_length] at lengths
    omega
  · intro condition
    rcases condition with rfl | inside
    · rw [Nat.add_zero, List.take_zero, Nat.sub_eq_zero_of_le (Nat.min_le_left _ _), List.take_zero]
    · have covers : start + size ≤ blocks * cfg.hashLen := by rwa [Nat.mul_comm, ← ends]
      rw [Nat.min_eq_left inside, Nat.add_sub_cancel_left]
      rcases Nat.le_total blocks many with fewer | more
      · exact hashesUpTo_window fewer covers
      · exact (hashesUpTo_window more covered).symm

theorem reported_blocks {lIno : LogicalIno} {stat : FuserFileAttr} {after : Store}
    (isHashes : lIno.kind = .hashes) (reply : getAllFileAttributes cfg lIno store = .ok (.ok stat, after)) :
    ∃ blocks, stat.size = cfg.hashLen * blocks := by
  rw [getAllFileAttributes, getAllFileAttributesStorageIno, isHashes] at reply
  obtain ⟨data, _, _, isStat⟩ := Fuse.bind_inv reply
  obtain ⟨same, -⟩ := Prod.mk.inj (Except.ok.inj isStat)
  exact ⟨data.2.2.1.blocks, by rw [← Except.ok.inj same]; rfl⟩

end Read

/-- A read of the hashes ends where `getattr` says exactly if it asks for no byte behind that. -/
theorem read_hashes_iff (cfg : TiFsConfig) (positive : 0 < cfg.hashLen) (ino : StorageIno)
    (reported start size : Nat) (store after : Store) (stat : FuserFileAttr)
    (isHashes : LogicalIno.fromRaw reported = ⟨ino, .hashes⟩)
    (reply : Fuse.getattr cfg reported store = .ok (.ok stat, after)) :
    ∃ blocks, stat.size = cfg.hashLen * blocks ∧
      (ReadsHashes cfg ino start size store stat blocks ↔ size = 0 ∨ start + size ≤ stat.size) := by
  have kind : (LogicalIno.fromRaw reported).kind = .hashes := by rw [isHashes]
  obtain ⟨blocks, ends⟩ := reported_blocks kind reply
  exact ⟨blocks, ends, hashes_window_iff positive ends⟩

def oneHashFile : Store := applyAll attributedFile [Mutation.put (.blockHash ⟨10, 0⟩) (padHash 3 [7, 7])]

theorem read_hashes_two_bytes : ∃ stat blocks,
    Fuse.getattr (paddingConfig 2 Nat.two_pos) (LogicalIno.toRaw ⟨10, .hashes⟩) oneHashFile =
      .ok (.ok stat, oneHashFile) ∧ stat.size = 3 * blocks ∧
    ReadsHashes (paddingConfig 2 Nat.two_pos) 10 1 2 oneHashFile stat blocks := by
  have reply : ∃ stat, stat.size = 3 ∧
      Fuse.getattr (paddingConfig 2 Nat.two_pos) (LogicalIno.toRaw ⟨10, .hashes⟩) oneHashFile =
        .ok (.ok stat, oneHashFile) := ⟨_, rfl, rfl⟩
  obtain ⟨stat, isSize, reply⟩ := reply
  obtain ⟨blocks, ends, reads⟩ := read_hashes_iff (paddingConfig 2 Nat.two_pos) (by decide) 10
    (LogicalIno.toRaw ⟨10, .hashes⟩) 1 2 oneHashFile oneHashFile stat (by decide) reply
  exact ⟨stat, blocks, reply, ends, reads.mpr (Or.inr (by rw [isSize]))⟩

/-- Four bytes are read from a file of one hash, which has three. -/
theorem read_hashes_behind_end :
    (¬ ∀ (cfg : TiFsConfig) (ino : StorageIno) (reported start size : Nat) (store after : Store)
      (stat : FuserFileAttr) (blocks : Nat), 0 < cfg.hashLen →
      LogicalIno.fromRaw reported = ⟨ino, .hashes⟩ →
      Fuse.getattr cfg reported store = .ok (.ok stat, after) →
      stat.size = cfg.hashLen * blocks →
      ReadsHashes cfg ino start size store stat blocks) ∧
    readFileKindHashes (paddingConfig 2 Nat.two_pos) 10 0 4 oneHashFile =
      .ok [7, 7, 1, 1] := by
  have read : readFileKindHashes (paddingConfig 2 Nat.two_pos) 10 0 4 oneHashFile =
    .ok [7, 7, 1, 1] := rfl
  refine ⟨?_, read⟩
  intro claim
  have reads := claim (paddingConfig 2 Nat.two_pos) 10 (LogicalIno.toRaw ⟨10, .hashes⟩) 0 4 oneHashFile
    oneHashFile _ 1 (by decide) (by decide) rfl rfl
  rw [ReadsHashes, read] at reads
  have same := Except.ok.inj reads
  revert same
  decide

end TiFs
