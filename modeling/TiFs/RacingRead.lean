import TiFs.BlockEffects

/-! A read that runs beside block writes to the same inode. It reads the hashes of its
range in one transaction and the data of the blocks in another. -/

namespace TiFs

open KeyValue Tables

structure ReadRequest where
  ino : StorageIno
  start : Nat
  size : Nat

/-- The next transaction of `hb_read_data` with an empty block cache. -/
inductive ReadPhase where
  | readHashes
  | readData (blockHashes : BlockHashes)
  | returned (result : Except FsError Bytes)

def ReadPhase.step (cfg : TiFsConfig) (request : ReadRequest) (store : Store) : ReadPhase → ReadPhase
  | .readHashes =>
      match atomically (inodeReadBlockHashesDataRange cfg request.ino request.start request.size) store with
      | .ok (blockHashes, _) => .readData blockHashes
      | .error issue => .returned (.error issue)
  | .readData blockHashes =>
      match (hbGetBlockDataByHashesCached cfg (blockHashes.entries.map Sigma.snd).dedup ∅ store).1 with
      | .ok blocksData => .returned (.ok (hbReadFromBlocks
          (BlockSplitterRead.new cfg.blockSize request.start request.size) blockHashes blocksData))
      | .error issue => .returned (.error issue)
  | .returned result => .returned result

/-- With nothing in between it is `hb_read_data`. -/
theorem ReadPhase.step_twice (cfg : TiFsConfig) (request : ReadRequest) (store : Store) :
    ReadPhase.step cfg request store (ReadPhase.step cfg request store .readHashes) =
      .returned (hbReadData cfg request.ino request.start (some request.size) ∅ store).1 := by
  simp only [ReadPhase.step, hbReadData, Option.getD_some]
  cases atomically (inodeReadBlockHashesDataRange cfg request.ino request.start request.size) store with
  | error issue => rfl
  | ok read =>
      obtain ⟨blockHashes, _⟩ := read
      simp only
      cases hbGetBlockDataByHashesCached cfg (blockHashes.entries.map Sigma.snd).dedup ∅ store with
      | mk fetched filled =>
          cases fetched with
          | error issue => rfl
          | ok blocksData => rfl

structure ReadSystem (cfg : TiFsConfig) where
  blocks : BlockSystem cfg
  reader : ReadPhase

inductive ReadEvent (cfg : TiFsConfig) where
  | other (event : BlockEvent cfg)
  | read

namespace ReadSystem

variable {cfg : TiFsConfig}

def step (request : ReadRequest) (state : ReadSystem cfg) : ReadEvent cfg → Option (ReadSystem cfg)
  | .other event => (state.blocks.step event).map fun blocks => { state with blocks := blocks }
  | .read => some { state with reader := state.reader.step cfg request state.blocks.store }

def Step (request : ReadRequest) (before : ReadSystem cfg) (event : ReadEvent cfg)
    (after : ReadSystem cfg) : Prop :=
  before.step request event = some after

end ReadSystem

def Op.WritesWhole {cfg : TiFsConfig} (ino : StorageIno) : Op cfg → Prop
  | .write task => task.ino = ino ∧ ∀ group ∈ task.plan.groups, group.data.length = cfg.blockSize
  | _ => False

/-- What is stored under a hash that the operation writes is what it writes. -/
def Op.Collisionless {cfg : TiFsConfig} (store : Store) : Op cfg → Prop
  | .write task => ∀ group ∈ task.plan.groups, ∀ data ∈ blockData store group.hash, data = group.data
  | _ => True

def ReadPhase.awaited : ReadPhase → List TiFsHash
  | .readData blockHashes => blockHashes.entries.map Sigma.snd
  | _ => []

namespace ReadSystem

variable {cfg : TiFsConfig}

/-- The other operations are writes of whole blocks to the inode, and none fails. -/
def WholeWrites (request : ReadRequest) (state : ReadSystem cfg) : ReadEvent cfg → Prop
  | .other (.spawn (.write ino plan)) =>
      ino = request.ino ∧ ∀ group ∈ plan.groups, group.data.length = cfg.blockSize
  | .other (.spawn _) => False
  | .other (.advance i ambient) =>
      ∀ op ∈ state.blocks.ops[i]?, (op.step ambient state.blocks.store).isOk = true
  | .other (.abandon _) => False
  | .read => True

/-- When the hashes are read the blocks they stand for are stored, and until their data
is read none of these blocks is deleted; hashes do not collide. -/
def BlocksStay (request : ReadRequest) (state : ReadSystem cfg) : ReadEvent cfg → Prop
  | .other (.advance i _) => ∀ op ∈ state.blocks.ops[i]?, op.Collisionless state.blocks.store ∧
      ∀ hash ∈ state.reader.awaited, op.Spares state.blocks.store hash
  | .read => match state.reader with
      | .readHashes => ∀ k < request.size,
          ∀ hash ∈ mapping state.blocks.store ⟨request.ino, (request.start + k) / cfg.blockSize⟩,
            (blockData state.blocks.store hash).isSome
      | _ => True
  | _ => True

end ReadSystem

instance {cfg : TiFsConfig} (store : Store) : ∀ op : Op cfg, Decidable (op.Collisionless store)
  | .write task => inferInstanceAs (Decidable (∀ group ∈ task.plan.groups,
      ∀ data ∈ blockData store group.hash, data = group.data))
  | .clear _ => isTrue trivial
  | .clone _ => isTrue trivial
  | .ended _ => isTrue trivial

namespace ReadSystem

variable {cfg : TiFsConfig}

instance (request : ReadRequest) (state : ReadSystem cfg) :
    ∀ event, Decidable (state.WholeWrites request event)
  | .other (.spawn (.write ino plan)) => inferInstanceAs (Decidable (ino = request.ino ∧
      ∀ group ∈ plan.groups, group.data.length = cfg.blockSize))
  | .other (.spawn (.clear _ _)) => isFalse id
  | .other (.spawn (.clone _ _ _)) => isFalse id
  | .other (.advance i ambient) => inferInstanceAs (Decidable (∀ op ∈ state.blocks.ops[i]?,
      (op.step ambient state.blocks.store).isOk = true))
  | .other (.abandon _) => isFalse id
  | .read => isTrue trivial

instance (request : ReadRequest) (state : ReadSystem cfg) : Decidable (state.BlocksStay request .read) :=
  match state with
  | ⟨blocks, .readHashes⟩ => inferInstanceAs (Decidable (∀ k < request.size,
      ∀ hash ∈ mapping blocks.store ⟨request.ino, (request.start + k) / cfg.blockSize⟩,
        (blockData blocks.store hash).isSome))
  | ⟨_, .readData _⟩ => isTrue trivial
  | ⟨_, .returned _⟩ => isTrue trivial

instance (request : ReadRequest) (state : ReadSystem cfg) :
    ∀ event, Decidable (state.BlocksStay request event)
  | .other (.spawn _) => isTrue trivial
  | .other (.advance i _) => inferInstanceAs (Decidable (∀ op ∈ state.blocks.ops[i]?,
      op.Collisionless state.blocks.store ∧
        ∀ hash ∈ state.reader.awaited, op.Spares state.blocks.store hash))
  | .other (.abandon _) => isTrue trivial
  | .read => inferInstance

end ReadSystem

def ReadRequest.Whole (cfg : TiFsConfig) (request : ReadRequest) (store : Store) : Prop :=
  ∀ k < request.size, ∃ content,
    (storedFile store request.ino).content ((request.start + k) / cfg.blockSize) = some content ∧
      content.length = cfg.blockSize

def ReadRequest.BytesOf (cfg : TiFsConfig) (request : ReadRequest) (store : Store) (bytes : Bytes) : Prop :=
  bytes.length = request.size ∧ ∀ k < request.size, ∃ content,
    (storedFile store request.ino).content ((request.start + k) / cfg.blockSize) = some content ∧
      bytes[k]? = content[(request.start + k) % cfg.blockSize]?

def ReadRequest.Mapped (cfg : TiFsConfig) (request : ReadRequest) (store : Store) : Prop :=
  ∀ k < request.size, ∃ hash,
    mapping store ⟨request.ino, (request.start + k) / cfg.blockSize⟩ = some hash ∧
      hash.length = cfg.hashLen ∧ ∀ data, blockData store hash = some data → data.length = cfg.blockSize

theorem ReadRequest.Whole.mapped {cfg : TiFsConfig} {request : ReadRequest} {store : Store}
    (whole : request.Whole cfg store)
    (addressed : ∀ hash data, blockData store hash = some data → cfg.calculateHash data = hash) :
    request.Mapped cfg store := by
  intro k inside
  obtain ⟨content, isContent, length⟩ := whole k inside
  obtain ⟨hash, isMapped, stored⟩ := content_stored isContent
  refine ⟨hash, isMapped, ?_, ?_⟩
  · rw [← addressed hash content stored]
    exact cfg.hash_length content
  · intro data isData
    rw [← Option.some.inj (stored.symm.trans isData)]
    exact length

section Step

variable {cfg : TiFsConfig} {request : ReadRequest} {store after : Store} {task : WriteTask cfg}
  {phase : WritePhase}

theorem BlockMove.mapping_isSome (move : BlockMove task store phase after) {addr : BlockAddress}
    (mapped : (mapping store addr).isSome) : (mapping after addr).isSome := by
  cases move with
  | incremented prev after current counted =>
      rw [mapping, counted.frame (.blockHash addr) (by simp)]
      exact mapped
  | uploaded blocks after current uploaded =>
      rw [mapping, uploaded.frame (.blockHash addr) (by simp)]
      exact mapped
  | replaced decrements after current placed lengths =>
      by_cases listed : addr ∈ (task.plan.addressesToModify task.ino).map Prod.fst
      · obtain ⟨address, member, rfl⟩ := List.mem_map.mp listed
        rw [placed.placed address member]
        obtain ⟨group, _, inGroup⟩ := List.mem_flatMap.mp member
        obtain ⟨id, _, rfl⟩ := List.mem_map.mp inGroup
        rfl
      · rw [placed.kept addr listed]
        exact mapped
  | decremented decrements after current counted =>
      rw [mapping, counted.frame (.blockHash addr) (by simp) (by simp)]
      exact mapped
  | quiet phase after frame before later owed =>
      rw [mapping, frame (.blockHash addr) (by simp)]
      exact mapped

theorem WritePlan.mem_addresses (plan : WritePlan cfg) {ino : StorageIno} {addr : BlockAddress}
    {hash : TiFsHash} (listed : (addr, some hash) ∈ plan.addressesToModify ino) :
    ∃ group ∈ plan.groups, hash = group.hash := by
  obtain ⟨group, member, inGroup⟩ := List.mem_flatMap.mp listed
  obtain ⟨id, _, same⟩ := List.mem_map.mp inGroup
  exact ⟨group, member, (Option.some.inj (Prod.mk.inj same).2).symm⟩

theorem whole_of_stored (effect : (Op.write task).Effect store after) (sound : task.Sound)
    (whole : ∀ group ∈ task.plan.groups, group.data.length = cfg.blockSize) {hash : TiFsHash}
    (before : ∀ data, blockData store hash = some data → data.length = cfg.blockSize) {data : Bytes}
    (found : blockData after hash = some data) : data.length = cfg.blockSize := by
  by_cases listed : hash ∈ (Op.write task).uploads.map Prod.fst
  · obtain ⟨block, member, rfl⟩ := List.mem_map.mp listed
    rw [effect.uploaded block member] at found
    obtain ⟨group, inPlan, rfl⟩ := uploads_of_plan sound member
    exact Option.some.inj found ▸ whole group inPlan
  · exact before data (effect.old hash data listed found)

theorem ReadRequest.Mapped.move (isMapped : request.Mapped cfg store) (sound : task.Sound)
    (whole : ∀ group ∈ task.plan.groups, group.data.length = cfg.blockSize)
    (collisionless : (Op.write task).Collisionless store)
    (move : WriteMove task store phase after) : request.Mapped cfg after := by
  intro k inside
  obtain ⟨hash, found, length, stored⟩ := isMapped k inside
  have effect := Op.effect_of_write move
  obtain ⟨new, isNew⟩ := Option.isSome_iff_exists.mp
    (move.blockMove.mapping_isSome (Option.isSome_of_eq_some found))
  refine ⟨new, isNew, ?_⟩
  rcases move.blockMove.mapping_cases isNew with old | ⟨current, listed⟩
  · obtain rfl := Option.some.inj (old.symm.trans found)
    exact ⟨length, fun data => whole_of_stored effect sound whole stored⟩
  · obtain ⟨group, inPlan, rfl⟩ := task.plan.mem_addresses listed
    constructor
    · rw [task.plan.hash_eq group inPlan]
      exact cfg.hash_length group.data
    · intro data isData
      apply whole_of_stored effect sound whole _ isData
      intro before isBefore
      rw [collisionless group inPlan before isBefore]
      exact whole group inPlan

/-- A block that is awaited and spared stays. -/
theorem block_stays (effect : (Op.write task).Effect store after) (sound : task.Sound)
    (collisionless : (Op.write task).Collisionless store) {hash : TiFsHash} {data : Bytes}
    (spared : (Op.write task).Spares store hash) (found : blockData store hash = some data) :
    blockData after hash = some data := by
  by_cases listed : hash ∈ (Op.write task).uploads.map Prod.fst
  · obtain ⟨block, member, rfl⟩ := List.mem_map.mp listed
    obtain ⟨group, inPlan, rfl⟩ := uploads_of_plan sound member
    rw [effect.uploaded _ member, collisionless group inPlan data found]
  · rw [effect.kept hash listed spared, found]

end Step

theorem readBlocks_whole {blockSize : Nat} (positive : 0 < blockSize) (start size : Nat) (block : Nat → Bytes)
    (whole : ∀ k < size, (block ((start + k) / blockSize)).length = blockSize) :
    (readBlocks (BlockSplitterRead.new blockSize start size) block).length = size ∧
      ∀ k < size, (readBlocks (BlockSplitterRead.new blockSize start size) block)[k]? =
        (block ((start + k) / blockSize))[(start + k) % blockSize]? := by
  let bytes : Bytes :=
    (List.range size).map fun k => ((block ((start + k) / blockSize))[(start + k) % blockSize]?).getD 0
  have length : bytes.length = size := by rw [List.length_map, List.length_range]
  have isByte : ∀ k < size, (block ((start + k) / blockSize))[(start + k) % blockSize]? = bytes[k]? := by
    intro k inside
    have inBlock : (start + k) % blockSize < (block ((start + k) / blockSize)).length := by
      rw [whole k inside]
      exact Nat.mod_lt _ positive
    rw [List.getElem?_map, List.getElem?_range inside, Option.map_some, List.getElem?_eq_getElem inBlock]
    rfl
  rw [readBlocks_eq positive length.le isByte]
  exact ⟨length, fun k inside => (isByte k inside).symm⟩

theorem position_inRange (cfg : TiFsConfig) {start size k : Nat} (inside : k < size) :
    start / cfg.blockSize ≤ (start + k) / cfg.blockSize ∧
      (start + k) / cfg.blockSize < divCeil (start + size) cfg.blockSize := by
  have positive := cfg.blockSize_pos
  constructor
  · exact Nat.div_le_div_right (by omega)
  · have whole := Nat.div_mul_le_self (start + k) cfg.blockSize
    rw [divCeil, Nat.lt_div_iff_mul_lt positive]
    omega

namespace ReadSystem

variable {cfg : TiFsConfig} {request : ReadRequest}

def Allowed (request : ReadRequest) (state : ReadSystem cfg) (event : ReadEvent cfg) : Prop :=
  state.WholeWrites request event ∧ state.BlocksStay request event

instance (request : ReadRequest) (state : ReadSystem cfg) (event : ReadEvent cfg) :
    Decidable (state.Allowed request event) :=
  inferInstanceAs (Decidable (_ ∧ _))

/-- What the call has read so far is what the blocks were at one moment. -/
def Tracked (request : ReadRequest) (first state : ReadSystem cfg) : Prop :=
  match state.reader with
  | .readHashes => request.Mapped cfg state.blocks.store
  | .readData found =>
      (∀ index hash, found.lookup index = some hash → hash.length = cfg.hashLen) ∧
      ∃ moment : ReadSystem cfg, Run (Step request) (Allowed request) first moment ∧
        Run (Step request) (Allowed request) moment state ∧ moment.reader = .readHashes ∧
        ∀ k < request.size, ∃ hash data,
          found.lookup ((request.start + k) / cfg.blockSize) = some hash ∧
          (storedFile moment.blocks.store request.ino).content ((request.start + k) / cfg.blockSize) =
            some data ∧
          data.length = cfg.blockSize ∧ blockData state.blocks.store hash = some data
  | .returned result => ∃ (moment : ReadSystem cfg) (bytes : Bytes),
      Run (Step request) (Allowed request) first moment ∧
        Run (Step request) (Allowed request) moment state ∧ moment.reader = .readHashes ∧
        result = .ok bytes ∧ request.BytesOf cfg moment.blocks.store bytes

structure InOrder (request : ReadRequest) (state : ReadSystem cfg) : Prop where
  whole : ∀ op ∈ state.blocks.ops, op.WritesWhole request.ino
  sound : ∀ op ∈ state.blocks.ops, op.Sound
  addressed : ∀ hash data, blockData state.blocks.store hash = some data → cfg.calculateHash data = hash

theorem InOrder.move {before : ReadSystem cfg} (inOrder : before.InOrder request) {i : Nat}
    {task : WriteTask cfg} {phase : WritePhase} {store : Store}
    (present : before.blocks.ops[i]? = some (.write task))
    (move : WriteMove task before.blocks.store phase store) :
    InOrder request
      ⟨⟨store, before.blocks.ops.set i (.write { task with phase := phase })⟩, before.reader⟩ := by
  have member := List.mem_of_getElem? present
  have isWhole := inOrder.whole _ member
  have sound := inOrder.sound _ member
  have effect := Op.effect_of_write move
  constructor
  · intro other isOther
    rcases List.mem_or_eq_of_mem_set isOther with old | isNew
    · exact inOrder.whole other old
    · rw [isNew]
      exact isWhole
  · intro other isOther
    rcases List.mem_or_eq_of_mem_set isOther with old | isNew
    · exact inOrder.sound other old
    · rw [isNew]
      exact move.sound sound
  · intro hash data found
    by_cases listed : hash ∈ (Op.write task).uploads.map Prod.fst
    · obtain ⟨block, inUploads, rfl⟩ := List.mem_map.mp listed
      rw [effect.uploaded block inUploads] at found
      obtain ⟨group, inPlan, rfl⟩ := uploads_of_plan sound inUploads
      rw [← Option.some.inj found]
      exact (task.plan.hash_eq group inPlan).symm
    · exact inOrder.addressed hash data (effect.old hash data listed found)

theorem Tracked.move {first before : ReadSystem cfg} (tracked : Tracked request first before)
    (inOrder : before.InOrder request) {i : Nat} {task : WriteTask cfg} {phase : WritePhase} {store : Store}
    (present : before.blocks.ops[i]? = some (.write task))
    (move : WriteMove task before.blocks.store phase store)
    (collisionless : (Op.write task).Collisionless before.blocks.store)
    (spared : ∀ hash ∈ before.reader.awaited, (Op.write task).Spares before.blocks.store hash)
    {after : ReadSystem cfg}
    (isAfter : after =
      ⟨⟨store, before.blocks.ops.set i (.write { task with phase := phase })⟩, before.reader⟩)
    (next : Run (Step request) (Allowed request) before after) : Tracked request first after := by
  have member := List.mem_of_getElem? present
  have isWhole := inOrder.whole _ member
  have sound := inOrder.sound _ member
  have isReader : after.reader = before.reader := by rw [isAfter]
  have isStore : after.blocks.store = store := by rw [isAfter]
  unfold Tracked at tracked ⊢
  rw [isReader, isStore]
  cases isPhase : before.reader with
  | readHashes =>
      rw [isPhase] at tracked
      exact tracked.move sound isWhole.2 collisionless move
  | readData found =>
      rw [isPhase] at tracked spared
      obtain ⟨lengths, moment, earlier, later, underWay, blocks⟩ := tracked
      refine ⟨lengths, moment, earlier, later.trans next, underWay, ?_⟩
      intro k inside
      obtain ⟨hash, data, isHash, isContent, length, stored⟩ := blocks k inside
      have isAwaited : hash ∈ (ReadPhase.readData found).awaited :=
        List.mem_map.mpr ⟨⟨_, hash⟩, AList.mem_lookup_iff.mp isHash, rfl⟩
      exact ⟨hash, data, isHash, isContent, length,
        block_stays (Op.effect_of_write move) sound collisionless (spared hash isAwaited) stored⟩
  | returned result =>
      rw [isPhase] at tracked
      obtain ⟨moment, bytes, earlier, later, isRead⟩ := tracked
      exact ⟨moment, bytes, earlier, later.trans next, isRead⟩

theorem Tracked.read {first before : ReadSystem cfg} (tracked : Tracked request first before)
    (inOrder : before.InOrder request) (earlier : Run (Step request) (Allowed request) first before)
    (stay : before.BlocksStay request .read) {after : ReadSystem cfg}
    (isAfter : after = { before with reader := before.reader.step cfg request before.blocks.store })
    (next : Run (Step request) (Allowed request) before after) : Tracked request first after := by
  have isReader : after.reader = before.reader.step cfg request before.blocks.store := by rw [isAfter]
  have isStore : after.blocks.store = before.blocks.store := by rw [isAfter]
  unfold Tracked at tracked ⊢
  unfold BlocksStay at stay
  rw [isReader, isStore]
  cases isPhase : before.reader with
  | readHashes =>
      rw [isPhase] at tracked
      simp only [isPhase] at stay
      obtain ⟨found, ran, inFound⟩ := readRange_spec cfg before.blocks.store request.ino
        (request.start / cfg.blockSize, divCeil (request.start + request.size) cfg.blockSize)
      simp only [ReadPhase.step, inodeReadBlockHashesDataRange, ran]
      constructor
      · intro index hash isHash
        rw [inFound] at isHash
        split at isHash
        · exact scanned_length isHash
        · cases isHash
      · refine ⟨before, earlier, next, isPhase, ?_⟩
        intro k inside
        obtain ⟨hash, isMapped, length, whole⟩ := tracked k inside
        obtain ⟨data, stored⟩ := Option.isSome_iff_exists.mp (stay k inside hash isMapped)
        refine ⟨hash, data, ?_, ?_, whole data stored, stored⟩
        · rw [inFound, if_pos (position_inRange cfg inside), scanned, isMapped]
          simpa using length
        · simp only [storedFile, isMapped, Option.bind_some, stored]
  | readData found =>
      rw [isPhase] at tracked
      obtain ⟨lengths, moment, toMoment, fromMoment, underWay, blocks⟩ := tracked
      obtain ⟨blocksData, filled, ran, isRead, _⟩ := fetched_spec Set.univ before.blocks.store ∅
        (BlockSplitterRead.new cfg.blockSize request.start request.size) lengths
        (fun hash data stored => ⟨trivial, inOrder.addressed hash data stored⟩)
        (fun hash data none => by cases none)
      simp only [ReadPhase.step, ran]
      let block : Nat → Bytes := fun index => ((found.lookup index).bind fun hash =>
        ((∅ : BlocksData).lookup hash).or (blockData before.blocks.store hash)).getD []
      have isBlock : ∀ k < request.size, ∃ data,
          (storedFile moment.blocks.store request.ino).content ((request.start + k) / cfg.blockSize) =
            some data ∧ data.length = cfg.blockSize ∧
          block ((request.start + k) / cfg.blockSize) = data := by
        intro k inside
        obtain ⟨hash, data, isHash, isContent, length, stored⟩ := blocks k inside
        refine ⟨data, isContent, length, ?_⟩
        simp only [block]
        rw [isHash, Option.bind_some, AList.lookup_empty, Option.none_or, stored, Option.getD_some]
      obtain ⟨length, isByte⟩ := readBlocks_whole cfg.blockSize_pos request.start request.size block
        (fun k inside => by
          obtain ⟨data, _, length, isData⟩ := isBlock k inside
          rw [isData]
          exact length)
      refine ⟨moment, _, toMoment, fromMoment.trans next, underWay, rfl, ?_⟩
      rw [isRead]
      refine ⟨length, ?_⟩
      intro k inside
      obtain ⟨data, isContent, _, isData⟩ := isBlock k inside
      refine ⟨data, isContent, ?_⟩
      rw [isByte k inside, isData]
  | returned result =>
      rw [isPhase] at tracked
      obtain ⟨moment, bytes, toMoment, fromMoment, isRead⟩ := tracked
      exact ⟨moment, bytes, toMoment, fromMoment.trans next, isRead⟩

theorem InOrder.spawned {before : ReadSystem cfg} (inOrder : before.InOrder request)
    {plan : WritePlan cfg} (isWhole : ∀ group ∈ plan.groups, group.data.length = cfg.blockSize) :
    InOrder request ⟨⟨before.blocks.store,
      before.blocks.ops ++ [(Work.write request.ino plan).start]⟩, before.reader⟩ where
  whole := by
    intro op member
    rcases List.mem_append.mp member with old | isNew
    · exact inOrder.whole op old
    · rw [List.mem_singleton.mp isNew]
      exact ⟨rfl, isWhole⟩
  sound := by
    intro op member
    rcases List.mem_append.mp member with old | isNew
    · exact inOrder.sound op old
    · rw [List.mem_singleton.mp isNew]
      exact BlockSystem.Work.start_sound _
  addressed := inOrder.addressed

theorem Tracked.spawned {first before after : ReadSystem cfg} (tracked : Tracked request first before)
    (next : Run (Step request) (Allowed request) before after)
    (sameStore : after.blocks.store = before.blocks.store) (sameReader : after.reader = before.reader) :
    Tracked request first after := by
  unfold Tracked at tracked ⊢
  rw [sameReader, sameStore]
  cases isPhase : before.reader with
  | readHashes =>
      rw [isPhase] at tracked
      exact tracked
  | readData found =>
      rw [isPhase] at tracked
      obtain ⟨lengths, moment, earlier, later, blocks⟩ := tracked
      exact ⟨lengths, moment, earlier, later.trans next, blocks⟩
  | returned result =>
      rw [isPhase] at tracked
      obtain ⟨moment, bytes, earlier, later, isRead⟩ := tracked
      exact ⟨moment, bytes, earlier, later.trans next, isRead⟩

theorem tracked_step {first before after : ReadSystem cfg} {event : ReadEvent cfg}
    (earlier : Run (Step request) (Allowed request) first before) (inOrder : before.InOrder request)
    (tracked : Tracked request first before) (taken : before.Step request event after)
    (allowed : before.Allowed request event) :
    after.InOrder request ∧ Tracked request first after := by
  have next : Run (Step request) (Allowed request) before after := Run.single event taken allowed
  cases event with
  | read =>
      have isAfter := (Option.some.inj taken).symm
      refine ⟨?_, tracked.read inOrder earlier allowed.2 isAfter next⟩
      rw [isAfter]
      exact ⟨inOrder.whole, inOrder.sound, inOrder.addressed⟩
  | other event =>
      obtain ⟨blocks, ran, isAfter⟩ := Option.map_eq_some_iff.mp taken
      cases BlockSystem.effect_of_step ran with
      | spawned work =>
          rw [← isAfter] at next ⊢
          cases work with
          | write ino plan =>
              obtain ⟨rfl, isWhole⟩ := allowed.1
              exact ⟨inOrder.spawned isWhole, tracked.spawned next rfl rfl⟩
          | clear addr doSizeUpdate => exact absurd allowed.1 id
          | clone dst hashes lengths => exact absurd allowed.1 id
      | moved i ambient op opNext store present moved =>
          have isWhole := inOrder.whole op (List.mem_of_getElem? present)
          obtain ⟨collisionless, spared⟩ := allowed.2 op present
          cases op with
          | write task =>
              obtain ⟨phase, rfl, move⟩ :=
                Op.move_of_step (inOrder.sound _ (List.mem_of_getElem? present)) moved
              rw [← isAfter]
              exact ⟨inOrder.move present move,
                tracked.move inOrder present move collisionless spared rfl (isAfter ▸ next)⟩
          | clear task => exact absurd isWhole id
          | clone task => exact absurd isWhole id
          | ended failure => exact absurd isWhole id
      | failed i ambient op issue present failed =>
          have succeeds := allowed.1 op present
          rw [failed] at succeeds
          cases succeeds
      | abandoned i op present => exact absurd allowed.1 id

/-- The result has the length asked for, and each block's part of it is a slice of a
content that the block had at a moment of the read. -/
def OldOrNew (request : ReadRequest) (allowed : ReadSystem cfg → ReadEvent cfg → Prop)
    (first last : ReadSystem cfg) (result : Except FsError Bytes) : Prop :=
  ∃ bytes, result = .ok bytes ∧ bytes.length = request.size ∧
    ∀ index, (∃ k < request.size, (request.start + k) / cfg.blockSize = index) →
      ∃ (moment : ReadSystem cfg) (content : Bytes),
        Run (Step request) allowed first moment ∧ Run (Step request) allowed moment last ∧
        moment.reader = .readHashes ∧
        (storedFile moment.blocks.store request.ino).content index = some content ∧
        ∀ k < request.size, (request.start + k) / cfg.blockSize = index →
          bytes[k]? = content[(request.start + k) % cfg.blockSize]?

/-- A read beside writes of whole blocks returns the bytes of its blocks as they were at
a moment of the read. -/
theorem racing_read (cfg : TiFsConfig) (request : ReadRequest) (blocks : BlockSystem cfg)
    (writers : ∀ op ∈ blocks.ops, op.WritesWhole request.ino ∧ op.Sound)
    (addressed : ∀ hash data, blockData blocks.store hash = some data → cfg.calculateHash data = hash)
    (whole : request.Whole cfg blocks.store) (last : ReadSystem cfg)
    (run : Run (Step request) (Allowed request) ⟨blocks, .readHashes⟩ last) (result : Except FsError Bytes)
    (isReturned : last.reader = .returned result) :
    OldOrNew request (Allowed request) ⟨blocks, .readHashes⟩ last result := by
  have holds : Run (Step request) (Allowed request) ⟨blocks, .readHashes⟩ last ∧
      last.InOrder request ∧ Tracked request ⟨blocks, .readHashes⟩ last := by
    refine Run.invariant (fun state => Run (Step request) (Allowed request) ⟨blocks, .readHashes⟩ state ∧
      state.InOrder request ∧ Tracked request ⟨blocks, .readHashes⟩ state) ?_ ?_ run
    · intro before event after holds taken allowed
      exact ⟨holds.1.snoc event taken allowed, tracked_step holds.1 holds.2.1 holds.2.2 taken allowed⟩
    · refine ⟨Relation.ReflTransGen.refl, ⟨?_, ?_, addressed⟩, whole.mapped addressed⟩
      · exact fun op member => (writers op member).1
      · exact fun op member => (writers op member).2
  have tracked := holds.2.2
  unfold Tracked at tracked
  rw [isReturned] at tracked
  obtain ⟨moment, bytes, toMoment, fromMoment, underWay, isOk, length, isByte⟩ := tracked
  refine ⟨bytes, isOk, length, ?_⟩
  rintro index ⟨k, inside, rfl⟩
  obtain ⟨content, isContent, _⟩ := isByte k inside
  refine ⟨moment, content, toMoment, fromMoment, underWay, isContent, ?_⟩
  intro other otherInside sameBlock
  obtain ⟨otherContent, isOther, byte⟩ := isByte other otherInside
  rw [sameBlock, isContent] at isOther
  rw [byte, Option.some.inj isOther]

theorem exists_run (request : ReadRequest) (allowed : ReadSystem cfg → ReadEvent cfg → Prop)
    [∀ state event, Decidable (allowed state event)] (first : ReadSystem cfg)
    (events : List (ReadEvent cfg)) (check : ReadSystem cfg → Bool)
    (ran : (runAll (restrict allowed (step request)) first events).any check = true) :
    ∃ last, Run (Step request) allowed first last ∧ check last = true :=
  Run.of_restrict (fun _ _ _ taken => taken) events check ran

def bytesRead (state : ReadSystem cfg) : Option Bytes :=
  match state.reader with
  | .returned (.ok bytes) => some bytes
  | _ => none

theorem returned_of_bytesRead {state : ReadSystem cfg} {bytes : Bytes}
    (read : state.bytesRead = some bytes) : state.reader = .returned (.ok bytes) := by
  unfold bytesRead at read
  split at read
  · next found isReturned => rw [isReturned, Option.some.inj read]
  · cases read

def twoBlockFile : Store :=
  applyAll ∅ [.put (.inodeX 10 .size) ⟨4, 2, 0⟩, .put (.blockHash ⟨10, 0⟩) (padHash 3 [7, 7]),
    .put (.blockHash ⟨10, 1⟩) (padHash 3 [8, 8]), .put (.hashedBlock (padHash 3 [7, 7])) [7, 7],
    .put (.hashedBlock (padHash 3 [8, 8])) [8, 8], .put (.countedNamedUsages (padHash 3 [7, 7])) 1,
    .put (.countedNamedUsages (padHash 3 [8, 8])) 1]

theorem twoBlockFile_addressed (hash : TiFsHash) (data : Bytes)
    (found : blockData twoBlockFile hash = some data) :
    (paddingConfig 2 (by decide)).calculateHash data = hash := by
  rcases lookup_applyAll_eq_some found with none | listed
  · cases none
  · simp only [List.mem_cons, List.not_mem_nil, or_false] at listed
    rcases listed with other | other | other | first | second | other | other
    · cases other
    · cases other
    · cases other
    · cases first; rfl
    · cases second; rfl
    · cases other
    · cases other

theorem twoBlockFile_whole :
    ReadRequest.Whole (paddingConfig 2 (by decide)) ⟨10, 0, 4⟩ twoBlockFile := by
  intro k inside
  have four : k = 0 ∨ k = 1 ∨ k = 2 ∨ k = 3 := by
    simp only at inside
    omega
  rcases four with rfl | rfl | rfl | rfl
  · exact ⟨[7, 7], by decide +kernel, rfl⟩
  · exact ⟨[7, 7], by decide +kernel, rfl⟩
  · exact ⟨[8, 8], by decide +kernel, rfl⟩
  · exact ⟨[8, 8], by decide +kernel, rfl⟩

/-- The first block is replaced while the read is between its transactions. -/
theorem racing_read_replaced :
    ∃ last : ReadSystem (paddingConfig 2 (by decide)),
      Run (Step ⟨10, 0, 4⟩) (Allowed ⟨10, 0, 4⟩) ⟨⟨twoBlockFile, []⟩, .readHashes⟩ last ∧
      last.reader = .returned (.ok [7, 7, 8, 8]) ∧
      mapping last.blocks.store ⟨10, 0⟩ = some (padHash 3 [9, 9]) ∧
      OldOrNew ⟨10, 0, 4⟩ (Allowed ⟨10, 0, 4⟩) ⟨⟨twoBlockFile, []⟩, .readHashes⟩ last
        (.ok [7, 7, 8, 8]) := by
  obtain ⟨last, run, check⟩ := exists_run ⟨10, 0, 4⟩ (Allowed ⟨10, 0, 4⟩)
    (⟨⟨twoBlockFile, []⟩, .readHashes⟩ : ReadSystem (paddingConfig 2 (by decide)))
    [.other (.spawn (.write 10 ninesPlan)), .read, .other (.advance 0 ⟨5, 1⟩),
      .other (.advance 0 ⟨5, 1⟩), .other (.advance 0 ⟨5, 1⟩), .read]
    (fun last => last.bytesRead = some [7, 7, 8, 8] ∧
      mapping last.blocks.store ⟨10, 0⟩ = some (padHash 3 [9, 9])) (by decide +kernel)
  obtain ⟨read, replaced⟩ := of_decide_eq_true check
  have isReturned := returned_of_bytesRead read
  exact ⟨last, run, isReturned, replaced, racing_read _ ⟨10, 0, 4⟩ ⟨twoBlockFile, []⟩
    (fun op member => absurd member List.not_mem_nil) twoBlockFile_addressed twoBlockFile_whole last run _
    isReturned⟩

/-- The replaced block is deleted before its data is read: the other block's bytes come
in its place. -/
theorem racing_read_drops_block :
    ¬ ∀ (cfg : TiFsConfig) (request : ReadRequest) (blocks : BlockSystem cfg),
      (∀ op ∈ blocks.ops, op.WritesWhole request.ino ∧ op.Sound) →
      (∀ hash data, blockData blocks.store hash = some data → cfg.calculateHash data = hash) →
      request.Whole cfg blocks.store →
      ∀ (last : ReadSystem cfg), Run (Step request) (WholeWrites request) ⟨blocks, .readHashes⟩ last →
      ∀ result, last.reader = .returned result →
        OldOrNew request (WholeWrites request) ⟨blocks, .readHashes⟩ last result := by
  intro holds
  obtain ⟨last, run, check⟩ := exists_run ⟨10, 0, 4⟩ (WholeWrites ⟨10, 0, 4⟩)
    (⟨⟨twoBlockFile, []⟩, .readHashes⟩ : ReadSystem (paddingConfig 2 (by decide)))
    [.other (.spawn (.write 10 ninesPlan)), .read, .other (.advance 0 ⟨5, 1⟩),
      .other (.advance 0 ⟨5, 1⟩), .other (.advance 0 ⟨5, 1⟩), .other (.advance 0 ⟨5, 1⟩),
      .other (.advance 0 ⟨5, 1⟩), .other (.advance 0 ⟨5, 1⟩), .other (.advance 0 ⟨5, 1⟩), .read]
    (fun last => last.bytesRead = some [8, 8]) (by decide +kernel)
  obtain ⟨bytes, isOk, length, _⟩ := holds _ ⟨10, 0, 4⟩ ⟨twoBlockFile, []⟩
    (fun op member => absurd member List.not_mem_nil) twoBlockFile_addressed twoBlockFile_whole last run _
    (returned_of_bytesRead (of_decide_eq_true check))
  rw [← Except.ok.inj isOk] at length
  cases length

end ReadSystem

end TiFs
