import TiFs.SnapshotCopy
import TiFs.SnapshotReads

namespace TiFs

open KeyValue Tables

def SnapshotPhase.op : SnapshotPhase → Option Nat
  | .cloning _ _ _ op => some op
  | _ => none

theorem SnapshotPhase.op_eq_some {phase : SnapshotPhase} {i : Nat} (isOp : phase.op = some i) :
    ∃ copying sizeMap rest, phase = .cloning copying sizeMap rest i := by
  cases phase with
  | cloning copying sizeMap rest op => exact ⟨copying, sizeMap, rest, by rw [Option.some.inj isOp]⟩
  | fetchRoot name => cases isOp
  | reserveRoot name rootAttr => cases isOp
  | addRoot name rootAttr newIno => cases isOp
  | nextJob copying => cases isOp
  | reserve copying destination srcList => cases isOp
  | link copying destination srcDstMapping => cases isOp
  | cloneAttrs copying srcDstMapping => cases isOp
  | cloneData copying sizeMap rest => cases isOp
  | returned result => cases isOp

namespace SnapshotSystem

variable {cfg : TiFsConfig}

inductive Move (origin : Store) (ambient : Ambient) (state : SnapshotSystem cfg) : SnapshotSystem cfg → Prop
  | rootFetched (name : ByteString) (rootAttr : InoStorageFileAttr)
      (current : state.phase = .fetchRoot name) :
      Move origin ambient state ⟨state.blocks, .reserveRoot name rootAttr⟩
  | rootReserved (name : ByteString) (rootAttr : InoStorageFileAttr) (newIno : StorageIno) (after : Store)
      (current : state.phase = .reserveRoot name rootAttr)
      (ran : atomically (metaMutableReserveNewInos cfg 1) state.blocks.store = .ok (newIno, after)) :
      Move origin ambient state ⟨⟨after, state.blocks.ops⟩, .addRoot name rootAttr newIno⟩
  | rootAdded (name : ByteString) (rootAttr : InoStorageFileAttr) (newIno : StorageIno)
      (current : state.phase = .addRoot name rootAttr newIno) :
      Move origin ambient state
        ⟨⟨applyAll state.blocks.store (createdWrites (rootArgs name rootAttr) newIno ambient.now),
          state.blocks.ops⟩, .nextJob ⟨⟨newIno, .directory⟩, [(rootInode, newIno)]⟩⟩
  | rootExisted (name : ByteString) (rootAttr : InoStorageFileAttr) (newIno : StorageIno) (item : StorageDirItem)
      (current : state.phase = .addRoot name rootAttr newIno) :
      Move origin ambient state ⟨state.blocks, .returned (.ok (.existedAlready item))⟩
  | finished (snapshotDir : StorageDirItem) (current : state.phase = .nextJob ⟨snapshotDir, []⟩) :
      Move origin ambient state ⟨state.blocks, .returned (.ok (.newlyCreated snapshotDir))⟩
  | skipped (snapshotDir : StorageDirItem) (originDir destination : ParentStorageIno)
      (copyJobs : List (ParentStorageIno × ParentStorageIno))
      (current : state.phase = .nextJob ⟨snapshotDir, (originDir, destination) :: copyJobs⟩)
      (empty : scannedChildren origin originDir = []) :
      Move origin ambient state ⟨state.blocks, .nextJob ⟨snapshotDir, copyJobs⟩⟩
  | listed (snapshotDir : StorageDirItem) (originDir destination : ParentStorageIno)
      (copyJobs : List (ParentStorageIno × ParentStorageIno))
      (current : state.phase = .nextJob ⟨snapshotDir, (originDir, destination) :: copyJobs⟩) :
      Move origin ambient state ⟨state.blocks,
        .reserve ⟨snapshotDir, copyJobs⟩ destination (scannedChildren origin originDir)⟩
  | reserved (copying : Copying) (destination : ParentStorageIno) (srcList : List DirectoryItem)
      (newInos : StorageIno) (after : Store) (current : state.phase = .reserve copying destination srcList)
      (ran : atomically (metaMutableReserveNewInos cfg srcList.length) state.blocks.store =
        .ok (newInos, after)) :
      Move origin ambient state
        ⟨⟨after, state.blocks.ops⟩, .link copying destination (numbered newInos srcList)⟩
  | linked (copying : Copying) (destination : ParentStorageIno)
      (srcDstMapping : List (DirectoryItem × StorageIno))
      (current : state.phase = .link copying destination srcDstMapping) :
      Move origin ambient state
        ⟨⟨applyAll state.blocks.store (linkWrites destination srcDstMapping), state.blocks.ops⟩,
          .cloneAttrs copying srcDstMapping⟩
  | recorded (copying : Copying) (srcDstMapping : List (DirectoryItem × StorageIno)) (maps : AttrMaps)
      (after : Store) (current : state.phase = .cloneAttrs copying srcDstMapping)
      (ran : atomically (inodeCloneAttrs (parseInodeAttrsKvPairs origin
        (srcDstMapping.map fun child => child.1.ino)) srcDstMapping) state.blocks.store = .ok (maps, after)) :
      Move origin ambient state ⟨⟨after, state.blocks.ops⟩, .cloneData copying maps srcDstMapping⟩
  | drained (copying : Copying) (sizeMap : AttrMaps) (current : state.phase = .cloneData copying sizeMap []) :
      Move origin ambient state ⟨state.blocks, .nextJob copying⟩
  | started (copying : Copying) (sizeMap : AttrMaps) (src : DirectoryItem) (dst : StorageIno)
      (rest : List (DirectoryItem × StorageIno)) (srcSize : InoSize) (hashes : BlockHashes)
      (lengths : ∀ entry ∈ hashes.entries, entry.2.length = cfg.hashLen)
      (current : state.phase = .cloneData copying sizeMap ((src, dst) :: rest)) (isFile : src.typ = .file)
      (sized : (sizeMap .size).lookup src.ino = some srcSize)
      (found : ∀ index : Nat, hashes.lookup index =
        if index < (clonedBlockRange cfg srcSize).2 then scanned cfg origin src.ino index else none) :
      Move origin ambient state
        ⟨⟨state.blocks.store, state.blocks.ops ++ [(Work.clone dst hashes lengths).start]⟩,
          .cloning copying sizeMap rest state.blocks.ops.length⟩
  | passed (copying : Copying) (sizeMap : AttrMaps) (src : DirectoryItem) (dst : StorageIno)
      (rest : List (DirectoryItem × StorageIno))
      (current : state.phase = .cloneData copying sizeMap ((src, dst) :: rest))
      (noBlocks : src.typ = .symlink ∨ src.typ = .file ∧ (sizeMap .size).lookup src.ino = none) :
      Move origin ambient state ⟨state.blocks, .cloneData copying sizeMap rest⟩
  | queued (copying : Copying) (sizeMap : AttrMaps) (src : DirectoryItem) (dst : StorageIno)
      (rest : List (DirectoryItem × StorageIno))
      (current : state.phase = .cloneData copying sizeMap ((src, dst) :: rest))
      (isDir : src.typ = .directory) :
      Move origin ambient state ⟨state.blocks,
        .cloneData ⟨copying.snapshotDir, copying.copyJobs ++ [(src.ino, dst)]⟩ sizeMap rest⟩
  | cloned (copying : Copying) (sizeMap : AttrMaps) (rest : List (DirectoryItem × StorageIno)) (op : Nat)
      (task : CloneTask cfg) (current : state.phase = .cloning copying sizeMap rest op)
      (present : state.blocks.ops[op]? = some (.clone task)) (isDone : task.phase = .done) :
      Move origin ambient state ⟨state.blocks, .cloneData copying sizeMap rest⟩
  | advanced (copying : Copying) (sizeMap : AttrMaps) (rest : List (DirectoryItem × StorageIno)) (op : Nat)
      (blocks : BlockSystem cfg) (current : state.phase = .cloning copying sizeMap rest op)
      (taken : state.blocks.Step (.advance op ambient) blocks) :
      Move origin ambient state ⟨blocks, .cloning copying sizeMap rest op⟩
  | stopped (issue : FsError)
      (failed : ∀ i, state.phase.op = some i → state.blocks.ops[i]? = some (.ended (some issue))) :
      Move origin ambient state ⟨state.blocks, .returned (.error issue)⟩
  | idle : Move origin ambient state state

variable {origin : Store} {ambient : Ambient}

theorem move_of_transact {A : Type} {state : SnapshotSystem cfg} {body : Mini A} {next : A → SnapshotPhase}
    (free : state.phase.op = none)
    (taken : ∀ result after, atomically body state.blocks.store = .ok (result, after) →
      Move origin ambient state ⟨⟨after, state.blocks.ops⟩, next result⟩) :
    Move origin ambient state (state.transact body next) := by
  unfold transact
  split
  · next result after ran => exact taken result after ran
  · next issue ran =>
      apply Move.stopped
      intro i isOp
      rw [free] at isOp
      cases isOp

theorem move_of_addRoot {state : SnapshotSystem cfg} {name : ByteString} {rootAttr : InoStorageFileAttr}
    {newIno : StorageIno} (current : state.phase = .addRoot name rootAttr newIno) :
    Move origin ambient state (state.advance origin ambient) := by
  unfold advance
  rw [current]
  cases found : dirEntry state.blocks.store snapshotParentInode name with
  | none =>
      have free : dirEntry (Txn.mk state.blocks.store []).view (rootArgs name rootAttr).parent
          (rootArgs name rootAttr).name = none := found
      have created : atomically (directoryAddChildCheckedNewInode (rootArgs name rootAttr) newIno ambient.now)
          state.blocks.store = .ok (.newlyCreated ⟨newIno, .directory⟩,
            applyAll state.blocks.store (createdWrites (rootArgs name rootAttr) newIno ambient.now)) := by
        rw [atomically, addNew_created free]
        rfl
      simp only [transact, created]
      exact .rootAdded name rootAttr newIno current
  | some item =>
      have taken : dirEntry (Txn.mk state.blocks.store []).view (rootArgs name rootAttr).parent
          (rootArgs name rootAttr).name = some item := found
      have existed : atomically (directoryAddChildCheckedNewInode (rootArgs name rootAttr) newIno ambient.now)
          state.blocks.store = .ok (.existedAlready item, state.blocks.store) := by
        rw [atomically, addNew_existed taken]
        rfl
      simp only [transact, existed]
      exact .rootExisted name rootAttr newIno item current

theorem move_of_file {state : SnapshotSystem cfg} {copying : Copying} {sizeMap : AttrMaps}
    {src : DirectoryItem} {dst : StorageIno} {rest : List (DirectoryItem × StorageIno)} {srcSize : InoSize}
    (current : state.phase = .cloneData copying sizeMap ((src, dst) :: rest)) (isFile : src.typ = .file)
    (sized : (sizeMap .size).lookup src.ino = some srcSize) :
    Move origin ambient state (state.readSource origin
      (hbGetBlockHashListByBlockRangeChunked cfg src.ino (clonedBlockRange cfg srcSize))
      (state.startClone copying sizeMap rest dst)) := by
  obtain ⟨hashes, ran, found⟩ := readRange_spec cfg origin src.ino (clonedBlockRange cfg srcSize)
  unfold readSource startClone
  simp only [ran]
  split
  · next lengths =>
      apply Move.started copying sizeMap src dst rest srcSize hashes lengths current isFile sized
      intro index
      rw [found]
      have start : (clonedBlockRange cfg srcSize).1 ≤ index := Nat.zero_le index
      simp only [start, true_and]
  · exact .idle

theorem move_of_advance (state : SnapshotSystem cfg) :
    Move origin ambient state (state.advance origin ambient) := by
  rcases state with ⟨blocks, phase⟩
  cases phase with
  | fetchRoot name =>
      unfold advance readSource
      simp only
      split
      · next rootAttr _ _ => exact .rootFetched name rootAttr rfl
      · next issue _ => exact .stopped issue (by simp [SnapshotPhase.op])
  | reserveRoot name rootAttr =>
      apply move_of_transact rfl
      exact fun newIno after ran => .rootReserved name rootAttr newIno after rfl ran
  | addRoot name rootAttr newIno => exact move_of_addRoot rfl
  | nextJob copying =>
      rcases copying with ⟨snapshotDir, _ | ⟨⟨originDir, destination⟩, copyJobs⟩⟩
      · exact .finished snapshotDir rfl
      · unfold advance readSource
        simp only [scan_run]
        split
        · next none => exact .skipped snapshotDir originDir destination copyJobs rfl (List.length_eq_zero_iff.mp none)
        · exact .listed snapshotDir originDir destination copyJobs rfl
  | reserve copying destination srcList =>
      apply move_of_transact rfl
      exact fun newInos after ran => .reserved copying destination srcList newInos after rfl ran
  | link copying destination srcDstMapping =>
      have ran : atomically (linkChildren destination srcDstMapping) blocks.store =
          .ok ((), applyAll blocks.store (linkWrites destination srcDstMapping)) := by
        rw [atomically, linkChildren_run]
        rfl
      unfold advance transact
      simp only [ran]
      exact .linked copying destination srcDstMapping rfl
  | cloneAttrs copying srcDstMapping =>
      apply move_of_transact rfl
      exact fun maps after ran => .recorded copying srcDstMapping maps after rfl ran
  | cloneData copying sizeMap rest =>
      rcases rest with _ | ⟨⟨src, dst⟩, rest⟩
      · exact .drained copying sizeMap rfl
      · unfold advance
        simp only
        split
        · next isFile =>
            split
            · next srcSize sized => exact move_of_file rfl isFile sized
            · next unsized => exact .passed copying sizeMap src dst rest rfl (Or.inr ⟨isFile, unsized⟩)
        · next isDir => exact .queued copying sizeMap src dst rest rfl isDir
        · next isLink => exact .passed copying sizeMap src dst rest rfl (Or.inl isLink)
  | cloning copying sizeMap rest op =>
      unfold advance
      simp only
      split
      · next present => exact .cloned copying sizeMap rest op _ rfl present rfl
      · next issue present =>
          apply Move.stopped
          intro i isOp
          rw [← Option.some.inj isOp]
          exact present
      · split
        · next blocks taken => exact .advanced copying sizeMap rest op blocks rfl taken
        · exact .idle
  | returned result => exact .idle

end SnapshotSystem

structure Allocated (start : StorageIno) (origin : Store) : Prop where
  next : origin.lookup .metaMutable = some ⟨start⟩
  reserved : firstDataInode ≤ start
  unused : UnusedFrom start origin
  entries : ∀ dir name item, dirEntry origin dir name = some item →
    item.ino < start ∧ item.ino ≠ snapshotParentInode

def Batch.limit (origin : Store) (batch : Batch) : StorageIno :=
  batch.base + (scannedChildren origin batch.origin).length

/-- The entries of a directory are linked and have their records; the blocks of those in
front are mapped, and none that are not touched yet. -/
structure Filling (cfg : TiFsConfig) (origin : Store) (start dir : StorageIno) (done : List Batch) (batch : Batch)
    (jobs : List (ParentStorageIno × ParentStorageIno)) (front touched : List (DirectoryItem × StorageIno))
    (store : Store) : Prop where
  above : start ≤ batch.base
  within : ∀ child ∈ front, child ∈ batch.children origin
  copies : Copies cfg origin start dir done [(batch.origin, batch.destination)] jobs (batch.limit origin) store
  linked : batch.Linked origin store
  recorded : batch.Recorded origin store
  mapped : ∀ child ∈ front, ∀ index, mapping store ⟨child.2, index⟩ = copiedMapping cfg origin child.1 index
  queued : ∀ child ∈ front, child.1.typ = .directory → (child.1.ino, child.2) ∈ jobs
  unmapped : ∀ ino, batch.base ≤ ino → ino ∉ touched.map Prod.snd → ∀ index,
    mapping store ⟨ino, index⟩ = none
  entries : ∀ ino, batch.base ≤ ino → ∀ name, dirEntry store ino name = none
  numbers : ∀ job ∈ pairs done [(batch.origin, batch.destination)] jobs,
    job.2 < batch.base ∨ job.2 ∈ front.map Prod.snd
  older : ∀ before ∈ done, ∀ child ∈ before.children origin, child.2 < batch.base
  unused : UnusedFrom (batch.limit origin) store
  next : store.lookup .metaMutable = some ⟨batch.limit origin⟩

def Batch.Sized (origin : Store) (sizeMap : AttrMaps) (batch : Batch) : Prop :=
  ∀ child ∈ batch.children origin, (sizeMap .size).lookup child.1.ino = inoSize origin child.1.ino

structure Cloning {cfg : TiFsConfig} (origin store : Store) (child : DirectoryItem × StorageIno)
    (task : CloneTask cfg) : Prop where
  dst : task.dst = child.2
  hashes : ∀ index : Nat, task.hashes.lookup index = copiedMapping cfg origin child.1 index
  before : task.phase ≠ .done → ∀ index, mapping store ⟨child.2, index⟩ = none
  behind : task.phase = .done → ∀ index, mapping store ⟨child.2, index⟩ = copiedMapping cfg origin child.1 index

def SnapshotPhase.Progress {cfg : TiFsConfig} (origin : Store) (start : StorageIno) (blocks : BlockSystem cfg) :
    SnapshotPhase → Prop
  | .fetchRoot _ => blocks.store.lookup .metaMutable = some ⟨start⟩ ∧ UnusedFrom start blocks.store
  | .reserveRoot _ _ => blocks.store.lookup .metaMutable = some ⟨start⟩ ∧ UnusedFrom start blocks.store
  | .addRoot _ _ newIno => newIno = start ∧ blocks.store.lookup .metaMutable = some ⟨start + 1⟩ ∧
      UnusedFrom start blocks.store
  | .nextJob copying => ∃ done next,
      Copies cfg origin start copying.snapshotDir.ino done [] copying.copyJobs next blocks.store ∧
        UnusedFrom next blocks.store ∧ blocks.store.lookup .metaMutable = some ⟨next⟩
  | .reserve copying destination srcList => ∃ done next source,
      Copies cfg origin start copying.snapshotDir.ino done [] ((source, destination) :: copying.copyJobs) next
          blocks.store ∧
        UnusedFrom next blocks.store ∧ blocks.store.lookup .metaMutable = some ⟨next⟩ ∧
        srcList = scannedChildren origin source
  | .link copying destination srcDstMapping => ∃ (done : List Batch) (batch : Batch), batch.destination = destination ∧
      Copies cfg origin start copying.snapshotDir.ino done []
          ((batch.origin, batch.destination) :: copying.copyJobs) batch.base blocks.store ∧
        UnusedFrom batch.base blocks.store ∧
        blocks.store.lookup .metaMutable = some ⟨batch.limit origin⟩ ∧ srcDstMapping = batch.children origin
  | .cloneAttrs copying srcDstMapping => ∃ (done : List Batch) (batch : Batch),
      Copies cfg origin start copying.snapshotDir.ino done [(batch.origin, batch.destination)] copying.copyJobs
          batch.base blocks.store ∧
        batch.Linked origin blocks.store ∧ UnusedFrom batch.base blocks.store ∧
        blocks.store.lookup .metaMutable = some ⟨batch.limit origin⟩ ∧ srcDstMapping = batch.children origin
  | .cloneData copying sizeMap rest => ∃ (done : List Batch) (batch : Batch) (front : List (DirectoryItem × StorageIno)),
      batch.children origin = front ++ rest ∧
      batch.Sized origin sizeMap ∧
      Filling cfg origin start copying.snapshotDir.ino done batch copying.copyJobs front front blocks.store
  | .cloning copying sizeMap rest op => ∃ (done : List Batch) (batch : Batch) (front : List (DirectoryItem × StorageIno))
      (child : DirectoryItem × StorageIno) (task : CloneTask cfg),
      batch.children origin = front ++ child :: rest ∧
      batch.Sized origin sizeMap ∧
      Filling cfg origin start copying.snapshotDir.ino done batch copying.copyJobs front (front ++ [child])
        blocks.store ∧
      child.1.typ ≠ .directory ∧ blocks.ops[op]? = some (.clone task) ∧ Cloning origin blocks.store child task
  | .returned (.ok (.newlyCreated snapshotDir)) => ∃ done next,
      Copies cfg origin start snapshotDir.ino done [] [] next blocks.store
  | .returned _ => True

section Filling

variable {cfg : TiFsConfig} {origin store after : Store} {start dir : StorageIno} {done : List Batch}
  {batch : Batch} {jobs : List (ParentStorageIno × ParentStorageIno)}
  {front touched : List (DirectoryItem × StorageIno)}

theorem Batch.child_bounds {child : DirectoryItem × StorageIno} (member : child ∈ batch.children origin) :
    batch.base ≤ child.2 ∧ child.2 < batch.limit origin :=
  numbered_bounds member

theorem Batch.child_new {child : DirectoryItem × StorageIno} {rest : List (DirectoryItem × StorageIno)}
    (split : batch.children origin = front ++ child :: rest) :
    child ∈ batch.children origin ∧ child.2 ∉ front.map Prod.snd := by
  have distinct : ((batch.children origin).map Prod.snd).Nodup := numbered_dsts
  rw [split, List.map_append, List.map_cons] at distinct
  rw [split]
  refine ⟨List.mem_append_right _ List.mem_cons_self, ?_⟩
  exact fun inFront => (List.nodup_append.mp distinct).2.2 _ inFront _ List.mem_cons_self rfl

theorem Filling.congr (filling : Filling cfg origin start dir done batch jobs front touched store)
    (hidden : StorageIno → Prop)
    (late : ∀ ino, hidden ino → batch.base ≤ ino ∧ ino < batch.limit origin ∧
      ino ∉ front.map Prod.snd ∧ ino ∈ touched.map Prod.snd)
    (same : ∀ key ino, Key.owner key = some ino → start ≤ ino →
      (∀ addr, key = .blockHash addr → ¬ hidden addr.ino) → after.lookup key = store.lookup key)
    (next : after.lookup .metaMutable = store.lookup .metaMutable) :
    Filling cfg origin start dir done batch jobs front touched after := by
  have entry : ∀ parent, start ≤ parent → ∀ name, dirEntry after parent name = dirEntry store parent name :=
    fun parent above name => same (.directoryChild parent name) parent rfl above (by simp)
  have record : ∀ ino, start ≤ ino → ∀ kind, after.lookup (.inodeX ino kind) = store.lookup (.inodeX ino kind) :=
    fun ino above kind => same (.inodeX ino kind) ino rfl above (by simp)
  have block : ∀ ino, start ≤ ino → ¬ hidden ino → ∀ index,
      mapping after ⟨ino, index⟩ = mapping store ⟨ino, index⟩ := by
    intro ino above visible index
    apply same (.blockHash ⟨ino, index⟩) ino rfl above
    intro addr isAddr
    rw [← Key.blockHash.inj isAddr]
    exact visible
  constructor
  · exact filling.above
  · exact filling.within
  · apply filling.copies.congr
    · intro job member
      apply entry
      apply (filling.copies.bounds job _).1
      rcases List.mem_append.mp member with inDone | pending
      · exact List.mem_append_left _ inDone
      · exact List.mem_append_right _ (List.mem_append_right _ pending)
    · intro before member child isChild
      exact record child.2 (filling.copies.owned before member child isChild).1
    · intro before member child isChild
      apply block child.2 (filling.copies.owned before member child isChild).1
      intro isHidden
      exact absurd (filling.older before member child isChild) (Nat.not_lt.mpr (late child.2 isHidden).1)
  · apply filling.linked.congr
    apply entry
    have listed : (batch.origin, batch.destination) ∈ pairs done [(batch.origin, batch.destination)] jobs :=
      List.mem_append_right _ List.mem_cons_self
    exact (filling.copies.bounds _ listed).1
  · apply filling.recorded.congr
    intro child member
    exact record child.2 (filling.above.trans (Batch.child_bounds member).1)
  · intro child member index
    rw [block child.2 (filling.above.trans (Batch.child_bounds (filling.within child member)).1)]
    · exact filling.mapped child member index
    · intro isHidden
      exact (late child.2 isHidden).2.2.1 (List.mem_map_of_mem member)
  · exact filling.queued
  · intro ino above outside index
    rw [block ino (filling.above.trans above)]
    · exact filling.unmapped ino above outside index
    · intro isHidden
      exact outside (late ino isHidden).2.2.2
  · intro ino above name
    rw [entry ino (filling.above.trans above)]
    exact filling.entries ino above name
  · exact filling.numbers
  · exact filling.older
  · apply filling.unused.congr
    intro key ino isOwner above
    have behind : start ≤ ino := filling.above.trans ((Nat.le_add_right _ _).trans above)
    apply same key ino isOwner behind
    rintro addr rfl isHidden
    have isIno : addr.ino = ino := Option.some.inj isOwner
    exact absurd (late addr.ino isHidden).2.1 (Nat.not_lt.mpr (isIno ▸ above))
  · rw [next]
    exact filling.next

theorem Filling.touch (filling : Filling cfg origin start dir done batch jobs front touched store)
    (child : DirectoryItem × StorageIno) :
    Filling cfg origin start dir done batch jobs front (touched ++ [child]) store :=
  { filling with
    unmapped := fun ino above outside => filling.unmapped ino above fun inTouched =>
      outside (by rw [List.map_append]; exact List.mem_append_left _ inTouched) }

theorem Filling.pass (filling : Filling cfg origin start dir done batch jobs front touched store)
    {child : DirectoryItem × StorageIno} {more : List (ParentStorageIno × ParentStorageIno)}
    (copies : Copies cfg origin start dir done [(batch.origin, batch.destination)] (jobs ++ more)
      (batch.limit origin) store)
    (member : child ∈ batch.children origin)
    (mapped : ∀ index, mapping store ⟨child.2, index⟩ = copiedMapping cfg origin child.1 index)
    (numbers : ∀ job ∈ more, job.2 = child.2)
    (queued : child.1.typ = .directory → (child.1.ino, child.2) ∈ more) :
    Filling cfg origin start dir done batch (jobs ++ more) (front ++ [child]) touched store :=
  { filling with
    copies := copies
    within := by
      intro other isOther
      rcases List.mem_append.mp isOther with inFront | isChild
      · exact filling.within other inFront
      · rw [List.mem_singleton.mp isChild]
        exact member
    mapped := by
      intro other isOther
      rcases List.mem_append.mp isOther with inFront | isChild
      · exact filling.mapped other inFront
      · rw [List.mem_singleton.mp isChild]
        exact mapped
    queued := by
      intro other isOther isDir
      rcases List.mem_append.mp isOther with inFront | isChild
      · exact List.mem_append_left _ (filling.queued other inFront isDir)
      · rw [List.mem_singleton.mp isChild] at isDir ⊢
        exact List.mem_append_right _ (queued isDir)
    numbers := by
      intro job listed
      rw [pairs, ← List.append_assoc, ← List.append_assoc, List.append_assoc (List.map _ done)] at listed
      rw [List.map_append]
      rcases List.mem_append.mp listed with before | isNew
      · exact (filling.numbers job before).imp_right (List.mem_append_left _)
      · right
        rw [numbers job isNew]
        exact List.mem_append_right _ (List.mem_singleton_self _) }

theorem Filling.new_number (filling : Filling cfg origin start dir done batch jobs front touched store)
    {child : DirectoryItem × StorageIno} (member : child ∈ batch.children origin)
    (new : child.2 ∉ front.map Prod.snd) :
    child.2 ∉ (pairs done [(batch.origin, batch.destination)] jobs).map Prod.snd := by
  intro listed
  obtain ⟨job, inPairs, isChild⟩ := List.mem_map.mp listed
  rcases filling.numbers job inPairs with below | inFront
  · rw [isChild] at below
    exact absurd below (Nat.not_lt.mpr (Batch.child_bounds member).1)
  · exact new (isChild ▸ inFront)

theorem Filling.passed (filling : Filling cfg origin start dir done batch jobs front touched store)
    {child : DirectoryItem × StorageIno} (member : child ∈ batch.children origin)
    (mapped : ∀ index, mapping store ⟨child.2, index⟩ = copiedMapping cfg origin child.1 index)
    (noDir : child.1.typ ≠ .directory) :
    Filling cfg origin start dir done batch jobs (front ++ [child]) touched store := by
  have copies := filling.copies
  rw [← List.append_nil jobs] at copies
  have later := filling.pass copies member mapped (by simp) fun isDir => absurd isDir noDir
  rw [List.append_nil] at later
  exact later

theorem Filling.queue (filling : Filling cfg origin start dir done batch jobs front touched store)
    {child : DirectoryItem × StorageIno} (member : child ∈ batch.children origin)
    (new : child.2 ∉ front.map Prod.snd)
    (unmapped : ∀ index, mapping store ⟨child.2, index⟩ = none) (isDir : child.1.typ = .directory) :
    Filling cfg origin start dir done batch (jobs ++ [(child.1.ino, child.2)]) (front ++ [child]) touched store := by
  have bounds := Batch.child_bounds member
  apply filling.pass
  · apply filling.copies.pushed
    · exact filling.entries child.2 bounds.1
    · exact ⟨filling.above.trans bounds.1, bounds.2⟩
    · exact filling.new_number member new
  · exact member
  · intro index
    rw [unmapped index, copiedMapping, isDir]
  · intro job isJob
    rw [List.mem_singleton.mp isJob]
  · exact fun _ => List.mem_singleton_self _

theorem Filling.complete (filling : Filling cfg origin start dir done batch jobs front touched store)
    (all : batch.children origin = front) :
    Copies cfg origin start dir (done ++ [batch]) [] jobs (batch.limit origin) store := by
  apply filling.copies.finished
  · refine ⟨filling.linked, filling.recorded, ?_⟩
    rw [all]
    exact filling.mapped
  · intro child member
    exact ⟨filling.above.trans (Batch.child_bounds member).1, (Batch.child_bounds member).2⟩
  · rw [all]
    intro child member isDir
    exact List.mem_append_right _ (List.mem_append_right _ (filling.queued child member isDir))

end Filling

structure CopiesKept (start : StorageIno) (store after : Store) : Prop where
  owned : ∀ key ino, Key.owner key = some ino → start ≤ ino → after.lookup key = store.lookup key
  next : after.lookup .metaMutable = store.lookup .metaMutable

section Quiet

variable {cfg : TiFsConfig} {origin store after : Store} {start : StorageIno}

theorem UnusedFrom.undisturbed {low : StorageIno} (unused : UnusedFrom low store) (above : start ≤ low)
    (quiet : CopiesKept start store after) : UnusedFrom low after :=
  unused.congr fun key ino isOwner isAbove => quiet.owned key ino isOwner (above.trans isAbove)

theorem Filling.undisturbed {dir : StorageIno} {done : List Batch} {batch : Batch}
    {jobs : List (ParentStorageIno × ParentStorageIno)} {front touched : List (DirectoryItem × StorageIno)}
    (filling : Filling cfg origin start dir done batch jobs front touched store)
    (quiet : CopiesKept start store after) :
    Filling cfg origin start dir done batch jobs front touched after := by
  apply filling.congr fun _ => False
  · exact fun _ isHidden => isHidden.elim
  · exact fun key ino isOwner above _ => quiet.owned key ino isOwner above
  · exact quiet.next

theorem Copies.low_above {dir low : StorageIno} {done : List Batch}
    {current pending : List (ParentStorageIno × ParentStorageIno)}
    (copies : Copies cfg origin start dir done current pending low store) : start ≤ low :=
  ((copies.bounds _ copies.rooted).1.trans_lt (copies.bounds _ copies.rooted).2).le

/-- The steps of others leave the progress of a copy as it is. -/
theorem SnapshotPhase.Progress.undisturbed {phase : SnapshotPhase} {blocks : BlockSystem cfg}
    {ops : List (Op cfg)} (progress : phase.Progress origin start blocks)
    (quiet : CopiesKept start blocks.store after)
    (kept : ∀ i op, phase.op = some i → blocks.ops[i]? = some op → ops[i]? = some op) :
    phase.Progress origin start ⟨after, ops⟩ := by
  cases phase with
  | fetchRoot name => exact ⟨quiet.next.trans progress.1, progress.2.undisturbed le_rfl quiet⟩
  | reserveRoot name rootAttr => exact ⟨quiet.next.trans progress.1, progress.2.undisturbed le_rfl quiet⟩
  | addRoot name rootAttr newIno =>
      exact ⟨progress.1, quiet.next.trans progress.2.1, progress.2.2.undisturbed le_rfl quiet⟩
  | nextJob copying =>
      obtain ⟨done, next, copies, unused, stored⟩ := progress
      exact ⟨done, next, copies.congr_owned quiet.owned, unused.undisturbed copies.low_above quiet,
        quiet.next.trans stored⟩
  | reserve copying destination srcList =>
      obtain ⟨done, next, source, copies, unused, stored, isList⟩ := progress
      exact ⟨done, next, source, copies.congr_owned quiet.owned,
        unused.undisturbed copies.low_above quiet, quiet.next.trans stored, isList⟩
  | link copying destination srcDstMapping =>
      obtain ⟨done, batch, isDestination, copies, unused, stored, isMapping⟩ := progress
      exact ⟨done, batch, isDestination, copies.congr_owned quiet.owned,
        unused.undisturbed copies.low_above quiet, quiet.next.trans stored, isMapping⟩
  | cloneAttrs copying srcDstMapping =>
      obtain ⟨done, batch, copies, linked, unused, stored, isMapping⟩ := progress
      refine ⟨done, batch, copies.congr_owned quiet.owned, linked.congr ?_,
        unused.undisturbed copies.low_above quiet, quiet.next.trans stored, isMapping⟩
      intro name
      apply quiet.owned (.directoryChild batch.destination name) batch.destination rfl
      have listed : (batch.origin, batch.destination) ∈
          pairs done [(batch.origin, batch.destination)] copying.copyJobs :=
        List.mem_append_right _ List.mem_cons_self
      exact (copies.bounds _ listed).1
  | cloneData copying sizeMap rest =>
      obtain ⟨done, batch, front, split, sized, filling⟩ := progress
      exact ⟨done, batch, front, split, sized, filling.undisturbed quiet⟩
  | cloning copying sizeMap rest op =>
      obtain ⟨done, batch, front, child, task, split, sized, filling, noDir, present, cloning⟩ := progress
      have member : child ∈ batch.children origin := by
        rw [split]
        exact List.mem_append_right _ List.mem_cons_self
      have mappings : ∀ index, mapping after ⟨child.2, index⟩ = mapping blocks.store ⟨child.2, index⟩ :=
        fun index => quiet.owned (.blockHash ⟨child.2, index⟩) child.2 rfl
          (filling.above.trans (Batch.child_bounds member).1)
      refine ⟨done, batch, front, child, task, split, sized, filling.undisturbed quiet, noDir,
        kept op _ rfl present, cloning.dst, cloning.hashes, ?_, ?_⟩
      · exact fun running index => (mappings index).trans (cloning.before running index)
      · exact fun isDone index => (mappings index).trans (cloning.behind isDone index)
  | returned result =>
      match result, progress with
      | .ok (.newlyCreated snapshotDir), ⟨done, next, copies⟩ =>
          exact ⟨done, next, copies.congr_owned quiet.owned⟩
      | .ok (.existedAlready item), _ => trivial
      | .error issue, _ => trivial

end Quiet

section Clone

variable {cfg : TiFsConfig} {origin store after : Store} {child : DirectoryItem × StorageIno}
  {task next : CloneTask cfg}

theorem Cloning.step (cloning : Cloning origin store child task) (move : CloneMove task store next after) :
    Cloning origin after child next := by
  cases move with
  | incremented prev after current counted =>
      refine ⟨cloning.dst, cloning.hashes, ?_, by simp⟩
      intro _ index
      have same : mapping after ⟨child.2, index⟩ = mapping store ⟨child.2, index⟩ :=
        counted.frame (.blockHash ⟨child.2, index⟩) (by simp)
      rw [same]
      exact cloning.before (by rw [current]; simp) index
  | placed decrements after current replaced =>
      refine ⟨cloning.dst, cloning.hashes, by simp, ?_⟩
      intro _ index
      rw [← cloning.hashes index, ← cloning.dst]
      cases found : task.hashes.lookup index with
      | some hash =>
          have listed : (⟨task.dst, index⟩, some hash) ∈ task.addresses :=
            List.mem_map.mpr ⟨⟨index, hash⟩, AList.mem_lookup_iff.mp found, rfl⟩
          exact replaced.placed _ listed
      | none =>
          rw [replaced.kept, cloning.dst]
          · exact cloning.before (by rw [current]; simp) index
          · intro listed
            obtain ⟨address, member, isAddress⟩ := List.mem_map.mp listed
            obtain ⟨entry, isEntry, rfl⟩ := List.mem_map.mp member
            have isIndex : entry.1 = index := (BlockAddress.mk.inj isAddress).2
            have known : index ∈ task.hashes := isIndex ▸ List.mem_map_of_mem isEntry
            exact absurd known (AList.lookup_eq_none.mp found)
  | finished current => exact cloning

theorem CloneMove.frame (move : CloneMove task store next after) {key : Key}
    (noCounter : ∀ hash, key ≠ .countedNamedUsages hash) (noBlock : ∀ index, key ≠ .blockHash ⟨task.dst, index⟩) :
    after.lookup key = store.lookup key := by
  cases move with
  | incremented prev after current counted => exact counted.frame key noCounter
  | placed decrements after current replaced =>
      by_cases isMapping : ∃ addr, key = .blockHash addr
      · obtain ⟨addr, rfl⟩ := isMapping
        apply replaced.kept addr
        intro listed
        obtain ⟨address, member, rfl⟩ := List.mem_map.mp listed
        obtain ⟨entry, _, rfl⟩ := List.mem_map.mp member
        exact noBlock _ rfl
      · exact replaced.frame key fun addr same => isMapping ⟨addr, same⟩
  | finished current => rfl

end Clone

section Moves

variable {cfg : TiFsConfig} {origin : Store} {start : StorageIno} {ops : List (Op cfg)} {store after : Store}
  {copying : Copying}

theorem ownerless_metaMutable {key : Key} {ino : StorageIno} (isOwner : key.owner = some ino) :
    key ≠ .metaMutable := by
  rintro rfl
  cases isOwner

theorem UnusedFrom.reserve {low next : StorageIno} (unused : UnusedFrom low store) :
    UnusedFrom low (applyAll store [Mutation.put .metaMutable ⟨next⟩]) := by
  apply unused.congr
  intro key ino isOwner _
  exact lookup_put_of_ne store _ key _ (ownerless_metaMutable isOwner)

theorem Copies.reserve {dir low next : StorageIno} {done : List Batch}
    {current pending : List (ParentStorageIno × ParentStorageIno)}
    (copies : Copies cfg origin start dir done current pending low store) :
    Copies cfg origin start dir done current pending low (applyAll store [Mutation.put .metaMutable ⟨next⟩]) := by
  apply copies.congr_owned
  intro key ino isOwner _
  exact lookup_put_of_ne store _ key _ (ownerless_metaMutable isOwner)

theorem lookup_created {args : NewInode} {newIno : StorageIno} {now : SystemTime} {key : Key}
    (noRecord : ∀ kind, key ≠ .inodeX newIno kind) (noEntry : key ≠ .directoryChild args.parent args.name)
    (noLink : key ≠ .parentLink newIno args.parent args.name) :
    (applyAll store (createdWrites args newIno now)).lookup key = store.lookup key := by
  apply lookup_applyAll_of_notMem
  cases isInline : args.inlineData with
  | none => simp [createdWrites, isInline, noRecord, noEntry, noLink]
  | some data => simp [createdWrites, isInline, noRecord, noEntry, noLink]

theorem progress_rootAdded (below : snapshotParentInode < start) {name : ByteString}
    {rootAttr : InoStorageFileAttr} {now : SystemTime}
    (stored : store.lookup .metaMutable = some ⟨start + 1⟩) (unused : UnusedFrom start store) :
    SnapshotPhase.Progress origin start
      (⟨applyAll store (createdWrites (SnapshotSystem.rootArgs name rootAttr) start now), ops⟩ : BlockSystem cfg)
      (.nextJob ⟨⟨start, .directory⟩, [(rootInode, start)]⟩) := by
  have isPair : ∀ job ∈ pairs [] [] [(rootInode, start)], job.2 = start := by
    intro job member
    rw [List.mem_singleton.mp member]
  have parent : (SnapshotSystem.rootArgs name rootAttr).parent = snapshotParentInode := rfl
  refine ⟨[], start + 1, ⟨by simp, by simp, ?_, ?_, by simp [pairs], by simp, by simp [pairs]⟩, ?_, ?_⟩
  · intro job member entry
    rw [isPair job member, dirEntry, lookup_created (by simp) _ (by simp)]
    · exact unused (.directoryChild start entry) start rfl le_rfl
    · intro same
      have isParent : start = snapshotParentInode := (Key.directoryChild.inj same).1
      exact absurd isParent (Nat.ne_of_gt below)
  · intro job member
    rw [isPair job member]
    exact ⟨le_rfl, Nat.lt_succ_self start⟩
  · intro key ino isOwner above
    have newer : start < ino := above
    rw [lookup_created]
    · exact unused key ino isOwner newer.le
    · rintro kind rfl
      exact absurd (Option.some.inj isOwner) (Nat.ne_of_lt newer)
    · rintro rfl
      exact absurd (Option.some.inj isOwner) (Nat.ne_of_lt (below.trans newer))
    · rintro rfl
      cases isOwner
  · rw [lookup_created (by simp) (by simp) (by simp)]
    exact stored

theorem Copies.skip {dir low : StorageIno} {done : List Batch} {source destination : ParentStorageIno}
    {pending : List (ParentStorageIno × ParentStorageIno)}
    (copies : Copies cfg origin start dir done [] ((source, destination) :: pending) low store)
    (empty : scannedChildren origin source = []) :
    Copies cfg origin start dir (done ++ [⟨source, destination, low⟩]) [] pending low store := by
  have noChild : (⟨source, destination, low⟩ : Batch).children origin = [] := by
    rw [Batch.children, empty]
    rfl
  apply copies.taken.finished
  · refine ⟨⟨?_, ?_⟩, ?_, ?_⟩
    · intro child member
      rw [noChild] at member
      cases member
    · exact fun name _ => copies.empty (source, destination) List.mem_cons_self name
    · intro front child back split
      rw [noChild] at split
      cases front <;> cases split
    · intro child member
      rw [noChild] at member
      cases member
  · intro child member
    rw [noChild] at member
    cases member
  · intro child member
    rw [noChild] at member
    cases member

theorem progress_linked {dir : StorageIno} {done : List Batch} {batch : Batch}
    {pending : List (ParentStorageIno × ParentStorageIno)}
    (copies : Copies cfg origin start dir done [] ((batch.origin, batch.destination) :: pending) batch.base store)
    (unused : UnusedFrom batch.base store) :
    Copies cfg origin start dir done [(batch.origin, batch.destination)] pending batch.base
        (applyAll store (linkWrites batch.destination (batch.children origin))) ∧
      batch.Linked origin (applyAll store (linkWrites batch.destination (batch.children origin))) ∧
      UnusedFrom batch.base (applyAll store (linkWrites batch.destination (batch.children origin))) := by
  have isDestination : (batch.origin, batch.destination) ∈ pairs done [(batch.origin, batch.destination)] pending :=
    List.mem_append_right _ List.mem_cons_self
  refine ⟨?_, ⟨?_, ?_⟩, ?_⟩
  · apply copies.taken.congr
    · intro job member name
      apply dirEntry_linked_of_notMem
      left
      intro same
      have distinct := copies.distinct
      rw [pairs, List.map_append, List.nil_append, List.map_cons] at distinct
      have inOthers : job.2 ∈ (done.map fun batch => (batch.origin, batch.destination)).map Prod.snd ++
          pending.map Prod.snd := by
        rw [← List.map_append]
        exact List.mem_map_of_mem member
      exact (List.nodup_cons.mp (List.nodup_middle.mp distinct)).1 (same ▸ inOthers)
    · intro before _ child _ kind
      exact lookup_linked store (by simp) (by simp)
    · intro before _ child _ index
      exact lookup_linked store (by simp) (by simp)
  · exact fun child member => dirEntry_linked_of_mem store numbered_names member
  · intro name outside
    rw [dirEntry_linked_of_notMem store (Or.inr outside)]
    exact copies.empty (batch.origin, batch.destination) List.mem_cons_self name
  · apply unused.congr
    intro key ino isOwner above
    apply lookup_linked
    · rintro name rfl
      have isIno : batch.destination = ino := Option.some.inj isOwner
      exact absurd (copies.taken.bounds _ isDestination).2 (Nat.not_lt.mpr (isIno ▸ above))
    · rintro other name rfl
      cases isOwner

theorem filling_of_recorded {dir : StorageIno} {done : List Batch} {batch : Batch}
    {pending : List (ParentStorageIno × ParentStorageIno)} {maps : AttrMaps}
    (copies : Copies cfg origin start dir done [(batch.origin, batch.destination)] pending batch.base store)
    (linked : batch.Linked origin store) (unused : UnusedFrom batch.base store)
    (stored : store.lookup .metaMutable = some ⟨batch.limit origin⟩)
    (ran : atomically (inodeCloneAttrs (parseInodeAttrsKvPairs origin
      ((batch.children origin).map fun child => child.1.ino)) (batch.children origin)) store = .ok (maps, after)) :
    batch.Sized origin maps ∧ Filling cfg origin start dir done batch pending [] [] after := by
  obtain ⟨rest, txn, cloned, sizes, records, frame⟩ := inodeCloneAttrs_spec
    (parseInodeAttrsKvPairs origin ((batch.children origin).map fun child => child.1.ino))
    (batch.children origin) numbered_dsts ⟨store, []⟩
  rw [atomically_eq_ok cloned] at ran
  obtain ⟨rfl, rfl⟩ := Prod.mk.inj (Except.ok.inj ran)
  have listed : ∀ child ∈ batch.children origin,
      child.1.ino ∈ (batch.children origin).map fun child => child.1.ino :=
    fun child member => List.mem_map_of_mem member
  -- Only records of the new numbers are written.
  have kept : ∀ key : Key, (∀ ino kind, batch.base ≤ ino → ino < batch.limit origin → key ≠ .inodeX ino kind) →
      txn.view.lookup key = store.lookup key := by
    intro key other
    apply frame
    intro child member kind _
    exact other child.2 kind (Batch.child_bounds member).1 (Batch.child_bounds member).2
  have isDestination : (batch.origin, batch.destination) ∈ pairs done [(batch.origin, batch.destination)] pending :=
    List.mem_append_right _ List.mem_cons_self
  constructor
  · intro child member
    rw [sizes, lookup_parseInodeAttrs origin (listed child member) (by decide)]
    rfl
  · constructor
    · exact copies.low_above
    · simp
    · apply (copies.mono (Nat.le_add_right _ _)).congr
      · intro job _ name
        exact kept (.directoryChild job.2 name) (by simp)
      · intro before member child isChild kind
        apply kept
        intro ino other above _ same
        have isIno : child.2 = ino := (Key.inodeX.inj same).1
        exact absurd (copies.owned before member child isChild).2 (Nat.not_lt.mpr (isIno ▸ above))
      · intro before _ child _ index
        exact kept (.blockHash ⟨child.2, index⟩) (by simp)
    · exact linked.congr fun name => kept (.directoryChild batch.destination name) (by simp)
    · intro front child back split kind
      have member : child ∈ batch.children origin := by
        rw [split]
        exact List.mem_append_right _ List.mem_cons_self
      have fresh : store.lookup (.inodeX child.2 kind) = none :=
        unused (.inodeX child.2 kind) child.2 rfl (Batch.child_bounds member).1
      by_cases isCloned : kind ∈ clonedKinds
      · have written := records front child back split kind isCloned
        rw [Txn.view_start, fresh, Option.or_none] at written
        rw [written, clonedRecord, copiedRecord, lookup_parseInodeAttrs origin (listed child member) isCloned]
        by_cases again : kind ∈ removedKinds ∧ child.1.ino ∈ front.map fun other => other.1.ino
        · rw [if_pos again, if_neg (fun both => both.2 again)]
        · rw [if_neg again, if_pos ⟨isCloned, again⟩]
      · rw [frame, Txn.view_start, fresh, copiedRecord, if_neg (fun both => isCloned both.1)]
        intro other _ otherKind isOther same
        exact isCloned ((Key.inodeX.inj same).2 ▸ isOther)
    · simp
    · simp
    · intro ino above _ index
      have same : mapping txn.view ⟨ino, index⟩ = mapping store ⟨ino, index⟩ :=
        kept (.blockHash ⟨ino, index⟩) (by simp)
      rw [same]
      exact unused (.blockHash ⟨ino, index⟩) ino rfl above
    · intro ino above name
      have same : dirEntry txn.view ino name = dirEntry store ino name :=
        kept (.directoryChild ino name) (by simp)
      rw [same]
      exact unused (.directoryChild ino name) ino rfl above
    · exact fun job member => Or.inl (copies.bounds job member).2
    · exact fun before member child isChild => (copies.owned before member child isChild).2
    · intro key ino isOwner above
      rw [kept]
      · exact unused key ino isOwner ((Nat.le_add_right _ _).trans above)
      · rintro other kind _ below rfl
        have isIno : other = ino := Option.some.inj isOwner
        exact absurd below (Nat.not_lt.mpr (isIno ▸ above))
    · rw [kept _ (by simp)]
      exact stored

end Moves

end TiFs
