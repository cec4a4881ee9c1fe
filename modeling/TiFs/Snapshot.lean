import TiFs.BlockEffects
import TiFs.Namespace

/-! `snapshot_create`: a copy of the tree under the root that is read from one snapshot
of the store and written by a transaction for each of its parts. Other operations on
block data and the unlinking of files run beside it. -/

namespace TiFs

open KeyValue Tables

def clonedKinds : List InoMetadata :=
  [.description, .unixAttributes, .accessTime, .modificationTime, .inlineData, .size]

/-- `InodesAttrsHashMaps`: a map for each kind of record. -/
abbrev AttrMaps := (kind : InoMetadata) → AList fun _ : StorageIno => kind.Value

/-- The records of the inodes that `batch_get` finds, sorted by their kind as
`parse_inode_attrs_kv_pairs` does. -/
def parseInodeAttrsKvPairs (src : Store) (inos : List StorageIno) : AttrMaps := fun kind =>
  if kind ∈ clonedKinds then
    collect (inos.filterMap fun ino => (src.lookup (.inodeX ino kind)).map fun value => (ino, value))
  else ∅

def renumber (dst : StorageIno) : (kind : InoMetadata) → kind.Value → kind.Value
  | .description, value => { value with ino := dst }
  | _, value => value

def cloneRemoved (src dst : StorageIno) (maps : AttrMaps) (kind : InoMetadata) : Mini AttrMaps :=
  match (maps kind).lookup src with
  | some value => do
      put (.inodeX dst kind) (renumber dst kind value)
      return Function.update maps kind ((maps kind).erase src)
  | none => return maps

/-- The records that are taken out of their maps; the size stays in its map. -/
def removedKinds : List InoMetadata :=
  [.description, .unixAttributes, .accessTime, .modificationTime, .inlineData]

def cloneInode (maps : AttrMaps) (child : DirectoryItem × StorageIno) : Mini AttrMaps := do
  let rest ← removedKinds.foldlM (cloneRemoved child.1.ino child.2) maps
  match (rest .size).lookup child.1.ino with
  | some value => put (.inodeX child.2 .size) value
  | none => pure ()
  return rest

def inodeCloneAttrs (maps : AttrMaps) (srcDstMapping : List (DirectoryItem × StorageIno)) :
    Mini AttrMaps :=
  srcDstMapping.foldlM cloneInode maps

def linkChildren (destination : ParentStorageIno) (srcDstMapping : List (DirectoryItem × StorageIno)) :
    Mini Unit :=
  srcDstMapping.foldlM (fun _ child =>
    directoryAddChildLinkUnchecked destination child.1.name ⟨child.2, child.1.typ⟩) ()

/-- The blocks that `inode_clone_data` reads the hashes of: one more than the size needs. -/
def clonedBlockRange (cfg : TiFsConfig) (srcSize : InoSize) : Nat × Nat :=
  (0, 1 + divCeil srcSize.size cfg.blockSize)

/-- A call of `create_snapshot` that copies directories: the entry that it made and the
pairs of directories still to copy. -/
structure Copying where
  snapshotDir : StorageDirItem
  copyJobs : List (ParentStorageIno × ParentStorageIno)

inductive SnapshotPhase where
  | fetchRoot (name : ByteString)
  | reserveRoot (name : ByteString) (rootAttr : InoStorageFileAttr)
  | addRoot (name : ByteString) (rootAttr : InoStorageFileAttr) (newIno : StorageIno)
  | nextJob (copying : Copying)
  | reserve (copying : Copying) (destination : ParentStorageIno) (srcList : List DirectoryItem)
  | link (copying : Copying) (destination : ParentStorageIno)
      (srcDstMapping : List (DirectoryItem × StorageIno))
  | cloneAttrs (copying : Copying) (srcDstMapping : List (DirectoryItem × StorageIno))
  | cloneData (copying : Copying) (sizeMap : AttrMaps) (rest : List (DirectoryItem × StorageIno))
  | cloning (copying : Copying) (sizeMap : AttrMaps) (rest : List (DirectoryItem × StorageIno)) (op : Nat)
  | returned (result : Except FsError (GotOrMade StorageDirItem))

structure SnapshotSystem (cfg : TiFsConfig) where
  blocks : BlockSystem cfg
  phase : SnapshotPhase

namespace SnapshotSystem

variable {cfg : TiFsConfig}

def transact {A : Type} (state : SnapshotSystem cfg) (body : Mini A) (next : A → SnapshotPhase) :
    SnapshotSystem cfg :=
  match atomically body state.blocks.store with
  | .ok (result, after) => ⟨{ state.blocks with store := after }, next result⟩
  | .error issue => { state with phase := .returned (.error issue) }

def readSource {A : Type} (origin : Store) (state : SnapshotSystem cfg) (body : Mini A)
    (next : A → SnapshotSystem cfg) : SnapshotSystem cfg :=
  match atomically body origin with
  | .ok (result, _) => next result
  | .error issue => { state with phase := .returned (.error issue) }

def rootArgs (name : ByteString) (rootAttr : InoStorageFileAttr) : NewInode where
  parent := snapshotParentInode
  name := name
  typ := .directory
  perm := rootAttr.perm
  gid := rootAttr.gid
  uid := rootAttr.uid
  rdev := rootAttr.rdev
  inlineData := none

/-- Starts `inode_clone_data` for a child. The hashes that the range read returns all
have the length of a hash. -/
def startClone (state : SnapshotSystem cfg) (copying : Copying) (sizeMap : AttrMaps)
    (rest : List (DirectoryItem × StorageIno)) (dst : StorageIno) (hashes : BlockHashes) :
    SnapshotSystem cfg :=
  if lengths : ∀ entry ∈ hashes.entries, entry.2.length = cfg.hashLen then
    ⟨{ state.blocks with ops := state.blocks.ops ++ [(Work.clone dst hashes lengths).start] },
      .cloning copying sizeMap rest state.blocks.ops.length⟩
  else state

def advance (origin : Store) (ambient : Ambient) (state : SnapshotSystem cfg) : SnapshotSystem cfg :=
  match state.phase with
  | .fetchRoot name =>
      state.readSource origin (fetch (.inodeX rootInode .unixAttributes)) fun rootAttr =>
        { state with phase := .reserveRoot name rootAttr }
  | .reserveRoot name rootAttr =>
      state.transact (metaMutableReserveNewInos cfg 1) fun newIno => .addRoot name rootAttr newIno
  | .addRoot name rootAttr newIno =>
      state.transact (directoryAddChildCheckedNewInode (rootArgs name rootAttr) newIno ambient.now) fun
        | .newlyCreated snapshotDir => .nextJob ⟨snapshotDir, [(rootInode, snapshotDir.ino)]⟩
        | .existedAlready item => .returned (.ok (.existedAlready item))
  | .nextJob ⟨snapshotDir, []⟩ => { state with phase := .returned (.ok (.newlyCreated snapshotDir)) }
  | .nextJob ⟨snapshotDir, (originDir, destination) :: copyJobs⟩ =>
      state.readSource origin (directoryScanForChildren originDir maxTikvScanLimit) fun srcList =>
        if srcList.length = 0 then { state with phase := .nextJob ⟨snapshotDir, copyJobs⟩ }
        else { state with phase := .reserve ⟨snapshotDir, copyJobs⟩ destination srcList }
  | .reserve copying destination srcList =>
      state.transact (metaMutableReserveNewInos cfg srcList.length) fun newInos =>
        .link copying destination (srcList.zipIdx.map fun child => (child.1, newInos + child.2))
  | .link copying destination srcDstMapping =>
      state.transact (linkChildren destination srcDstMapping) fun _ => .cloneAttrs copying srcDstMapping
  | .cloneAttrs copying srcDstMapping =>
      state.transact (inodeCloneAttrs
        (parseInodeAttrsKvPairs origin (srcDstMapping.map fun child => child.1.ino)) srcDstMapping)
        fun maps => .cloneData copying maps srcDstMapping
  | .cloneData copying _ [] => { state with phase := .nextJob copying }
  | .cloneData copying sizeMap ((src, dst) :: rest) =>
      match src.typ with
      | .file =>
          match (sizeMap .size).lookup src.ino with
          | some srcSize =>
              state.readSource origin
                (hbGetBlockHashListByBlockRangeChunked cfg src.ino (clonedBlockRange cfg srcSize))
                (state.startClone copying sizeMap rest dst)
          | none => { state with phase := .cloneData copying sizeMap rest }
      | .directory =>
          ⟨state.blocks, .cloneData ⟨copying.snapshotDir, copying.copyJobs ++ [(src.ino, dst)]⟩ sizeMap rest⟩
      | .symlink => { state with phase := .cloneData copying sizeMap rest }
  | .cloning copying sizeMap rest op =>
      match state.blocks.ops[op]? with
      | some (.clone ⟨_, _, .done, _⟩) => { state with phase := .cloneData copying sizeMap rest }
      | some (.ended (some issue)) => { state with phase := .returned (.error issue) }
      | _ =>
          match state.blocks.step (.advance op ambient) with
          | some blocks => { state with blocks := blocks }
          | none => state
  | .returned result => { state with phase := .returned result }

end SnapshotSystem

def Stage.unlinks : Stage → Option StorageIno
  | .removeChild parent _ _ => some parent
  | .checkForDelete unlinked => some unlinked.ino
  | .deleteMetadata ino _ => some ino
  | _ => none

inductive SnapshotEvent (cfg : TiFsConfig) where
  | snapshot (ambient : Ambient)
  | other (event : BlockEvent cfg)
  | unlink (stage : Stage) (now : SystemTime)

def SnapshotSystem.step {cfg : TiFsConfig} (origin : Store) (state : SnapshotSystem cfg) :
    SnapshotEvent cfg → Option (SnapshotSystem cfg)
  | .snapshot ambient => some (state.advance origin ambient)
  | .other event => (state.blocks.step event).map fun blocks => { state with blocks := blocks }
  | .unlink stage now =>
      if stage.unlinks.isSome then
        match atomically (stage.body cfg now) state.blocks.store with
        | .ok (_, after) => some ⟨{ state.blocks with store := after }, state.phase⟩
        | .error _ => some state
      else none

def SnapshotSystem.Step {cfg : TiFsConfig} (origin : Store) (before : SnapshotSystem cfg)
    (event : SnapshotEvent cfg) (after : SnapshotSystem cfg) : Prop :=
  before.step origin event = some after

end TiFs
