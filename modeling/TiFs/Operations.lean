import TiFs.FsInit
import TiFs.RefCounting

namespace TiFs

open KeyValue Tables

/-- Mknod, mkdir, symlink and the creation of the root directory. -/
def addChildCheckedNewInode (cfg : TiFsConfig) (ambient : Ambient) (args : NewInode) (store : Store) :
    Except FsError Store := do
  let (newIno, store) ← atomically (metaMutableReserveNewIno cfg) store
  let (_, store) ← atomically (directoryAddChildCheckedNewInode args newIno ambient.now) store
  return store

def addChildCheckedExistingInode (parent : ParentStorageIno) (name : ByteString) (ino : StorageIno)
    (store : Store) : Except FsError Store :=
  if parent < rootInode then return store
  else do
    let (result, store) ← atomically (directoryAddChildCheckedExistingInode parent name ino) store
    match result with
    | .existedAlready _ => throw (.fileExist name)
    | .newlyCreated _ => return store

/-- `hb_clear_data_single_block` without an update of the size. -/
def hbClearDataSingleBlock (cfg : TiFsConfig) (ambient : Ambient) (store : Store) (addr : BlockAddress) :
    Except FsError Store := do
  let (task, store) ← ClearTask.step cfg ambient ⟨addr, false, .replace⟩ store
  let (_, store) ← ClearTask.step cfg ambient task store
  return store

def hbClearDataNoSyncNoSizeUpdate (cfg : TiFsConfig) (ambient : Ambient) (ino : StorageIno)
    (store : Store) : Except FsError Store := do
  let (inoSize, store) ← atomically (fetch (.inodeX ino .size)) store
  let blockCnt := divCeil (InoSize.size inoSize) cfg.blockSize
  ((List.range blockCnt).map (BlockAddress.mk ino)).foldlM (hbClearDataSingleBlock cfg ambient) store

/-- A directory is empty before its deletion, and the data of a symlink is inline. -/
def clearRemainingInodeData (cfg : TiFsConfig) (ambient : Ambient) (unlinkedItem : StorageDirItem)
    (store : Store) : Except FsError Store :=
  match unlinkedItem.typ with
  | .file => hbClearDataNoSyncNoSizeUpdate cfg ambient unlinkedItem.ino store
  | .directory => return store
  | .symlink => return store

def deleteMetadata (ino : StorageIno) (store : Store) : Store :=
  applyAll store (InoMetadata.iter.map fun kind => Mutation.delete (.inodeX ino kind))

def removeChildGeneric (cfg : TiFsConfig) (ambient : Ambient) (parent : ParentStorageIno)
    (name : ByteString) (allowedTypes : List StorageDirItemKind) (store : Store) :
    Except FsError Store := do
  let (unlinkedItem, store) ← atomically (directoryRemoveChild parent name allowedTypes) store
  let (r, store) ← atomically
    (inodeCheckForDeleteAndDeleteAtomicallyDescription unlinkedItem.ino) store
  match r with
  | .stillUsed => return store
  | .deletedInoDesc =>
      let store ← clearRemainingInodeData cfg ambient unlinkedItem store
      return deleteMetadata unlinkedItem.ino store

/-- A planned write is done after eight transactions at most. -/
def WriteTask.complete {cfg : TiFsConfig} (ambient : Ambient) :
    Nat → WriteTask cfg → Store → Except FsError (WriteTask cfg × Store)
  | 0, task, store => return (task, store)
  | fuel + 1, task, store => do
      let (next, after) ← task.step ambient store
      next.complete ambient fuel after

inductive Operation (cfg : TiFsConfig) where
  | create (args : NewInode)
  | link (parent : ParentStorageIno) (name : ByteString) (ino : StorageIno)
  | unlink (parent : ParentStorageIno) (name : ByteString)
  | rmdir (parent : ParentStorageIno) (name : ByteString)
  | write (ino : StorageIno) (plan : WritePlan cfg)
  | openInode (ino : StorageIno) (useId : Uuid)
  | closeInode (ino : StorageIno) (useId : Uuid)

def Operation.run {cfg : TiFsConfig} (ambient : Ambient) (store : Store) :
    Operation cfg → Except FsError Store
  | .create args => addChildCheckedNewInode cfg ambient args store
  | .link parent name ino => addChildCheckedExistingInode parent name ino store
  | .unlink parent name => removeChildGeneric cfg ambient parent name [.file, .symlink] store
  | .rmdir parent name =>
      (atomically (directoryRemoveChildEmptyDirectory parent name) store).map Prod.snd
  | .write ino plan =>
      (WriteTask.complete ambient 8 ⟨ino, plan, .increment⟩ store).map Prod.snd
  | .openInode ino useId => (atomically (inodeOpen ino useId) store).map Prod.snd
  | .closeInode ino useId => (atomically (inodeClose ino useId) store).map Prod.snd

def WritePhase.left : WritePhase → Nat
  | .increment => 8
  | .upload _ => 7
  | .replace => 6
  | .clearFullHash _ => 5
  | .changeIterationId _ => 4
  | .sizePeek _ => 3
  | .sizeUpdate _ => 2
  | .decrement _ => 1
  | .done => 0

theorem WriteMove.left_lt {cfg : TiFsConfig} {task : WriteTask cfg} {store after : Store}
    {phase : WritePhase} (move : WriteMove task store phase after) : phase.left ≤ task.phase.left - 1 := by
  cases move with
  | incremented _ _ current _ => rw [current]; exact le_rfl
  | uploaded _ _ current _ => rw [current]; exact le_rfl
  | replaced _ _ current _ _ => rw [current]; exact le_rfl
  | fullHashCleared _ current => rw [current]; exact le_rfl
  | iterationChanged _ _ current => rw [current]; exact le_rfl
  | sizeTooSmall _ _ current _ _ => rw [current]; exact le_rfl
  | sizeEnough _ _ current _ _ => rw [current]; exact Nat.le_succ 1
  | sizeUpdated _ _ _ current _ _ _ => rw [current]; exact le_rfl
  | sizeKept _ _ current _ _ => rw [current]; exact le_rfl
  | decremented _ _ current _ => rw [current]; exact le_rfl
  | finished current => rw [current]; exact le_rfl

/-- What every transaction of a planned write keeps holds after all of them, and the
write is done. -/
theorem WriteTask.complete_induction {cfg : TiFsConfig} {ambient : Ambient}
    (holds : WriteTask cfg → Store → Prop)
    (preserved : ∀ (task : WriteTask cfg) store phase after, holds task store →
      WriteMove task store phase after → holds { task with phase := phase } after)
    {fuel : Nat} {task last : WriteTask cfg} {store after : Store} (sound : task.Sound)
    (enough : task.phase.left ≤ fuel) (initial : holds task store)
    (ran : task.complete ambient fuel store = .ok (last, after)) :
    last.phase = .done ∧ last.ino = task.ino ∧ last.plan = task.plan ∧ holds last after := by
  induction fuel generalizing task store with
  | zero =>
      obtain ⟨rfl, rfl⟩ := Prod.mk.inj (Except.ok.inj ran)
      refine ⟨?_, rfl, rfl, initial⟩
      cases phase : task.phase <;> rw [phase] at enough <;> first | rfl | cases enough
  | succ fuel ih =>
      obtain ⟨⟨next, middle⟩, stepped, rest⟩ := except_bind_eq_ok ran
      obtain ⟨phase, rfl, move⟩ := WriteTask.move_of_step sound stepped
      have fewer := move.left_lt
      have small : phase.left ≤ fuel := by omega
      obtain ⟨done, sameIno, samePlan, held⟩ := ih (move.sound sound) small
        (preserved task store phase middle initial move) rest
      exact ⟨done, sameIno, samePlan, held⟩

theorem WriteTask.sound_first {cfg : TiFsConfig} (ino : StorageIno) (plan : WritePlan cfg) :
    WriteTask.Sound ⟨ino, plan, .increment⟩ := by
  constructor
  · intro blocks isUpload
    cases isUpload
  · exact fun hash listed => absurd listed (AList.notMem_empty hash)

def Key.isShared : Key → Bool
  | .hashedBlock _ => true
  | .countedNamedUsages _ => true
  | _ => false

theorem Key.ne_counter {key : Key} (own : key.isShared = false) (hash : TiFsHash) :
    key ≠ .countedNamedUsages hash := by
  rintro rfl
  cases own

theorem Key.ne_hashedBlock {key : Key} (own : key.isShared = false) (hash : TiFsHash) :
    key ≠ .hashedBlock hash := by
  rintro rfl
  cases own

section Clear

variable {cfg : TiFsConfig} {ambient : Ambient} {store after : Store}

structure ClearedAll (addresses : List BlockAddress) (store after : Store) : Prop where
  gone : ∀ addr ∈ addresses, mapping after addr = none
  frame : ∀ key : Key, key.isShared = false → (∀ addr ∈ addresses, key ≠ .blockHash addr) →
    after.lookup key = store.lookup key

theorem clear_replaced {addr : BlockAddress} {task : ClearTask}
    (ran : ClearTask.step cfg ambient ⟨addr, false, .replace⟩ store = .ok (task, after)) :
    ∃ prevHash, task = ⟨addr, false, .decrement prevHash⟩ := by
  obtain ⟨⟨decrements, between⟩, _, rest⟩ := except_bind_eq_ok ran
  obtain ⟨rfl, _⟩ := Prod.mk.inj (Except.ok.inj rest)
  exact ⟨_, rfl⟩

theorem ClearMove.decrement_frame {task next : ClearTask} {prevHash : Option TiFsHash}
    (move : ClearMove cfg task store next after) (current : task.phase = .decrement prevHash)
    {key : Key} (own : key.isShared = false) : after.lookup key = store.lookup key := by
  cases move with
  | replaced _ _ _ isReplace _ _ _ =>
      rw [current] at isReplace
      cases isReplace
  | sizeKept _ isSize => rfl
  | sizeUpdated _ _ isSize =>
      rw [current] at isSize
      cases isSize
  | unmapped _ => rfl
  | decremented _ _ _ counted => exact counted.frame key (Key.ne_counter own) (Key.ne_hashedBlock own)
  | finished _ => rfl

theorem clearSingleBlock_ok {addr : BlockAddress}
    (ran : hbClearDataSingleBlock cfg ambient store addr = .ok after) :
    ClearedAll [addr] store after := by
  obtain ⟨⟨task, middle⟩, first, rest⟩ := except_bind_eq_ok ran
  obtain ⟨⟨_, last⟩, second, isAfter⟩ := except_bind_eq_ok rest
  obtain rfl := Except.ok.inj isAfter
  obtain ⟨prevHash, rfl⟩ := clear_replaced first
  have noneYet : ∀ hash, (ClearTask.mk addr false .replace).prevHash = some hash →
      hash.length = cfg.hashLen := by simp [ClearTask.prevHash]
  have move := ClearTask.move_of_step noneYet first
  have lengths := move.sound noneYet
  have decremented : ∀ key : Key, key.isShared = false → last.lookup key = middle.lookup key :=
    fun key own => (ClearTask.move_of_step lengths second).decrement_frame rfl own
  cases move with
  | replaced decrements _ later _ placed _ _ =>
      constructor
      · intro other listed
        rw [List.mem_singleton.mp listed, mapping, decremented _ rfl]
        exact placed.placed (addr, none) (List.mem_singleton.mpr rfl)
      · intro key own different
        rw [decremented key own]
        by_cases isMapping : ∃ other, key = .blockHash other
        · obtain ⟨other, rfl⟩ := isMapping
          apply placed.kept
          intro listed
          exact different other listed rfl
        · push Not at isMapping
          exact placed.frame key isMapping
  | sizeKept _ isSize => cases isSize
  | sizeUpdated _ _ isSize => cases isSize

theorem clearAll_ok {addresses : List BlockAddress}
    (ran : addresses.foldlM (hbClearDataSingleBlock cfg ambient) store = .ok after) :
    ClearedAll addresses store after := by
  induction addresses generalizing store with
  | nil =>
      obtain rfl := Except.ok.inj ran
      exact ⟨fun addr listed => absurd listed List.not_mem_nil, fun _ _ _ => rfl⟩
  | cons addr rest ih =>
      obtain ⟨middle, first, later⟩ := except_bind_eq_ok ran
      have here := clearSingleBlock_ok first
      have there := ih later
      constructor
      · intro other listed
        by_cases again : other ∈ rest
        · exact there.gone other again
        · have kept : mapping after other = mapping middle other := by
            apply there.frame _ rfl
            intro third member same
            rw [Key.blockHash.inj same] at again
            exact again member
          rw [kept]
          rcases List.mem_cons.mp listed with rfl | member
          · exact here.gone other (List.mem_singleton.mpr rfl)
          · exact absurd member again
      · intro key own different
        rw [there.frame key own fun other member => different other (List.mem_cons_of_mem _ member)]
        apply here.frame key own
        intro other member
        rw [List.mem_singleton.mp member]
        exact different addr List.mem_cons_self

theorem clearData_ok {ino : StorageIno}
    (ran : hbClearDataNoSyncNoSizeUpdate cfg ambient ino store = .ok after) :
    ∃ size, inoSize store ino = some size ∧
      ClearedAll ((List.range (divCeil size.size cfg.blockSize)).map (BlockAddress.mk ino)) store after := by
  cases stored : inoSize (Txn.mk store []).view ino with
  | none =>
      rw [hbClearDataNoSyncNoSizeUpdate, atomically, fetch_of_none stored] at ran
      cases ran
  | some size =>
      rw [hbClearDataNoSyncNoSizeUpdate, atomically, fetch_of_some stored] at ran
      exact ⟨size, stored, clearAll_ok ran⟩

end Clear

theorem deleteMetadata_gone (ino : StorageIno) (store : Store) (kind : InoMetadata) :
    (deleteMetadata ino store).lookup (.inodeX ino kind) = none := by
  apply lookup_applyAll_delete
  · rw [List.map_map]
    have injective : Function.Injective fun kind => Key.inodeX ino kind :=
      fun _ _ same => (Key.inodeX.inj same).2
    exact List.Nodup.map injective (by decide)
  · apply List.mem_map.mpr
    exact ⟨kind, by cases kind <;> decide, rfl⟩

theorem deleteMetadata_frame (ino : StorageIno) (store : Store) {key : Key}
    (different : ∀ kind, key ≠ .inodeX ino kind) :
    (deleteMetadata ino store).lookup key = store.lookup key := by
  apply lookup_applyAll_of_notMem
  intro listed
  rw [List.map_map] at listed
  obtain ⟨kind, _, same⟩ := List.mem_map.mp listed
  exact different kind same.symm

end TiFs
