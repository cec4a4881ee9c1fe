import TiFs.UnlinkEffect
import TiFs.HashFsError

/-! What is left of an entry whose removal reports an error. The entry goes with the first
transaction of the call, and nothing puts it back when a later one fails. A retry then
finds no entry. -/

namespace TiFs

open KeyValue Tables

/-- Errors that become `FsError::UnknownError` again. None becomes a key error. -/
def HashFsError.isUnknown : HashFsError → Bool
  | .unspecific _ => true
  | .rawGrpcStatus _ => true
  | .fsHasInvalidData _ => true
  | .rawTonicTransportError _ => true
  | _ => false

/-- The retries of the call by `spin`. The transactions that fail can be others in each
attempt. -/
inductive SpinRun (cfg : TiFsConfig) (faults : Nat → UnlinkFaults) (parent : ParentStorageIno) (name : ByteString) :
    Nat → Store → Except HashFsError Unit → Store → Prop
  | succeeded (otherErrorCount : Nat) (store after : Store)
      (ran : RemoveChildFile cfg (faults otherErrorCount) parent name store (.ok ()) after) :
      SpinRun cfg faults parent name otherErrorCount store (.ok ()) after
  | reported (otherErrorCount : Nat) (store after : Store) (issue : FsError)
      (ran : RemoveChildFile cfg (faults otherErrorCount) parent name store (.error issue) after)
      (final : (HashFsError.ofFsError issue).isUnknown = true → 3 ≤ otherErrorCount) :
      SpinRun cfg faults parent name otherErrorCount store (.error (.ofFsError issue)) after
  | retried (otherErrorCount : Nat) (store between after : Store) (issue : FsError) (result : Except HashFsError Unit)
      (ran : RemoveChildFile cfg (faults otherErrorCount) parent name store (.error issue) between)
      (unknown : (HashFsError.ofFsError issue).isUnknown = true) (fewer : otherErrorCount < 3)
      (rest : SpinRun cfg faults parent name (otherErrorCount + 1) between result after) :
      SpinRun cfg faults parent name otherErrorCount store result after

/-- The entry and its parent link are what they were, if they were there. -/
def EntryKept (store : Store) (parent : ParentStorageIno) (name : ByteString) (after : Store) : Prop :=
  ∀ item, dirEntry store parent name = some item → dirEntry after parent name = some item ∧
    (hasParentLink store item.ino parent name → hasParentLink after item.ino parent name)

/-- One of the transactions that clear a block fails. A mapping of a wrong length is
refused by the code itself. -/
def BlockFails (cfg : TiFsConfig) (faults : UnlinkFaults) (store : Store) (addr : BlockAddress) : Prop :=
  faults.replace addr.index ≠ none ∨
    ∃ hash, mapping store addr = some hash ∧ (hash.length ≠ cfg.hashLen ∨ faults.decrement addr.index ≠ none)

def ClearFails (cfg : TiFsConfig) (faults : UnlinkFaults) (store : Store) (ino : StorageIno) : Prop :=
  faults.readSize ≠ none ∨ inoSize store ino = none ∨
    ∃ size index, inoSize store ino = some size ∧ index < divCeil size.size cfg.blockSize ∧
      BlockFails cfg faults store ⟨ino, index⟩

/-- The entry can be removed, and a transaction fails that the call makes after that. -/
def FailsAfterRemoval (cfg : TiFsConfig) (faults : UnlinkFaults) (parent : ParentStorageIno) (name : ByteString)
    (store : Store) : Prop :=
  ∃ item, dirEntry store parent name = some item ∧ item.typ ∈ [StorageDirItemKind.file, .symlink] ∧
    faults.remove = none ∧
    (faults.check ≠ none ∨
      LastLink store item.ino parent name ∧
        (item.typ = .file ∧ ClearFails cfg faults store item.ino ∨
          ∃ kind ∈ InoMetadata.iter, faults.deleteMeta kind ≠ none))

def UnlinkFaults.refuses (faults : UnlinkFaults) : Prop :=
  ∃ issue, faults.remove = some issue ∧ (HashFsError.ofFsError issue).isUnknown = true

section Tasks

variable {cfg : TiFsConfig} {faults : UnlinkFaults} {origin store : Store} {ino : StorageIno} {blockCnt : Nat}

def ClearPhase.Fate (cfg : TiFsConfig) (faults : UnlinkFaults) (origin store : Store) (addr : BlockAddress) :
    ClearPhase → Prop
  | .replace => mapping store addr = mapping origin addr
  | .sizeUpdate _ => False
  | .decrement prevHash => prevHash = mapping origin addr ∧ faults.replace addr.index = none ∧
      ∀ hash, prevHash = some hash → hash.length = cfg.hashLen
  | .done => ¬ BlockFails cfg faults origin addr

inductive TaskFate (cfg : TiFsConfig) (faults : UnlinkFaults) (origin store : Store) (addr : BlockAddress) :
    Op cfg → Prop
  | running (phase : ClearPhase) (fate : phase.Fate cfg faults origin store addr) :
      TaskFate cfg faults origin store addr (.clear ⟨addr, false, phase⟩)
  | ended (issue : FsError) (fails : BlockFails cfg faults origin addr) :
      TaskFate cfg faults origin store addr (.ended (some issue))

structure ClearFrame (addr : BlockAddress) (store after : Store) : Prop where
  mappings : ∀ other, other ≠ addr → mapping after other = mapping store other
  links : ∀ key : Key, key.isLink = true → after.lookup key = store.lookup key

theorem clearFrame_refl (addr : BlockAddress) (store : Store) : ClearFrame addr store store :=
  ⟨fun _ _ => rfl, fun _ _ => rfl⟩

theorem TaskFate.fault {addr : BlockAddress} {op : Op cfg} {issue : FsError}
    (fate : TaskFate cfg faults origin store addr op) (fault : faults.ofOp op = some issue) :
    BlockFails cfg faults origin addr := by
  cases fate with
  | ended failure fails => cases fault
  | running phase fate =>
      cases phase with
      | replace =>
          left
          rw [show faults.replace addr.index = some issue from fault]
          exact Option.some_ne_none issue
      | sizeUpdate prevHash => cases fault
      | decrement prevHash =>
          cases prevHash with
          | none => cases fault
          | some hash =>
              refine Or.inr ⟨hash, fate.1.symm, Or.inr ?_⟩
              rw [show faults.decrement addr.index = some issue from fault]
              exact Option.some_ne_none issue
      | done => cases fault

theorem TaskFate.step {addr : BlockAddress} {op : Op cfg} (fate : TaskFate cfg faults origin store addr op)
    (noFault : faults.ofOp op = none) (ambient : Ambient) :
    (∃ next after, op.step ambient store = .ok (next, after) ∧ TaskFate cfg faults origin after addr next ∧
      ClearFrame addr store after) ∨
    ∃ issue, op.step ambient store = .error issue ∧ BlockFails cfg faults origin addr := by
  cases fate with
  | ended failure fails => exact Or.inl ⟨_, store, rfl, .ended failure fails, clearFrame_refl addr store⟩
  | running phase fate =>
      cases phase with
      | replace =>
          have prev := head_tally_prev store addr
          have placed := replaced_applyAll store [(addr, none)] (List.nodup_singleton _)
          have isPrev : ∀ hash, hash ∈ prevHashes store [(addr, none)] ↔ mapping origin addr = some hash := by
            intro hash
            rw [← show mapping store addr = mapping origin addr from fate]
            simp [prevHashes]
          by_cases accepted : ∀ hash ∈ prevHashes store [(addr, none)], hash.length = cfg.hashLen
          · have ran : (Op.clear ⟨addr, false, .replace⟩ : Op cfg).step ambient store =
                .ok (.clear ⟨addr, false, .decrement (mapping origin addr)⟩,
                  applyAll store ([(addr, none)].map addressWrite)) := by
              rw [← show mapping store addr = mapping origin addr from fate, ← prev]
              simp only [Op.step, ClearTask.step, replace_run, if_pos accepted]
              rfl
            refine Or.inl ⟨_, _, ran, .running _ ⟨rfl, noFault, ?_⟩, ?_, ?_⟩
            · exact fun hash found => accepted hash ((isPrev hash).mpr found)
            · exact fun other different => placed.kept other (by simpa using different)
            · intro key isLink
              apply placed.frame
              rintro other rfl
              cases isLink
          · have ran : (Op.clear ⟨addr, false, .replace⟩ : Op cfg).step ambient store =
                .error (.serialize "hash" "BIN" "hash length mismatch.") := by
              simp only [Op.step, ClearTask.step, replace_run, if_neg accepted]
              rfl
            push Not at accepted
            obtain ⟨hash, listed, wrong⟩ := accepted
            exact Or.inr ⟨_, ran, Or.inr ⟨hash, (isPrev hash).mp listed, Or.inl wrong⟩⟩
      | sizeUpdate prevHash => exact absurd fate id
      | decrement prevHash =>
          obtain ⟨isPrev, replaced, lengths⟩ := fate
          cases prevHash with
          | none =>
              refine Or.inl ⟨_, store, rfl, .running _ ?_, clearFrame_refl addr store⟩
              rintro (fault | ⟨hash, found, _⟩)
              · exact fault replaced
              · cases isPrev.trans found
          | some hash =>
              have ran : (Op.clear ⟨addr, false, .decrement (some hash)⟩ : Op cfg).step ambient store =
                  .ok (.clear ⟨addr, false, .done⟩,
                    applyAll store (decrementWrites (prevCounterValues cfg store [hash]) hash 1)) := by
                simp only [Op.step, ClearTask.step, decrementOne_ran]
                rfl
              refine Or.inl ⟨_, _, ran, .running _ ?_, ?_, ?_⟩
              · rintro (fault | ⟨other, found, wrong | fault⟩)
                · exact fault replaced
                · exact wrong (lengths other (isPrev.trans found))
                · exact fault noFault
              · exact fun other _ => lookup_decrementWrites _ (by simp) (by simp)
              · intro key isLink
                apply lookup_decrementWrites
                · rintro rfl
                  cases isLink
                · rintro rfl
                  cases isLink
      | done => exact Or.inl ⟨_, store, rfl, .running _ fate, clearFrame_refl addr store⟩

theorem TaskFate.keep {addr other : BlockAddress} {after : Store} {op : Op cfg}
    (fate : TaskFate cfg faults origin store other op) (frame : ClearFrame addr store after) (different : other ≠ addr) :
    TaskFate cfg faults origin after other op := by
  cases fate with
  | ended issue fails => exact .ended issue fails
  | running phase fate =>
      refine .running phase ?_
      cases phase with
      | replace => exact (frame.mappings other different).trans fate
      | sizeUpdate prevHash => exact fate
      | decrement prevHash => exact fate
      | done => exact fate

structure Fates (cfg : TiFsConfig) (faults : UnlinkFaults) (origin : Store) (ino : StorageIno) (blockCnt : Nat)
    (state : BlockSystem cfg) : Prop where
  count : state.ops.length = blockCnt
  tasks : ∀ (index : Nat) (op : Op cfg), state.ops[index]? = some op →
    TaskFate cfg faults origin state.store ⟨ino, index⟩ op
  links : ∀ key : Key, key.isLink = true → state.store.lookup key = origin.lookup key

theorem Fates.set {state : BlockSystem cfg} (fates : Fates cfg faults origin ino blockCnt state) {index : Nat}
    {next : Op cfg} {after : Store} (fate : TaskFate cfg faults origin after ⟨ino, index⟩ next)
    (frame : ClearFrame ⟨ino, index⟩ state.store after) :
    Fates cfg faults origin ino blockCnt (⟨after, state.ops.set index next⟩ : BlockSystem cfg) := by
  constructor
  · rw [List.length_set]
    exact fates.count
  · intro other op present
    rcases getElem?_set_cases present with ⟨rfl, rfl⟩ | ⟨different, old⟩
    · exact fate
    · apply (fates.tasks other op old).keep frame
      exact fun same => different (BlockAddress.mk.inj same).2.symm
  · exact fun key isLink => (frame.links key isLink).trans (fates.links key isLink)

theorem fates_run {state : BlockSystem cfg} (run : Run (ClearStep faults) (fun _ _ => True)
    (⟨origin, clearTasks cfg ino blockCnt⟩ : BlockSystem cfg) state) : Fates cfg faults origin ino blockCnt state := by
  refine Run.invariant (Fates cfg faults origin ino blockCnt) ?_ ?_ run
  · intro before task after fates taken _
    unfold ClearStep clearStep at taken
    cases present : before.ops[task.1]? with
    | none =>
        rw [present, Option.bind_none] at taken
        simp only [BlockSystem.step, present] at taken
        cases taken
    | some op =>
        have fate := fates.tasks task.1 op present
        rw [present, Option.bind_some] at taken
        cases fault : faults.ofOp op with
        | some issue =>
            rw [fault] at taken
            obtain rfl := Option.some.inj taken
            exact fates.set (.ended issue (fate.fault fault)) (clearFrame_refl _ _)
        | none =>
            rw [fault] at taken
            simp only [BlockSystem.step, present] at taken
            rcases fate.step fault task.2 with ⟨next, store, ran, later, frame⟩ | ⟨issue, ran, fails⟩
            · rw [ran] at taken
              obtain rfl := Option.some.inj taken
              exact fates.set later frame
            · rw [ran] at taken
              obtain rfl := Option.some.inj taken
              exact fates.set (.ended issue fails) (clearFrame_refl _ _)
  · constructor
    · rw [clearTasks, List.length_map, List.length_range]
    · intro index op present
      rw [clearTasks, List.getElem?_map] at present
      obtain ⟨isIndex, found, rfl⟩ := Option.map_eq_some_iff.mp present
      obtain ⟨bound, same⟩ := List.getElem?_eq_some_iff.mp found
      rw [List.getElem_range] at same
      rw [← same]
      exact .running .replace rfl
    · exact fun _ _ => rfl

/-- The loop reports an error exactly if a block is not cleared. -/
theorem clearLoop_failure {last : BlockSystem cfg} (loop : ClearLoop faults ino blockCnt origin last) :
    (∃ issue, issue ∈ last.ops.filterMap Op.failure) ↔
      ∃ index, index < blockCnt ∧ BlockFails cfg faults origin ⟨ino, index⟩ := by
  have fates := fates_run loop.run
  constructor
  · rintro ⟨issue, listed⟩
    obtain ⟨op, member, isFailure⟩ := List.mem_filterMap.mp listed
    obtain ⟨index, present⟩ := List.mem_iff_getElem?.mp member
    have bound : index < blockCnt := fates.count ▸ (List.getElem?_eq_some_iff.mp present).1
    cases fates.tasks index op present with
    | running phase fate => cases isFailure
    | ended failure fails => exact ⟨index, bound, fails⟩
  · rintro ⟨index, bound, fails⟩
    rw [← fates.count] at bound
    have present := List.getElem?_eq_getElem bound
    have member := List.mem_of_getElem? present
    generalize last.ops[index] = op at present member
    cases fates.tasks index op present with
    | running phase fate =>
        have isDone : phase = .done := by simpa [Op.isFinished] using loop.finished _ member
        rw [isDone] at fate
        exact absurd fails fate
    | ended failure fails => exact ⟨failure, List.mem_filterMap.mpr ⟨_, member, rfl⟩⟩

end Tasks

section Attempt

variable {cfg : TiFsConfig} {faults : UnlinkFaults} {store : Store} {parent : ParentStorageIno} {name : ByteString}

theorem deleteRecords_failure (ino : StorageIno) (kinds : List InoMetadata) (store : Store) :
    (∃ issue, (deleteRecords faults ino kinds store).1 = .error issue) ↔
      ∃ kind ∈ kinds, faults.deleteMeta kind ≠ none := by
  induction kinds generalizing store with
  | nil => simp [deleteRecords]
  | cons kind rest ih =>
      unfold deleteRecords
      cases fault : faults.deleteMeta kind with
      | some issue => simp [fault]
      | none => simpa [fault] using ih _

theorem deleteRecords_links (ino : StorageIno) (kinds : List InoMetadata) (store : Store) {key : Key}
    (isLink : key.isLink = true) : (deleteRecords faults ino kinds store).2.lookup key = store.lookup key := by
  induction kinds generalizing store with
  | nil => rfl
  | cons kind rest ih =>
      unfold deleteRecords
      cases faults.deleteMeta kind with
      | some issue => rfl
      | none =>
          have noRecord : key ≠ .inodeX ino kind := by
            intro isRecord
            rw [isRecord] at isLink
            cases isLink
          rw [ih, applyAll_cons, applyAll_nil, lookup_delete_of_ne _ _ _ noRecord]

theorem blockFails_congr {other : Store} {addr : BlockAddress} (same : mapping other addr = mapping store addr) :
    BlockFails cfg faults other addr ↔ BlockFails cfg faults store addr := by
  rw [BlockFails, BlockFails, same]

theorem blockFails_descriptionDeleted {ino : StorageIno} {index : Nat} :
    BlockFails cfg faults (descriptionDeleted store parent name ino) ⟨ino, index⟩ ↔
      BlockFails cfg faults store ⟨ino, index⟩ :=
  blockFails_congr (lookup_descriptionDeleted (by simp) (by simp) (by simp))

theorem inoSize_descriptionDeleted (store : Store) (parent : ParentStorageIno) (name : ByteString) (ino : StorageIno) :
    inoSize (descriptionDeleted store parent name ino) ino = inoSize store ino :=
  lookup_descriptionDeleted (by simp) (by simp) (by simp)

theorem removeChild_error {issue : FsError} {after : Store}
    (ran : RemoveChildFile cfg faults parent name store (.error issue) after) :
    (after = store ∧
      attempted faults.remove (directoryRemoveChild parent name [.file, .symlink]) store = .error issue) ∨
    FailsAfterRemoval cfg faults parent name store := by
  generalize isResult : Except.error issue = result at ran
  cases ran with
  | notRemoved issue failed =>
      obtain rfl := Except.error.inj isResult
      exact Or.inl ⟨rfl, failed⟩
  | notChecked unlinkedItem removed issue first failed =>
      obtain ⟨noRemove, found, allowed, rfl⟩ := removed_iff.mp first
      refine Or.inr ⟨unlinkedItem, found, allowed, noRemove, Or.inl ?_⟩
      intro noCheck
      rw [noCheck] at failed
      obtain ⟨unused, used⟩ := check_run store parent name unlinkedItem.ino
      by_cases last : LastLink store unlinkedItem.ino parent name
      · cases (unused last).symm.trans failed
      · cases (used last).symm.trans failed
  | stillUsed unlinkedItem removed after first second => cases isResult
  | noSize unlinkedItem checked issue detached isFile failed =>
      obtain ⟨noRemove, _, found, allowed, last, rfl⟩ := detached_iff.mp detached
      refine Or.inr ⟨unlinkedItem, found, allowed, noRemove, Or.inr ⟨last, Or.inl ⟨isFile, ?_⟩⟩⟩
      by_contra noFailure
      simp only [ClearFails, not_or, not_not] at noFailure
      obtain ⟨noRead, sized, _⟩ := noFailure
      obtain ⟨size, stored⟩ := Option.ne_none_iff_exists'.mp sized
      have read := sizeRead_iff.mpr ⟨noRead, (inoSize_descriptionDeleted store parent name unlinkedItem.ino).trans stored, rfl⟩
      cases read.symm.trans failed
  | notCleared unlinkedItem checked read size last issue detached isFile sized loop failed =>
      obtain ⟨noRemove, _, found, allowed, lastLink, rfl⟩ := detached_iff.mp detached
      obtain ⟨_, stored, _⟩ := sizeRead_iff.mp sized
      obtain ⟨index, bound, fails⟩ := (clearLoop_failure loop).mp ⟨_, failed⟩
      refine Or.inr ⟨unlinkedItem, found, allowed, noRemove, Or.inr ⟨lastLink, Or.inl ⟨isFile, Or.inr (Or.inr ?_)⟩⟩⟩
      exact ⟨size, index, (inoSize_descriptionDeleted store parent name unlinkedItem.ino).symm.trans stored, bound,
        blockFails_descriptionDeleted.mp fails⟩
  | cleared unlinkedItem checked read size last detached isFile sized loop noFailure =>
      obtain ⟨noRemove, _, found, allowed, lastLink, rfl⟩ := detached_iff.mp detached
      refine Or.inr ⟨unlinkedItem, found, allowed, noRemove, Or.inr ⟨lastLink, Or.inr ?_⟩⟩
      exact (deleteRecords_failure _ _ _).mp ⟨issue, isResult.symm⟩
  | noData unlinkedItem checked detached notFile =>
      obtain ⟨noRemove, _, found, allowed, lastLink, rfl⟩ := detached_iff.mp detached
      refine Or.inr ⟨unlinkedItem, found, allowed, noRemove, Or.inr ⟨lastLink, Or.inr ?_⟩⟩
      exact (deleteRecords_failure _ _ _).mp ⟨issue, isResult.symm⟩

theorem dirEntry_descriptionDeleted (ino : StorageIno) :
    dirEntry (descriptionDeleted store parent name ino) parent name = none := by
  rw [dirEntry, descriptionDeleted, applyAll_cons, applyAll_nil, lookup_delete_of_ne _ _ _ (by simp)]
  exact (dirEntry_removedLinks _ _ _ _ _ _).trans (if_pos rfl)

theorem removeChild_fails (fails : FailsAfterRemoval cfg faults parent name store) :
    ∃ issue after, RemoveChildFile cfg faults parent name store (.error issue) after ∧
      dirEntry after parent name = none := by
  obtain ⟨item, found, allowed, noRemove, later⟩ := fails
  cases check : faults.check with
  | some issue =>
      refine ⟨issue, _, .notChecked item _ issue (removed_iff.mpr ⟨noRemove, found, allowed, rfl⟩) ?_, ?_⟩
      · rw [check]
        rfl
      · exact (dirEntry_removedLinks _ _ _ _ _ _).trans (if_pos rfl)
  | none =>
      obtain ⟨last, rest⟩ := later.resolve_left (not_not_intro check)
      have detached := detached_iff.mpr ⟨noRemove, check, found, allowed, last, rfl⟩
      have gone : dirEntry (descriptionDeleted store parent name item.ino) parent name = none :=
        dirEntry_descriptionDeleted item.ino
      -- the records are deleted when all blocks have been cleared, and the entry is not put back
      have unrecorded : ∀ cleared : Store, (∃ kind ∈ InoMetadata.iter, faults.deleteMeta kind ≠ none) →
          ∃ issue, (deleteRecords faults item.ino InoMetadata.iter cleared).1 = .error issue :=
        fun cleared => (deleteRecords_failure item.ino InoMetadata.iter cleared).mpr
      by_cases isFile : item.typ = .file
      · cases read : attempted faults.readSize (fetch (.inodeX item.ino .size))
            (descriptionDeleted store parent name item.ino) with
        | error issue => exact ⟨issue, _, .noSize item _ issue detached isFile read, gone⟩
        | ok result =>
            obtain ⟨size, between⟩ := result
            obtain ⟨noRead, stored, rfl⟩ := sizeRead_iff.mp read
            obtain ⟨ended, loop⟩ : ∃ ended : BlockSystem cfg, ClearLoop faults item.ino
                (divCeil size.size cfg.blockSize) (descriptionDeleted store parent name item.ino) ended :=
              clearLoop_reached Relation.ReflTransGen.refl
            have unchanged := (fates_run loop.run).links (.directoryChild parent name) rfl
            by_cases failed : ∃ issue, issue ∈ ended.ops.filterMap Op.failure
            · obtain ⟨issue, listed⟩ := failed
              exact ⟨issue, _, .notCleared item _ _ size ended issue detached isFile read loop listed,
                unchanged.trans gone⟩
            · have noFailure : ended.ops.filterMap Op.failure = [] :=
                List.eq_nil_iff_forall_not_mem.mpr fun issue listed => failed ⟨issue, listed⟩
              have cleared : ¬ ClearFails cfg faults store item.ino := by
                rintro (noSize | missing | ⟨other, index, isSize, bound, fails⟩)
                · exact noSize noRead
                · cases missing.symm.trans ((inoSize_descriptionDeleted store parent name item.ino).symm.trans stored)
                · obtain rfl := Option.some.inj
                    (isSize.symm.trans ((inoSize_descriptionDeleted store parent name item.ino).symm.trans stored))
                  exact failed ((clearLoop_failure loop).mpr ⟨index, bound, blockFails_descriptionDeleted.mpr fails⟩)
              obtain ⟨issue, isIssue⟩ := unrecorded ended.store (rest.resolve_left fun both => cleared both.2)
              have ran := RemoveChildRun.cleared item _ _ size ended detached isFile read loop noFailure
              rw [isIssue] at ran
              exact ⟨issue, _, ran, (deleteRecords_links _ _ _ rfl).trans (unchanged.trans gone)⟩
      · obtain ⟨issue, isIssue⟩ := unrecorded (descriptionDeleted store parent name item.ino)
          (rest.resolve_left fun both => isFile both.1)
        have ran : RemoveChildFile cfg faults parent name store _ _ := .noData item _ detached isFile
        rw [isIssue] at ran
        exact ⟨issue, _, ran, (deleteRecords_links _ _ _ rfl).trans gone⟩

end Attempt

section Spin

variable {cfg : TiFsConfig} {faults : Nat → UnlinkFaults} {store : Store} {parent : ParentStorageIno}
  {name : ByteString}

theorem removeChild_of_missing (faults : UnlinkFaults) (missing : dirEntry store parent name = none) :
    ∃ issue, RemoveChildFile cfg faults parent name store (.error issue) store := by
  cases fault : faults.remove with
  | some issue =>
      refine ⟨issue, .notRemoved issue ?_⟩
      rw [fault]
      rfl
  | none =>
      refine ⟨.fileNotFound name, .notRemoved _ ?_⟩
      have view : dirEntry (Txn.mk store []).view parent name = none := missing
      rw [fault, attempted, atomically, removeChild_missing view]

/-- Once an attempt has lost the entry, the retries report an error and do not restore it. -/
theorem spin_of_lost (left : Nat) {otherErrorCount : Nat} (isLeft : 3 ≤ otherErrorCount + left) {issue : FsError}
    {between : Store} (ran : RemoveChildFile cfg (faults otherErrorCount) parent name store (.error issue) between)
    (lost : dirEntry between parent name = none) :
    ∃ reported after, SpinRun cfg faults parent name otherErrorCount store (.error reported) after ∧
      dirEntry after parent name = none := by
  by_cases again : (HashFsError.ofFsError issue).isUnknown = true ∧ otherErrorCount < 3
  · obtain ⟨unknown, fewer⟩ := again
    induction left generalizing otherErrorCount store issue between with
    | zero => omega
    | succ left ih =>
        obtain ⟨next, ranNext⟩ : ∃ issue, RemoveChildFile cfg (faults (otherErrorCount + 1)) parent name between
            (.error issue) between := removeChild_of_missing _ lost
        by_cases nextAgain : (HashFsError.ofFsError next).isUnknown = true ∧ otherErrorCount + 1 < 3
        · obtain ⟨reported, after, rest, gone⟩ := ih (by omega) ranNext lost nextAgain.1 nextAgain.2
          exact ⟨reported, after, .retried otherErrorCount store between after issue _ ran unknown fewer rest, gone⟩
        · have rest : SpinRun cfg faults parent name (otherErrorCount + 1) between (.error (.ofFsError next)) between :=
            .reported _ between between next ranNext fun isUnknown => by
              by_contra below
              exact nextAgain ⟨isUnknown, by omega⟩
          exact ⟨_, between, .retried otherErrorCount store between between issue _ ran unknown fewer rest, lost⟩
  · refine ⟨_, between, .reported otherErrorCount store between issue ran ?_, lost⟩
    intro unknown
    by_contra below
    exact again ⟨unknown, by omega⟩

theorem spin_fails (waits : Nat) {otherErrorCount : Nat} (within : otherErrorCount + waits ≤ 3)
    (refused : ∀ earlier, otherErrorCount ≤ earlier → earlier < otherErrorCount + waits → (faults earlier).refuses)
    (fails : FailsAfterRemoval cfg (faults (otherErrorCount + waits)) parent name store) :
    ∃ issue after, SpinRun cfg faults parent name otherErrorCount store (.error issue) after ∧
      dirEntry after parent name = none := by
  induction waits generalizing otherErrorCount with
  | zero =>
      obtain ⟨issue, between, ran, lost⟩ := removeChild_fails fails
      exact spin_of_lost 3 (Nat.le_add_left 3 otherErrorCount) ran lost
  | succ waits ih =>
      obtain ⟨issue, fault, unknown⟩ := refused otherErrorCount (Nat.le_refl _) (by omega)
      have ran : RemoveChildFile cfg (faults otherErrorCount) parent name store (.error issue) store := by
        refine .notRemoved issue ?_
        rw [fault]
        rfl
      have sameAttempt : otherErrorCount + 1 + waits = otherErrorCount + (waits + 1) := by omega
      obtain ⟨reported, after, rest, gone⟩ : ∃ reported after, SpinRun cfg faults parent name (otherErrorCount + 1) store
          (.error reported) after ∧ dirEntry after parent name = none := by
        apply ih
        · omega
        · exact fun earlier above below => refused earlier (by omega) (by omega)
        · rw [sameAttempt]
          exact fails
      exact ⟨reported, after, .retried otherErrorCount store store after issue _ ran unknown (by omega) rest, gone⟩

theorem entryKept_refl (store : Store) (parent : ParentStorageIno) (name : ByteString) :
    EntryKept store parent name store :=
  fun _ found => ⟨found, id⟩

theorem fault_of_refused {faults : UnlinkFaults} {issue : FsError}
    (refused : attempted faults.remove (directoryRemoveChild parent name [.file, .symlink]) store = .error issue)
    {item : StorageDirItem} (found : dirEntry store parent name = some item)
    (allowed : item.typ ∈ [StorageDirItemKind.file, .symlink]) : faults.remove = some issue := by
  cases fault : faults.remove with
  | some other =>
      rw [fault] at refused
      exact congrArg some (Except.error.inj refused)
  | none => cases (removed_iff.mpr ⟨fault, found, allowed, rfl⟩).symm.trans refused

theorem spin_kept {otherErrorCount : Nat} {result : Except HashFsError Unit} {after : Store}
    (run : SpinRun cfg faults parent name otherErrorCount store result after) (within : otherErrorCount ≤ 3)
    (sound : ∀ attempt, otherErrorCount ≤ attempt → attempt ≤ 3 →
      (∀ earlier, otherErrorCount ≤ earlier → earlier < attempt → (faults earlier).refuses) →
      ¬ FailsAfterRemoval cfg (faults attempt) parent name store) (failed : result ≠ .ok ()) :
    EntryKept store parent name after := by
  have noEarlier : ∀ count earlier : Nat, count ≤ earlier → earlier < count → (faults earlier).refuses :=
    fun count earlier above below => absurd below (Nat.not_lt_of_le above)
  induction run with
  | succeeded otherErrorCount store after ran => exact absurd rfl failed
  | reported otherErrorCount store after issue ran final =>
      rcases removeChild_error ran with ⟨rfl, _⟩ | fails
      · exact entryKept_refl _ _ _
      · exact absurd fails (sound otherErrorCount (Nat.le_refl _) within (noEarlier otherErrorCount))
  | retried otherErrorCount store between after issue result ran unknown fewer rest ih =>
      rcases removeChild_error ran with ⟨rfl, refused⟩ | fails
      · refine ih fewer ?_ failed
        intro attempt above limit refuses fails
        have present := fails
        obtain ⟨item, found, allowed, _⟩ := present
        apply sound attempt (by omega) limit ?_ fails
        intro earlier started below
        by_cases isFirst : earlier = otherErrorCount
        · rw [isFirst]
          exact ⟨issue, fault_of_refused refused found allowed, unknown⟩
        · exact refuses earlier (by omega) below
      · exact absurd fails (sound otherErrorCount (Nat.le_refl _) within (noEarlier otherErrorCount))

/-- Whatever transactions fail, an error leaves the entry and its parent link exactly if
the first attempt that removes the entry, if there is one, has no transaction after the
removal that fails. -/
theorem failed_unlink_kept_iff (cfg : TiFsConfig) (faults : Nat → UnlinkFaults) (store : Store)
    (parent : ParentStorageIno) (name : ByteString) :
    ((∀ issue after, RemoveChildFile cfg (faults 0) parent name store (.error issue) after →
        EntryKept store parent name after) ∧
      (∀ issue after, SpinRun cfg faults parent name 0 store (.error issue) after →
        EntryKept store parent name after)) ↔
    ∀ attempt ≤ 3, (∀ earlier < attempt, (faults earlier).refuses) →
      ¬ FailsAfterRemoval cfg (faults attempt) parent name store := by
  constructor
  · rintro ⟨_, spun⟩ attempt within refused fails
    have present := fails
    obtain ⟨item, found, _⟩ := present
    obtain ⟨issue, after, run, lost⟩ : ∃ issue after, SpinRun cfg faults parent name 0 store (.error issue) after ∧
        dirEntry after parent name = none := by
      apply spin_fails attempt
      · rwa [Nat.zero_add]
      · intro earlier _ below
        rw [Nat.zero_add] at below
        exact refused earlier below
      · rwa [Nat.zero_add]
    cases lost.symm.trans (spun issue after run item found).1
  · intro sound
    constructor
    · intro issue after ran
      rcases removeChild_error ran with ⟨rfl, _⟩ | fails
      · exact entryKept_refl _ _ _
      · exact absurd fails (sound 0 (Nat.zero_le 3) fun earlier below => absurd below (Nat.not_lt_zero earlier))
    · intro issue after run
      refine spin_kept run (Nat.zero_le 3) ?_ (by simp)
      intro attempt _ within refused
      exact sound attempt within fun earlier => refused earlier (Nat.zero_le earlier)

def checkFails : UnlinkFaults := { UnlinkFaults.none with check := some (.keyError "write conflict") }

/-- The file is reported not to be removed, and its entry is gone. -/
theorem entry_lost_by_failed_unlink :
    ¬ ((∀ issue after, RemoveChildFile (paddingConfig 2 Nat.two_pos) checkFails rootInode [97] linkedFile
          (.error issue) after → EntryKept linkedFile rootInode [97] after) ∧
        (∀ issue after, SpinRun (paddingConfig 2 Nat.two_pos) (fun _ => checkFails) rootInode [97] 0 linkedFile
          (.error issue) after → EntryKept linkedFile rootInode [97] after)) := by
  rintro ⟨once, _⟩
  have found : dirEntry linkedFile rootInode [97] = some ⟨10, .file⟩ := by decide +kernel
  have fails : FailsAfterRemoval (paddingConfig 2 Nat.two_pos) checkFails rootInode [97] linkedFile :=
    ⟨⟨10, .file⟩, found, by decide, rfl, Or.inl (Option.some_ne_none _)⟩
  obtain ⟨issue, after, ran, lost⟩ := removeChild_fails fails
  cases lost.symm.trans (once issue after ran _ found).1

end Spin

end TiFs
