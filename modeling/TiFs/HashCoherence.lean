import TiFs.FileHash

/-! When the stored hash of a file is the hash of what is stored of the file. A block
write deletes the hash before it changes the iteration id, and it grows the size
behind that; an allocation changes neither. -/

namespace TiFs

open KeyValue Tables

/-- A fresh computation would store what is stored. -/
def HashCoherent (cfg : TiFsConfig) (ino : StorageIno) (store : Store) : Prop :=
  ∀ value, store.lookup (.inodeX ino .fullHash) = some value → ∃ size hashData,
    inoSize store ino = some size ∧
    readHashesOfFile cfg ino (hashedBlockRange cfg size.size) store = .ok hashData ∧
    value = serializeFullHash (cfg.calculateHash hashData)

def FileView.blocks (cfg : TiFsConfig) (size : InoSize) : Nat := divCeil size.size cfg.blockSize

def FileView.IsHash (cfg : TiFsConfig) (view : FileView) (hash : TiFsHash) : Prop :=
  ∃ size, view.size = some size ∧ hash = cfg.calculateHash (view.hashData cfg (FileView.blocks cfg size))

def FileView.Coherent (cfg : TiFsConfig) (view : FileView) : Prop :=
  ∀ value, view.fullHash = some value → ∃ hash, view.IsHash cfg hash ∧ value = serializeFullHash hash

theorem hashCoherent_iff {cfg : TiFsConfig} {ino : StorageIno} {store : Store} :
    HashCoherent cfg ino store ↔ (fileView ino store).Coherent cfg := by
  constructor
  · intro coherent value isFull
    obtain ⟨size, hashData, stored, read, isValue⟩ := coherent value isFull
    rw [readHashesOfFile_eq] at read
    rw [← Except.ok.inj read] at isValue
    exact ⟨_, ⟨size, stored, rfl⟩, isValue⟩
  · intro coherent value isFull
    obtain ⟨hash, ⟨size, stored, rfl⟩, isValue⟩ := coherent value isFull
    exact ⟨size, _, stored, readHashesOfFile_eq cfg ino size.size store, isValue⟩

def WritePhase.isClearing : WritePhase → Bool
  | .clearFullHash _ => true
  | _ => false

def WritePhase.isChanging : WritePhase → Bool
  | .changeIterationId _ => true
  | _ => false

def WritePhase.isSizing : WritePhase → Bool
  | .sizePeek _ => true
  | .sizeUpdate _ => true
  | _ => false

def HashPhase.changeId : HashPhase → Option Uuid
  | .readHashes changeIterId _ => some changeIterId
  | .writeHash changeIterId _ => some changeIterId
  | _ => none

def HashPhase.IsCurrent (view : FileView) (phase : HashPhase) : Prop :=
  phase.changeId ≠ none ∧ phase.changeId = view.changeId

def FileView.Raises (cfg : TiFsConfig) (view : FileView) (size : Nat) : Prop :=
  ∀ stored ∈ view.size, FileView.blocks cfg stored < divCeil size cfg.blockSize

/-- The block write has changed the iteration id and will still add blocks to the file. -/
def RegisterTask.Raises (cfg : TiFsConfig) (view : FileView) (task : RegisterTask) : Prop :=
  task.phase.isSizing = true ∧ view.Raises cfg (task.blocks.maxFileSize cfg)

def HashPhase.isReturned : HashPhase → Bool
  | .returned _ => true
  | _ => false

def WritePhase.isDone : WritePhase → Bool
  | .done => true
  | _ => false

theorem WritePhase.not_clearing_of_done {phase : WritePhase} (isDone : phase.isDone = true) :
    phase.isClearing = false := by
  cases phase with
  | done => rfl
  | _ => cases isDone

instance (cfg : TiFsConfig) (view : FileView) (size : Nat) : Decidable (view.Raises cfg size) :=
  inferInstanceAs (Decidable (∀ stored ∈ view.size,
    FileView.blocks cfg stored < divCeil size cfg.blockSize))

instance (cfg : TiFsConfig) (view : FileView) (task : RegisterTask) : Decidable (task.Raises cfg view) :=
  inferInstanceAs (Decidable (_ ∧ _))

instance (view : FileView) (phase : HashPhase) : Decidable (phase.IsCurrent view) :=
  inferInstanceAs (Decidable (_ ∧ _))

/-- No hash is stored while a block write is between its deletion of the hash and
its change of the iteration id, and no computation reads the iteration id while a block
write is between that change and the end of its size update, if this adds blocks. -/
def HashPhase.Apart (cfg : TiFsConfig) (view : FileView) (writers : List RegisterTask) : HashPhase → Prop
  | .readMetadata => view.fullHash = none → ∀ task ∈ writers, ¬ task.Raises cfg view
  | .writeHash changeIterId _ => view.changeId = some changeIterId →
      ∀ task ∈ writers, task.phase.isChanging = false
  | _ => True

instance (cfg : TiFsConfig) (view : FileView) (writers : List RegisterTask) :
    ∀ phase : HashPhase, Decidable (phase.Apart cfg view writers)
  | .readHash => isTrue trivial
  | .readMetadata => inferInstanceAs (Decidable (view.fullHash = none →
      ∀ task ∈ writers, ¬ task.Raises cfg view))
  | .readHashes _ _ => isTrue trivial
  | .writeHash changeIterId _ => inferInstanceAs (Decidable (view.changeId = some changeIterId →
      ∀ task ∈ writers, task.phase.isChanging = false))
  | .returned _ => isTrue trivial

namespace FileHashSystem

def isQuiet (state : FileHashSystem) : Bool :=
  (state.writers.all fun task => task.phase.isDone) && state.hashers.all HashPhase.isReturned

/-- A random iteration id is none that a computation holds. -/
def FreshId (state : FileHashSystem) : FileHashEvent → Prop
  | .advanceWrite i ambient => ∀ task ∈ state.writers[i]?, task.phase.isChanging = true →
      ∀ phase ∈ state.hashers, phase.changeId ≠ some ambient.uuid
  | _ => True

/-- No allocation adds blocks while a hash is stored or a computation holds the
current iteration id, and computations keep apart from block writes. -/
def HashApart (cfg : TiFsConfig) (ino : StorageIno) (state : FileHashSystem) : FileHashEvent → Prop
  | .advanceHash i => ∀ phase ∈ state.hashers[i]?,
      phase.Apart cfg (fileView ino state.store) state.writers
  | .allocate offset length _ =>
      (fileView ino state.store).Raises cfg ((offset + length) % 2 ^ 64).toNat →
        (fileView ino state.store).fullHash = none ∧
          ∀ phase ∈ state.hashers, ¬ phase.IsCurrent (fileView ino state.store)
  | _ => True

instance (state : FileHashSystem) : ∀ event, Decidable (state.FreshId event)
  | .write _ => isTrue trivial
  | .getHash => isTrue trivial
  | .allocate _ _ _ => isTrue trivial
  | .advanceWrite i ambient => inferInstanceAs (Decidable (∀ task ∈ state.writers[i]?,
      task.phase.isChanging = true → ∀ phase ∈ state.hashers, phase.changeId ≠ some ambient.uuid))
  | .advanceHash _ => isTrue trivial

instance (cfg : TiFsConfig) (ino : StorageIno) (state : FileHashSystem) :
    ∀ event, Decidable (state.HashApart cfg ino event)
  | .write _ => isTrue trivial
  | .getHash => isTrue trivial
  | .allocate offset length _ => inferInstanceAs (Decidable (
      (fileView ino state.store).Raises cfg ((offset + length) % 2 ^ 64).toNat →
        (fileView ino state.store).fullHash = none ∧
          ∀ phase ∈ state.hashers, ¬ phase.IsCurrent (fileView ino state.store)))
  | .advanceWrite _ _ => isTrue trivial
  | .advanceHash i => inferInstanceAs (Decidable (∀ phase ∈ state.hashers[i]?,
      phase.Apart cfg (fileView ino state.store) state.writers))

end FileHashSystem

/-- What holds of the stored hash and of the computations under way. -/
structure HashKept (cfg : TiFsConfig) (view : FileView) (writers : List RegisterTask)
    (hashers : List HashPhase) : Prop where
  cached : view.Coherent cfg ∨ ∃ task ∈ writers, task.phase.isClearing = true
  changing : (∃ task ∈ writers, task.phase.isChanging = true) → view.fullHash = none
  raising : ∀ task ∈ writers, task.Raises cfg view →
    view.fullHash = none ∧ ∀ phase ∈ hashers, ¬ phase.IsCurrent view
  reading : ∀ changeIterId read, .readHashes changeIterId read ∈ hashers →
    view.changeId = some changeIterId →
    ∃ size, view.size = some size ∧ divCeil read cfg.blockSize = FileView.blocks cfg size
  writing : ∀ changeIterId newFullHash, .writeHash changeIterId newFullHash ∈ hashers →
    view.changeId = some changeIterId → view.IsHash cfg newFullHash ∨
      (∃ task ∈ writers, task.phase.isClearing = true) ∨ ∃ task ∈ writers, task.phase.isChanging = true

structure FileView.Like (cfg : TiFsConfig) (view after : FileView) : Prop where
  fullHash : after.fullHash = view.fullHash
  changeId : after.changeId = view.changeId
  hashes : after.hashes = view.hashes
  blocks : after.size.map (FileView.blocks cfg) = view.size.map (FileView.blocks cfg)

section Like

variable {cfg : TiFsConfig} {view after : FileView}

theorem FileView.Like.refl (cfg : TiFsConfig) (view : FileView) : FileView.Like cfg view view :=
  ⟨rfl, rfl, rfl, rfl⟩

theorem FileView.Like.exists_blocks (like : view.Like cfg after) {count : Nat}
    (found : ∃ size, view.size = some size ∧ count = FileView.blocks cfg size) :
    ∃ size, after.size = some size ∧ count = FileView.blocks cfg size := by
  obtain ⟨size, stored, isCount⟩ := found
  have mapped := like.blocks
  rw [stored, Option.map_some] at mapped
  obtain ⟨larger, isLarger, same⟩ := Option.map_eq_some_iff.mp mapped
  exact ⟨larger, isLarger, isCount.trans same.symm⟩

theorem FileView.Like.isHash (like : view.Like cfg after) {hash : TiFsHash}
    (isHash : view.IsHash cfg hash) : after.IsHash cfg hash := by
  obtain ⟨size, stored, rfl⟩ := isHash
  obtain ⟨larger, isLarger, same⟩ := like.exists_blocks ⟨size, stored, rfl⟩
  refine ⟨larger, isLarger, ?_⟩
  rw [← same, FileView.hashData, FileView.hashData, like.hashes]

theorem FileView.Like.coherent (like : view.Like cfg after) (coherent : view.Coherent cfg) :
    after.Coherent cfg := by
  intro value isFull
  rw [like.fullHash] at isFull
  obtain ⟨hash, isHash, isValue⟩ := coherent value isFull
  exact ⟨hash, like.isHash isHash, isValue⟩

theorem FileView.Like.raises (like : view.Like cfg after) {size : Nat}
    (raises : after.Raises cfg size) : view.Raises cfg size := by
  intro stored isStored
  obtain ⟨larger, isLarger, same⟩ := like.exists_blocks ⟨stored, isStored, rfl⟩
  rw [same]
  exact raises larger isLarger

theorem FileView.Like.isCurrent (like : view.Like cfg after) {phase : HashPhase}
    (current : phase.IsCurrent after) : phase.IsCurrent view :=
  ⟨current.1, current.2.trans like.changeId⟩

end Like

section Kept

variable {cfg : TiFsConfig} {view after : FileView} {writers : List RegisterTask}
  {hashers : List HashPhase}

theorem HashKept.of_unused (noHash : view.fullHash = none)
    (notCurrent : ∀ phase ∈ hashers, ¬ phase.IsCurrent view) :
    HashKept cfg view writers hashers where
  cached := by
    left
    intro value isFull
    rw [noHash] at isFull
    cases isFull
  changing := fun _ => noHash
  raising := fun _ _ _ => ⟨noHash, notCurrent⟩
  reading := fun _ _ member current =>
    absurd ⟨by simp [HashPhase.changeId], current.symm⟩ (notCurrent _ member)
  writing := fun _ _ member current =>
    absurd ⟨by simp [HashPhase.changeId], current.symm⟩ (notCurrent _ member)

theorem HashKept.like {others : List RegisterTask} (kept : HashKept cfg view writers hashers)
    (like : view.Like cfg after)
    (clearing : (∃ task ∈ writers, task.phase.isClearing = true) →
      ∃ task ∈ others, task.phase.isClearing = true)
    (changing : (∃ task ∈ others, task.phase.isChanging = true) ↔
      ∃ task ∈ writers, task.phase.isChanging = true)
    (sizing : ∀ task ∈ others, task.phase.isSizing = true →
      ∃ old ∈ writers, old.phase.isSizing = true ∧ old.blocks = task.blocks) :
    HashKept cfg after others hashers where
  cached := kept.cached.imp like.coherent clearing
  changing := fun found => like.fullHash.trans (kept.changing (changing.mp found))
  raising := by
    intro task member raises
    obtain ⟨old, isOld, isSizing, same⟩ := sizing task member raises.1
    obtain ⟨noHash, notCurrent⟩ := kept.raising old isOld ⟨isSizing, like.raises (same ▸ raises.2)⟩
    exact ⟨like.fullHash.trans noHash, fun phase isPhase current =>
      notCurrent phase isPhase (like.isCurrent current)⟩
  reading := by
    intro changeIterId read member current
    exact like.exists_blocks (kept.reading changeIterId read member (like.changeId.symm.trans current))
  writing := by
    intro changeIterId newFullHash member current
    rcases kept.writing changeIterId newFullHash member (like.changeId.symm.trans current) with
      isHash | isClearing | isChanging
    · exact Or.inl (like.isHash isHash)
    · exact Or.inr (Or.inl (clearing isClearing))
    · exact Or.inr (Or.inr (changing.mpr isChanging))

/-- Only the size changes: it adds no blocks, or nothing of the hash is in use. -/
theorem HashKept.resized {others : List RegisterTask} (kept : HashKept cfg view writers hashers)
    {size larger : InoSize} (stored : view.size = some size) (grows : size.size ≤ larger.size)
    (unused : view.Raises cfg larger.size →
      view.fullHash = none ∧ ∀ phase ∈ hashers, ¬ phase.IsCurrent view)
    (clearing : (∃ task ∈ writers, task.phase.isClearing = true) →
      ∃ task ∈ others, task.phase.isClearing = true)
    (changing : (∃ task ∈ others, task.phase.isChanging = true) ↔
      ∃ task ∈ writers, task.phase.isChanging = true)
    (sizing : ∀ task ∈ others, task.phase.isSizing = true →
      ∃ old ∈ writers, old.phase.isSizing = true ∧ old.blocks = task.blocks) :
    HashKept cfg { view with size := some larger } others hashers := by
  by_cases raises : FileView.blocks cfg size < FileView.blocks cfg larger
  · have isRaised : view.Raises cfg larger.size := by
      intro other isOther
      rw [Option.mem_def, stored] at isOther
      exact Option.some.inj isOther ▸ raises
    obtain ⟨noHash, notCurrent⟩ := unused isRaised
    exact .of_unused noHash notCurrent
  · have same : FileView.blocks cfg larger = FileView.blocks cfg size := by
      have monotone : FileView.blocks cfg size ≤ FileView.blocks cfg larger :=
        Nat.div_le_div_right (by omega)
      omega
    have blocks : (some larger).map (FileView.blocks cfg) = view.size.map (FileView.blocks cfg) := by
      rw [stored, Option.map_some, Option.map_some, same]
    exact kept.like ⟨rfl, rfl, rfl, blocks⟩ clearing changing sizing

theorem HashKept.advanced {i : Nat} {task : RegisterTask} {phase : WritePhase}
    (kept : HashKept cfg view writers hashers) (present : writers[i]? = some task)
    (clearing : phase.isClearing = task.phase.isClearing)
    (changing : phase.isChanging = task.phase.isChanging)
    (sizing : phase.isSizing = true → task.phase.isSizing = true) :
    HashKept cfg view (writers.set i { task with phase := phase }) hashers := by
  apply kept.like (.refl cfg view)
  · apply exists_mem_set present
    exact fun isClearing => clearing.trans isClearing
  · constructor
    · apply exists_of_mem_set present
      exact fun isChanging => changing.symm.trans isChanging
    · apply exists_mem_set present
      exact fun isChanging => changing.trans isChanging
  · intro other member isSizing
    rcases List.mem_or_eq_of_mem_set member with old | isNew
    · exact ⟨other, old, isSizing, rfl⟩
    · rw [isNew] at isSizing ⊢
      exact ⟨task, List.mem_of_getElem? present, sizing isSizing, rfl⟩

/-- What one transaction of a block write preserves. -/
theorem HashKept.registerMove {i : Nat} {task : RegisterTask} {phase : WritePhase} {ambient : Ambient}
    (kept : HashKept cfg view writers hashers) (present : writers[i]? = some task)
    (fresh : task.phase.isChanging = true → ∀ hasher ∈ hashers, hasher.changeId ≠ some ambient.uuid)
    (move : RegisterMove cfg ambient task view phase after) :
    HashKept cfg after (writers.set i { task with phase := phase }) hashers := by
  have member : task ∈ writers := List.mem_of_getElem? present
  have inPlace : { task with phase := phase } ∈ writers.set i { task with phase := phase } :=
    List.mem_set (List.getElem?_eq_some_iff.mp present).1 _
  cases move with
  | replaced decrements hashes current =>
      exact {
        cached := Or.inr ⟨_, inPlace, rfl⟩
        changing := fun found => kept.changing (exists_of_mem_set present (by intro no; cases no) found)
        raising := by
          intro other isOther raises
          rcases List.mem_or_eq_of_mem_set isOther with old | isNew
          · exact kept.raising other old raises
          · rw [isNew] at raises
            cases raises.1
        reading := kept.reading
        writing := fun _ _ _ _ => Or.inr (Or.inl ⟨_, inPlace, rfl⟩) }
  | cleared decrements current =>
      exact {
        cached := Or.inl (by intro value isFull; cases isFull)
        changing := fun _ => rfl
        raising := by
          intro other isOther raises
          rcases List.mem_or_eq_of_mem_set isOther with old | isNew
          · exact ⟨rfl, (kept.raising other old raises).2⟩
          · rw [isNew] at raises
            cases raises.1
        reading := kept.reading
        writing := fun _ _ _ _ => Or.inr (Or.inr ⟨_, inPlace, rfl⟩) }
  | changed decrements current =>
      have isChanging : task.phase.isChanging = true := by rw [current]; rfl
      apply HashKept.of_unused
      · exact kept.changing ⟨task, member, isChanging⟩
      · intro hasher isHasher isCurrent
        exact fresh isChanging hasher isHasher isCurrent.2
  | tooSmall decrements current =>
      apply kept.advanced present
      · rw [current]; rfl
      · rw [current]; rfl
      · intro _
        rw [current]; rfl
  | enough decrements current =>
      apply kept.advanced present
      · rcases current with current | current
        · rw [current]; rfl
        · rw [current]; rfl
      · rcases current with current | current
        · rw [current]; rfl
        · rw [current]; rfl
      · intro no
        cases no
  | grown decrements size larger current stored isMax small =>
      apply kept.resized stored small.le
      · intro raises
        have isSizing : task.phase.isSizing = true := by rw [current]; rfl
        exact kept.raising task member ⟨isSizing, isMax ▸ raises⟩
      · apply exists_mem_set present
        rw [current]
        intro no
        cases no
      · constructor
        · apply exists_of_mem_set present
          intro no
          cases no
        · apply exists_mem_set present
          rw [current]
          intro no
          cases no
      · intro other isOther isSizing
        rcases List.mem_or_eq_of_mem_set isOther with old | isNew
        · exact ⟨other, old, isSizing, rfl⟩
        · rw [isNew] at isSizing
          cases isSizing
  | decremented decrements current =>
      apply kept.advanced present
      · rw [current]; rfl
      · rw [current]; rfl
      · intro no
        cases no
  | idle => exact kept.advanced present rfl rfl id

theorem HashKept.hashed {j : Nat} {old new : HashPhase} (kept : HashKept cfg view writers hashers)
    (present : hashers[j]? = some old)
    (current : new.IsCurrent view → old.IsCurrent view ∨ ∀ task ∈ writers, ¬ task.Raises cfg view)
    (reading : ∀ changeIterId read, new = .readHashes changeIterId read →
      view.changeId = some changeIterId →
      ∃ size, view.size = some size ∧ divCeil read cfg.blockSize = FileView.blocks cfg size)
    (writing : ∀ changeIterId newFullHash, new = .writeHash changeIterId newFullHash →
      view.changeId = some changeIterId → view.IsHash cfg newFullHash) :
    HashKept cfg view writers (hashers.set j new) where
  cached := kept.cached
  changing := kept.changing
  raising := by
    intro task member raises
    obtain ⟨noHash, notCurrent⟩ := kept.raising task member raises
    refine ⟨noHash, ?_⟩
    intro phase isPhase isCurrent
    rcases List.mem_or_eq_of_mem_set isPhase with before | isNew
    · exact notCurrent phase before isCurrent
    · rw [isNew] at isCurrent
      rcases current isCurrent with wasCurrent | noRaise
      · exact notCurrent old (List.mem_of_getElem? present) wasCurrent
      · exact noRaise task member raises
  reading := by
    intro changeIterId read member isCurrent
    rcases List.mem_or_eq_of_mem_set member with before | isNew
    · exact kept.reading changeIterId read before isCurrent
    · exact reading changeIterId read isNew.symm isCurrent
  writing := by
    intro changeIterId newFullHash member isCurrent
    rcases List.mem_or_eq_of_mem_set member with before | isNew
    · exact kept.writing changeIterId newFullHash before isCurrent
    · exact Or.inl (writing changeIterId newFullHash isNew.symm isCurrent)

theorem HashKept.without {others : List HashPhase} (kept : HashKept cfg view writers hashers)
    (known : ∀ phase ∈ others, phase ∈ hashers ∨ phase.changeId = none) :
    HashKept cfg view writers others where
  cached := kept.cached
  changing := kept.changing
  raising := by
    intro task member raises
    obtain ⟨noHash, notCurrent⟩ := kept.raising task member raises
    refine ⟨noHash, ?_⟩
    intro phase isPhase isCurrent
    rcases known phase isPhase with before | noId
    · exact notCurrent phase before isCurrent
    · exact isCurrent.1 noId
  reading := by
    intro changeIterId read member
    rcases known _ member with before | noId
    · exact kept.reading changeIterId read before
    · cases noId
  writing := by
    intro changeIterId newFullHash member
    rcases known _ member with before | noId
    · exact kept.writing changeIterId newFullHash before
    · cases noId

theorem HashKept.released {j : Nat} {next : HashPhase} (kept : HashKept cfg view writers hashers)
    (noId : next.changeId = none) : HashKept cfg view writers (hashers.set j next) := by
  apply kept.without
  intro phase member
  rcases List.mem_or_eq_of_mem_set member with before | isNew
  · exact Or.inl before
  · exact Or.inr (isNew ▸ noId)

theorem HashKept.stored {j : Nat} {changeIterId : Uuid} {newFullHash : TiFsHash} {next : HashPhase}
    (kept : HashKept cfg view writers hashers)
    (present : hashers[j]? = some (.writeHash changeIterId newFullHash))
    (current : view.changeId = some changeIterId)
    (unchanging : ∀ task ∈ writers, task.phase.isChanging = false) (noId : next.changeId = none) :
    HashKept cfg { view with fullHash := some (serializeFullHash newFullHash) } writers
      (hashers.set j next) := by
  have member : HashPhase.writeHash changeIterId newFullHash ∈ hashers := List.mem_of_getElem? present
  have notChanging : ¬ ∃ task ∈ writers, task.phase.isChanging = true := by
    rintro ⟨task, isTask, isChanging⟩
    rw [unchanging task isTask] at isChanging
    cases isChanging
  have noRaise : ∀ task ∈ writers, ¬ task.Raises cfg view := by
    intro task isTask raises
    exact (kept.raising task isTask raises).2 _ member ⟨by simp [HashPhase.changeId], current.symm⟩
  have after : HashKept cfg view writers (hashers.set j next) := kept.released noId
  exact {
    cached := by
      rcases kept.writing changeIterId newFullHash member current with isHash | isClearing | isChanging
      · left
        intro value isFull
        exact ⟨newFullHash, isHash, (Option.some.inj isFull).symm⟩
      · exact Or.inr isClearing
      · exact absurd isChanging notChanging
    changing := fun found => absurd found notChanging
    raising := fun task isTask raises => absurd raises (noRaise task isTask)
    reading := after.reading
    writing := after.writing }

end Kept

section Steps

variable {cfg : TiFsConfig} {ino : StorageIno} {store : Store} {writers : List RegisterTask}
  {hashers : List HashPhase}

theorem checkedWriteOfFileHash_cases {changeIterId : Uuid} {newFullHash : TiFsHash} {done : Bool}
    {after : Store}
    (ran : atomically (checkedWriteOfFileHash ino changeIterId newFullHash) store = .ok (done, after)) :
    (fileView ino store).changeId = some changeIterId ∧
        fileView ino after =
          { fileView ino store with fullHash := some (serializeFullHash newFullHash) } ∨
      after = store := by
  cases stored : (Txn.mk store []).view.lookup (.inodeX ino .changeIterationId) with
  | none =>
      rw [atomically, checkedWriteOfFileHash, bind_error (fetch_of_none stored)] at ran
      cases ran
  | some inoChangeId =>
      rw [atomically, checkedWriteOfFileHash, bind_ok (fetch_of_some stored)] at ran
      by_cases same : inoChangeId = changeIterId
      · rw [if_pos same] at ran
        obtain ⟨_, rfl⟩ := Prod.mk.inj (Except.ok.inj ran)
        exact Or.inl ⟨stored.trans (congrArg some same),
          fileView_fullHash ino store (some (serializeFullHash newFullHash))⟩
      · rw [if_neg same] at ran
        obtain ⟨_, rfl⟩ := Prod.mk.inj (Except.ok.inj ran)
        exact Or.inr rfl

theorem inodeAllocateSize_cases {now : SystemTime} {offset length : Int} {after : Store}
    (ran : atomically (inodeAllocateSize cfg now ino offset length) store = .ok ((), after)) :
    ∃ size, inoSize store ino = some size ∧
      ((∃ larger : InoSize, larger.size = ((offset + length) % 2 ^ 64).toNat ∧
          size.size < larger.size ∧
          fileView ino after = { fileView ino store with size := some larger }) ∨ after = store) := by
  cases stored : inoSize (Txn.mk store []).view ino with
  | none =>
      rw [atomically, inodeAllocateSize, bind_error (fetch_of_none stored)] at ran
      cases ran
  | some size =>
      rw [atomically, inodeAllocateSize, bind_ok (fetch_of_some stored)] at ran
      refine ⟨size, stored, ?_⟩
      by_cases enough : ((offset + length) % 2 ^ 64).toNat ≤ size.size
      · rw [if_pos enough] at ran
        obtain ⟨_, rfl⟩ := Prod.mk.inj (Except.ok.inj ran)
        exact Or.inr rfl
      · rw [if_neg enough] at ran
        obtain ⟨_, rfl⟩ := Prod.mk.inj (Except.ok.inj ran)
        let larger : InoSize :=
          { size.setSize ((offset + length) % 2 ^ 64).toNat cfg.blockSize now with lastChange := now }
        have isTarget : larger.size = ((offset + length) % 2 ^ 64).toNat :=
          InoSize.setSize_size size _ cfg.blockSize now
        have small : size.size < larger.size := isTarget.symm ▸ Nat.lt_of_not_le enough
        exact Or.inl ⟨larger, isTarget, small, fileView_size ino store larger⟩

theorem HashKept.hashStep {j : Nat} {phase : HashPhase}
    (kept : HashKept cfg (fileView ino store) writers hashers) (present : hashers[j]? = some phase)
    (apart : phase.Apart cfg (fileView ino store) writers) :
    HashKept cfg (fileView ino (phase.step cfg ino store).2) writers
      (hashers.set j (phase.step cfg ino store).1) := by
  cases phase with
  | readHash =>
      simp only [HashPhase.step]
      split
      · exact kept.released (by rfl)
      · exact kept.released (by rfl)
  | readMetadata =>
      simp only [HashPhase.step]
      split
      · exact kept.released (by rfl)
      · next noHash =>
          split
          · exact kept.released (by rfl)
          · next size stored =>
              apply kept.hashed present
              · intro _
                exact Or.inr (apart noHash)
              · intro changeIterId read isNew current
                obtain ⟨_, rfl⟩ := HashPhase.readHashes.inj isNew
                exact ⟨size, stored, rfl⟩
              · intro changeIterId newFullHash isNew
                cases isNew
  | readHashes changeIterId read =>
      simp only [HashPhase.step]
      rw [readHashesOfFile_eq]
      apply kept.hashed present
      · intro current
        exact Or.inl ⟨current.1, current.2⟩
      · intro otherId size isNew
        cases isNew
      · intro otherId newFullHash isNew current
        obtain ⟨rfl, rfl⟩ := HashPhase.writeHash.inj isNew
        obtain ⟨size, stored, sameBlocks⟩ :=
          kept.reading changeIterId read (List.mem_of_getElem? present) current
        exact ⟨size, stored, by rw [sameBlocks]⟩
  | writeHash changeIterId newFullHash =>
      simp only [HashPhase.step]
      split
      · next done after ran =>
          rcases checkedWriteOfFileHash_cases ran with ⟨current, isView⟩ | rfl
          · rw [isView]
            exact kept.stored present current (apart current) rfl
          · exact kept.released (by rfl)
      · exact kept.released (by rfl)
  | returned result => exact kept.released (by rfl)

end Steps

namespace FileHashSystem

variable {cfg : TiFsConfig} {ino : StorageIno}

def Kept (cfg : TiFsConfig) (ino : StorageIno) (state : FileHashSystem) : Prop :=
  HashKept cfg (fileView ino state.store) state.writers state.hashers

theorem Kept.step {before after : FileHashSystem} {event : FileHashEvent} (kept : before.Kept cfg ino)
    (taken : before.Step cfg ino event after) (fresh : before.FreshId event)
    (apart : before.HashApart cfg ino event) : after.Kept cfg ino := by
  cases event with
  | write blocks =>
      obtain rfl := Option.some.inj taken
      apply HashKept.like kept (.refl cfg _)
      · exact fun ⟨task, member, isClearing⟩ => ⟨task, List.mem_append_left _ member, isClearing⟩
      · simp [WritePhase.isChanging]
      · intro task member isSizing
        rcases List.mem_append.mp member with old | isNew
        · exact ⟨task, old, isSizing, rfl⟩
        · rw [List.mem_singleton.mp isNew] at isSizing
          cases isSizing
  | getHash =>
      obtain rfl := Option.some.inj taken
      apply HashKept.without kept
      intro phase member
      rcases List.mem_append.mp member with old | isNew
      · exact Or.inl old
      · exact Or.inr (by rw [List.mem_singleton.mp isNew]; rfl)
  | allocate offset length now =>
      simp only [Step, FileHashSystem.step] at taken
      split at taken
      · next result store ran =>
          obtain rfl := Option.some.inj taken
          obtain ⟨size, stored, ⟨larger, isTarget, small, isView⟩ | rfl⟩ := inodeAllocateSize_cases ran
          · unfold Kept
            rw [isView]
            apply HashKept.resized kept stored small.le
            · intro raises
              exact apart (isTarget ▸ raises)
            · exact id
            · exact Iff.rfl
            · exact fun task member isSizing => ⟨task, member, isSizing, rfl⟩
          · exact kept
      · cases taken
  | advanceWrite i ambient =>
      simp only [Step, FileHashSystem.step] at taken
      split at taken
      · next task present =>
          split at taken
          · next next store ran =>
              obtain rfl := Option.some.inj taken
              obtain ⟨phase, rfl, move⟩ := RegisterTask.move_of_step ran
              exact HashKept.registerMove kept present (fresh task present) move
          · cases taken
      · cases taken
  | advanceHash i =>
      simp only [Step, FileHashSystem.step] at taken
      split at taken
      · next phase present =>
          obtain rfl := Option.some.inj taken
          exact HashKept.hashStep kept present (apart phase present)
      · cases taken

theorem kept_of_coherent {store : Store} (coherent : HashCoherent cfg ino store) :
    Kept cfg ino ⟨store, [], []⟩ where
  cached := Or.inl (hashCoherent_iff.mp coherent)
  changing := fun ⟨_, member, _⟩ => by cases member
  raising := fun _ member => by cases member
  reading := fun _ _ member => by cases member
  writing := fun _ _ member => by cases member

/-- A stored hash is what a fresh computation would store whenever no call is in
flight, if computations and allocations keep apart from block writes. -/
theorem file_hash_coherent (cfg : TiFsConfig) (ino : StorageIno) (store : Store)
    (coherent : HashCoherent cfg ino store) (state : FileHashSystem)
    (run : Run (Step cfg ino) (fun before event => before.FreshId event ∧ before.HashApart cfg ino event)
      ⟨store, [], []⟩ state)
    (quiet : state.isQuiet = true) : HashCoherent cfg ino state.store := by
  have kept : state.Kept cfg ino := by
    refine run.invariant (Kept cfg ino) ?_ (kept_of_coherent coherent)
    intro before event after kept taken allowed
    exact kept.step taken allowed.1 allowed.2
  rcases kept.cached with isCoherent | ⟨task, member, isClearing⟩
  · exact hashCoherent_iff.mpr isCoherent
  · have isDone := List.all_eq_true.mp (Bool.and_eq_true_iff.mp quiet).1 task member
    rw [WritePhase.not_clearing_of_done isDone] at isClearing
    cases isClearing

theorem exists_run (cfg : TiFsConfig) (ino : StorageIno) (allowed : FileHashSystem → FileHashEvent → Prop)
    [∀ state event, Decidable (allowed state event)] (first : FileHashSystem)
    (events : List FileHashEvent) (check : FileHashSystem → Bool)
    (ran : (runAll (restrict allowed (step cfg ino)) first events).any check = true) :
    ∃ last, Run (Step cfg ino) allowed first last ∧ check last = true :=
  Run.of_restrict (fun _ _ _ taken => taken) events check ran

def oneBlockFile : Store :=
  applyAll ∅ [.put (.inodeX 10 .size) ⟨2, 1, 0⟩, .put (.inodeX 10 .changeIterationId) 1,
    .put (.blockHash ⟨10, 0⟩) (padHash 3 [7, 7])]

theorem oneBlockFile_coherent (cfg : TiFsConfig) : HashCoherent cfg 10 oneBlockFile := by
  intro value isFull
  cases isFull

/-- The hash is computed, the block is overwritten, and the hash is computed anew. -/
theorem file_hash_coherent_recomputed :
    ∃ state, Run (Step (paddingConfig 2 (by decide)) 10)
        (fun before event => before.FreshId event ∧
          before.HashApart (paddingConfig 2 (by decide)) 10 event) ⟨oneBlockFile, [], []⟩ state ∧
      (state.isQuiet && (state.store.lookup (.inodeX 10 .fullHash)).isSome) = true ∧
      HashCoherent (paddingConfig 2 (by decide)) 10 state.store := by
  obtain ⟨state, run, check⟩ := exists_run (paddingConfig 2 (by decide)) 10
    (fun before event => before.FreshId event ∧ before.HashApart (paddingConfig 2 (by decide)) 10 event)
    ⟨oneBlockFile, [], []⟩
    [.getHash, .advanceHash 0, .advanceHash 0, .advanceHash 0, .advanceHash 0,
     .write [(padHash 3 [9, 9], 2, [0])], .advanceWrite 0 ⟨5, 2⟩, .advanceWrite 0 ⟨5, 2⟩,
     .advanceWrite 0 ⟨5, 2⟩, .advanceWrite 0 ⟨5, 2⟩, .advanceWrite 0 ⟨5, 2⟩,
     .getHash, .advanceHash 1, .advanceHash 1, .advanceHash 1, .advanceHash 1]
    (fun state => state.isQuiet && (state.store.lookup (.inodeX 10 .fullHash)).isSome)
    (by decide +kernel)
  exact ⟨state, run, check, file_hash_coherent _ 10 _ (oneBlockFile_coherent _) state run
    (Bool.and_eq_true_iff.mp check).1⟩

/-- A computation that read the old block hashes stores its result between the
deletion of the hash and the change of the iteration id. -/
theorem stale_hash_stays :
    ¬ ∀ (cfg : TiFsConfig) (ino : StorageIno) (store : Store), HashCoherent cfg ino store →
      ∀ state : FileHashSystem, Run (Step cfg ino) FreshId ⟨store, [], []⟩ state →
        state.isQuiet = true → HashCoherent cfg ino state.store := by
  intro holds
  obtain ⟨state, run, check⟩ := exists_run (paddingConfig 2 (by decide)) 10 FreshId
    ⟨oneBlockFile, [], []⟩
    [.getHash, .advanceHash 0, .advanceHash 0, .advanceHash 0,
     .write [(padHash 3 [9, 9], 2, [0])], .advanceWrite 0 ⟨5, 2⟩, .advanceWrite 0 ⟨5, 2⟩,
     .advanceHash 0, .advanceWrite 0 ⟨5, 2⟩, .advanceWrite 0 ⟨5, 2⟩, .advanceWrite 0 ⟨5, 2⟩]
    (fun state => state.isQuiet &&
      decide (inoSize state.store 10 = some ⟨2, 1, 0⟩ ∧
        state.store.lookup (.inodeX 10 .fullHash) = some (serializeFullHash [7, 7, 1]) ∧
        (readHashesOfFile (paddingConfig 2 (by decide)) 10
          (hashedBlockRange (paddingConfig 2 (by decide)) 2) state.store).toOption =
            some [9, 9, 1, 1, 0, 0, 1, 0, 0]))
    (by decide +kernel)
  simp only [Bool.and_eq_true, decide_eq_true_eq] at check
  obtain ⟨quiet, isSize, isFull, isRead⟩ := check
  obtain ⟨size, hashData, stored, read, isValue⟩ := holds (paddingConfig 2 (by decide)) 10 oneBlockFile
    (oneBlockFile_coherent _) state run quiet _ isFull
  rw [isSize] at stored
  obtain rfl := Option.some.inj stored
  rw [read] at isRead
  obtain rfl := Option.some.inj isRead
  revert isValue
  decide

end FileHashSystem

end TiFs
