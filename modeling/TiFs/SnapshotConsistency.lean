import TiFs.SnapshotTree

/-! A snapshot that is created while other clients write, unlink and count blocks down:
the blocks of its files stay stored as long as they were stored when they were counted. -/

namespace TiFs

open KeyValue Tables

def Op.CountsStored {cfg : TiFsConfig} (store : Store) : Op cfg → Prop
  | .clone task => task.phase = .increment → ∀ entry ∈ task.hashes.entries, (blockData store entry.2).isSome
  | _ => True

instance {cfg : TiFsConfig} (store : Store) : ∀ op : Op cfg, Decidable (op.CountsStored store)
  | .clone task => inferInstanceAs (Decidable (task.phase = .increment →
      ∀ entry ∈ task.hashes.entries, (blockData store entry.2).isSome))
  | .write _ => isTrue trivial
  | .clear _ => isTrue trivial
  | .ended _ => isTrue trivial

theorem stored_of_counted {cfg : TiFsConfig} {op : Op cfg} {store after : Store} (effect : op.Effect store after)
    {hash : TiFsHash} (found : blockData store hash ≠ none) (counted : 0 < counter after hash) :
    blockData after hash ≠ none := by
  by_cases listed : hash ∈ op.uploads.map Prod.fst
  · obtain ⟨block, member, rfl⟩ := List.mem_map.mp listed
    rw [effect.uploaded block member]
    simp
  · have spared : op.Spares store hash := by
      by_contra notSpared
      have none := effect.zero hash notSpared
      omega
    rw [effect.kept hash listed spared]
    exact found

namespace SnapshotSystem

variable {cfg : TiFsConfig} {origin : Store} {start : StorageIno}

/-- Others keep apart from the copies, and no block is gone when it is counted. -/
def Sheltered (start : StorageIno) (state : SnapshotSystem cfg) : SnapshotEvent cfg → Prop
  | .snapshot _ => ∀ i ∈ state.phase.op, ∀ op ∈ state.blocks.ops[i]?, op.CountsStored state.blocks.store
  | .other (.spawn work) => work.ino < start
  | .other (.advance i _) => state.phase.op ≠ some i
  | .other (.abandon i) => state.phase.op ≠ some i
  | .unlink stage _ => ∀ ino ∈ stage.unlinks, ino < start

instance (start : StorageIno) (state : SnapshotSystem cfg) : ∀ event, Decidable (state.Sheltered start event)
  | .snapshot _ => inferInstanceAs (Decidable (∀ i ∈ state.phase.op, ∀ op ∈ state.blocks.ops[i]?,
      op.CountsStored state.blocks.store))
  | .other (.spawn work) => inferInstanceAs (Decidable (work.ino < start))
  | .other (.advance i _) => inferInstanceAs (Decidable (state.phase.op ≠ some i))
  | .other (.abandon i) => inferInstanceAs (Decidable (state.phase.op ≠ some i))
  | .unlink stage _ => inferInstanceAs (Decidable (∀ ino ∈ stage.unlinks, ino < start))

theorem Sheltered.apart {state : SnapshotSystem cfg} {event : SnapshotEvent cfg}
    (sheltered : state.Sheltered start event) : state.Apart start event := by
  cases event with
  | snapshot ambient => trivial
  | other event =>
      cases event with
      | spawn work => exact sheltered
      | advance i ambient => trivial
      | abandon i => exact sheltered
  | unlink stage now => exact sheltered

structure Stored (origin : Store) (start : StorageIno) (state : SnapshotSystem cfg) : Prop where
  advancing : state.Advancing origin start
  covered : state.blocks.Covered
  mapped : ∀ addr hash, start ≤ addr.ino → mapping state.blocks.store addr = some hash →
    blockData state.blocks.store hash ≠ none
  counted : ∀ i task, state.phase.op = some i → state.blocks.ops[i]? = some (.clone task) → task.phase = .map →
    ∀ entry ∈ task.hashes.entries, blockData state.blocks.store entry.2 ≠ none

theorem Stored.covered_after {state next : SnapshotSystem cfg} (covered : state.blocks.Covered)
    (sound : ∀ op ∈ next.blocks.ops, op.Sound) (move : MetaMove start state next) : next.blocks.Covered := by
  refine ⟨sound, ?_⟩
  intro hash
  rw [move.owed_sum hash, mapped_congr move.mappings, counter_congr move.counters]
  exact covered.counters hash

theorem op_of_metaMove {ambient : Ambient} {state next : SnapshotSystem cfg} (move : state.Move origin ambient next)
    {i : Nat} (isOp : next.phase.op = some i) :
    state.phase.op = some i ∨
      ∃ task : CloneTask cfg, next.blocks.ops[i]? = some (.clone task) ∧ task.phase = .increment := by
  cases move with
  | started copying sizeMap src dst rest srcSize hashes lengths current isFile sized scan =>
      right
      obtain rfl := Option.some.inj isOp
      exact ⟨_, List.getElem?_concat_length, rfl⟩
  | advanced copying sizeMap rest op blocks current taken =>
      left
      rw [current]
      exact isOp
  | idle => exact Or.inl isOp
  | rootFetched name rootAttr current => cases isOp
  | rootReserved name rootAttr newIno after current ran => cases isOp
  | rootAdded name rootAttr newIno current => cases isOp
  | rootExisted name rootAttr newIno item current => cases isOp
  | finished snapshotDir current => cases isOp
  | skipped snapshotDir originDir destination copyJobs current empty => cases isOp
  | listed snapshotDir originDir destination copyJobs current => cases isOp
  | reserved copying destination srcList newInos after current ran => cases isOp
  | linked copying destination srcDstMapping current => cases isOp
  | recorded copying srcDstMapping maps after current ran => cases isOp
  | drained copying sizeMap current => cases isOp
  | passed copying sizeMap src dst rest current noBlocks => cases isOp
  | queued copying sizeMap src dst rest current isDir => cases isOp
  | cloned copying sizeMap rest op task current present isDone => cases isOp
  | stopped issue failed => cases isOp

theorem stored_of_metaMove {ambient : Ambient} {state next : SnapshotSystem cfg} (stored : state.Stored origin start)
    (advancing : next.Advancing origin start) (taken : state.Move origin ambient next)
    (move : MetaMove start state next) : next.Stored origin start := by
  refine ⟨advancing, Stored.covered_after stored.covered advancing.sound move, ?_, ?_⟩
  · intro addr hash above found
    rw [move.blocks]
    rw [move.mappings] at found
    exact stored.mapped addr hash above found
  · intro i task isOp present isMap entry member
    rw [move.blocks]
    rcases op_of_metaMove taken isOp with before | ⟨new, isNew, starts⟩
    · obtain ⟨old, isOld⟩ := clone_of_progress stored.advancing.progress before
      have same : next.blocks.ops[i]? = some (.clone old) := by
        rcases move.ops with sameOps | ⟨_, _, _, appended⟩
        · rw [sameOps]
          exact isOld
        · rw [appended, List.getElem?_append_left (List.getElem?_eq_some_iff.mp isOld).1]
          exact isOld
      obtain rfl : old = task := Op.clone.inj (Option.some.inj (same.symm.trans present))
      exact stored.counted i old before isOld isMap entry member
    · obtain rfl : new = task := Op.clone.inj (Option.some.inj (isNew.symm.trans present))
      rw [starts] at isMap
      cases isMap

/-- The clone under way counts stored blocks and maps blocks that it has counted. -/
theorem stored_of_clone {state next : SnapshotSystem cfg} {ambient : Ambient} {i : Nat}
    (stored : state.Stored origin start) (advancing : next.Advancing origin start)
    (isOp : state.phase.op = some i) (samePhase : next.phase = state.phase)
    (taken : state.blocks.Step (.advance i ambient) next.blocks)
    (available : ∀ op ∈ state.blocks.ops[i]?, op.CountsStored state.blocks.store) : next.Stored origin start := by
  obtain ⟨task, later, after, present, ran, move, isNext⟩ :=
    exists_cloneMove stored.advancing.progress isOp taken
  have blocks : ∀ hash, blockData next.blocks.store hash = blockData state.blocks.store hash := by
    intro hash
    rw [isNext]
    exact move.frame (by simp) (by simp)
  refine ⟨advancing, BlockSystem.covered_step stored.covered taken, ?_, ?_⟩
  · intro addr hash above found
    rw [blocks]
    rw [isNext] at found
    cases move with
    | incremented prev after current counted =>
        have same : mapping after addr = mapping state.blocks.store addr :=
          counted.frame (.blockHash addr) (by simp)
        exact stored.mapped addr hash above (same.symm.trans found)
    | placed decrements after current replaced =>
        by_cases listed : addr ∈ task.addresses.map Prod.fst
        · obtain ⟨address, member, rfl⟩ := List.mem_map.mp listed
          have isHash := (replaced.placed address member).symm.trans found
          obtain ⟨entry, isEntry, rfl⟩ := List.mem_map.mp member
          obtain rfl := Option.some.inj isHash
          exact stored.counted i task isOp present current entry isEntry
        · rw [replaced.kept addr listed] at found
          exact stored.mapped addr hash above found
    | finished current => exact stored.mapped addr hash above found
  · intro j other isOther there isMap entry member
    rw [blocks]
    rw [samePhase, isOp] at isOther
    obtain rfl := Option.some.inj isOther
    have bound : i < state.blocks.ops.length := (List.getElem?_eq_some_iff.mp present).1
    rw [isNext, List.getElem?_set_self bound] at there
    obtain rfl := Op.clone.inj (Option.some.inj there)
    cases move with
    | incremented prev after current counted =>
        have known : (blockData state.blocks.store entry.2).isSome := available _ present current entry member
        exact Option.isSome_iff_ne_none.mp known
    | placed decrements after current replaced => cases isMap
    | finished current =>
        rw [current] at isMap
        cases isMap

theorem owed_pos {task : CloneTask cfg} (isMap : task.phase = .map) {entry : Σ _ : BlockIndex, TiFsHash}
    (member : entry ∈ task.hashes.entries) : 0 < (Op.clone task).owed entry.2 := by
  have isOwed : (Op.clone task).owed entry.2 = mappedBy task.addresses entry.2 := by
    rw [← task.amount_blockIncs]
    simp [Op.owed, Op.owedIncrements, Op.owedDecrements, CloneTask.owedIncrements, isMap]
  rw [isOwed, mappedBy, List.count_pos_iff, List.mem_filterMap]
  exact ⟨(⟨task.dst, entry.1⟩, some entry.2), List.mem_map.mpr ⟨entry, member, rfl⟩, rfl⟩

theorem kept_of_blockStep {state : SnapshotSystem cfg} {event : BlockEvent cfg} {blocks : BlockSystem cfg}
    (advancing : state.Advancing origin start) (taken : state.blocks.Step event blocks)
    (sheltered : state.Sheltered start (.other event)) :
    (∀ addr : BlockAddress, start ≤ addr.ino → mapping blocks.store addr = mapping state.blocks.store addr) ∧
      (∀ i op, state.phase.op = some i → state.blocks.ops[i]? = some op → blocks.ops[i]? = some op) ∧
      ∀ hash, blockData state.blocks.store hash ≠ none → 0 < counter blocks.store hash →
        blockData blocks.store hash ≠ none := by
  cases BlockSystem.effect_of_step taken with
  | spawned work =>
      refine ⟨fun _ _ => rfl, ?_, fun _ found _ => found⟩
      intro i op _ present
      exact (List.getElem?_append_left (List.getElem?_eq_some_iff.mp present).1).trans present
  | moved j ambient op next after present ran =>
      have effect := (Op.effect_of_step (advancing.sound op (List.mem_of_getElem? present)) ran).1
      refine ⟨?_, ?_, fun hash found counted => stored_of_counted effect found counted⟩
      · intro addr above
        apply effect.mappings
        intro addresses
        exact absurd (advancing.below j op present sheltered addr.ino addresses) (Nat.not_lt.mpr above)
      · intro i other isOp there
        have different : j ≠ i := fun isSame => sheltered (isSame ▸ isOp)
        exact (List.getElem?_set_ne different).trans there
  | failed j ambient op issue present ran =>
      refine ⟨fun _ _ => rfl, ?_, fun _ found _ => found⟩
      intro i other isOp there
      have different : j ≠ i := fun isSame => sheltered (isSame ▸ isOp)
      exact (List.getElem?_set_ne different).trans there
  | abandoned j op present =>
      refine ⟨fun _ _ => rfl, ?_, fun _ found _ => found⟩
      intro i other isOp there
      have different : j ≠ i := fun isSame => sheltered (isSame ▸ isOp)
      exact (List.getElem?_set_ne different).trans there

theorem stored_of_blockStep {state : SnapshotSystem cfg} {event : BlockEvent cfg} {blocks : BlockSystem cfg}
    (stored : state.Stored origin start) (taken : state.blocks.Step event blocks)
    (sheltered : state.Sheltered start (.other event)) : Stored origin start ⟨blocks, state.phase⟩ := by
  have covered := BlockSystem.covered_step stored.covered taken
  obtain ⟨mappings, ops, spared⟩ := kept_of_blockStep stored.advancing taken sheltered
  refine ⟨advancing_of_blockStep stored.advancing taken sheltered.apart, covered, ?_, ?_⟩
  · intro addr hash above found
    have before : mapping state.blocks.store addr = some hash := (mappings addr above).symm.trans found
    have counters := covered.counters hash
    have isMapped : 0 < mapped blocks.store hash := mapped_pos_of_mapping found
    exact spared hash (stored.mapped addr hash above before) (by omega)
  · intro i task isOp there isMap entry member
    obtain ⟨old, isOld⟩ := clone_of_progress stored.advancing.progress isOp
    obtain rfl : old = task := Op.clone.inj (Option.some.inj ((ops i _ isOp isOld).symm.trans there))
    have counters := covered.counters entry.2
    have isOwed : (Op.clone old).owed entry.2 ≤ (blocks.ops.map fun op => op.owed entry.2).sum :=
      List.le_sum_of_mem (List.mem_map_of_mem (List.mem_of_getElem? there))
    have positive := owed_pos isMap member
    exact spared entry.2 (stored.counted i old isOp isOld isMap entry member) (by omega)

theorem stored_of_unlink {state : SnapshotSystem cfg} {stage : Stage} {now : SystemTime} {after : SnapshotSystem cfg}
    (stored : state.Stored origin start) (advancing : after.Advancing origin start)
    (taken : state.Step origin (.unlink stage now) after) : after.Stored origin start := by
  simp only [Step, step] at taken
  split at taken
  · next isUnlink =>
      obtain ⟨ino, isTarget⟩ := Option.isSome_iff_exists.mp isUnlink
      split at taken
      · next result store ran =>
          obtain rfl := Option.some.inj taken
          have blocks : ∀ hash, blockData store hash = blockData state.blocks.store hash :=
            fun hash => unlink_frame isTarget ran (by simp) (by simp) (by simp)
          have counters : ∀ hash, store.lookup (.countedNamedUsages hash) =
              state.blocks.store.lookup (.countedNamedUsages hash) :=
            fun hash => unlink_frame isTarget ran (by simp) (by simp) (by simp)
          have mappings : ∀ addr, mapping store addr = mapping state.blocks.store addr :=
            fun addr => unlink_frame isTarget ran (by simp) (by simp) (by simp)
          refine ⟨advancing, ⟨stored.covered.sound, ?_⟩, ?_, ?_⟩
          · intro hash
            simp only [mapped_congr mappings, counter_congr counters]
            exact stored.covered.counters hash
          · intro addr hash above found
            simp only [blocks]
            exact stored.mapped addr hash above ((mappings addr).symm.trans found)
          · intro i task isOp present isMap entry member
            simp only [blocks]
            exact stored.counted i task isOp present isMap entry member
      · obtain rfl := Option.some.inj taken
        exact stored
  · cases taken

theorem stored_step (below : snapshotParentInode < start) {before after : SnapshotSystem cfg}
    {event : SnapshotEvent cfg} (stored : before.Stored origin start) (taken : before.Step origin event after)
    (sheltered : before.Sheltered start event) : after.Stored origin start := by
  have advancing := advancing_step below stored.advancing taken sheltered.apart
  cases event with
  | snapshot ambient =>
      obtain rfl := Option.some.inj taken
      have move : before.Move origin ambient (before.advance origin ambient) := move_of_advance before
      rcases metaMove_of_move stored.advancing move with metaMove | ⟨i, isOp, stepped, samePhase⟩
      · exact stored_of_metaMove stored advancing move metaMove
      · exact stored_of_clone stored advancing isOp samePhase stepped (sheltered i isOp)
  | other event =>
      obtain ⟨blocks, moved, rfl⟩ := Option.map_eq_some_iff.mp taken
      exact stored_of_blockStep stored moved sheltered
  | unlink stage now => exact stored_of_unlink stored advancing taken

end SnapshotSystem

/-- The blocks of every file under the root lie in the range that is copied. -/
def BlocksInRange (cfg : TiFsConfig) (origin : Store) : Prop :=
  ∀ path ino, entryAt origin rootItem path = some ⟨ino, .file⟩ → ∀ index hash,
    mapping origin ⟨ino, index⟩ = some hash → hash.length = cfg.hashLen ∧
      ∃ size, inoSize origin ino = some size ∧ index < (clonedBlockRange cfg size).2

/-- The files of a snapshot have the blocks that their originals had when it began, and
these blocks are stored. -/
def ConsistentFiles (origin store : Store) (snapshotDir : StorageDirItem) : Prop :=
  ∀ path ino, entryAt store snapshotDir path = some ⟨ino, .file⟩ →
    ∃ source, entryAt origin rootItem path = some ⟨source, .file⟩ ∧
      (∀ index, mapping store ⟨ino, index⟩ = mapping origin ⟨source, index⟩) ∧
      ∀ index hash, mapping store ⟨ino, index⟩ = some hash → blockData store hash ≠ none

/-- Whatever other clients do to older inodes, the files of a new snapshot are consistent
if their blocks lay in the copied range and each was stored when the clone counted it. The
counter of the inodes is the one of the source below `2 ^ 64` (`reserveU64_eq`). -/
theorem snapshot_consistent (cfg : TiFsConfig) (origin : Store) (start : StorageIno)
    (allocated : Allocated start origin) (inRange : BlocksInRange cfg origin) (ops : List (Op cfg))
    (covered : BlockSystem.Covered (⟨origin, ops⟩ : BlockSystem cfg))
    (older : ∀ op ∈ ops, ∀ ino, op.Addresses ino → ino < start) (name : ByteString) (last : SnapshotSystem cfg)
    (run : Run (SnapshotSystem.Step origin) (SnapshotSystem.Sheltered start)
      ⟨⟨origin, ops⟩, .fetchRoot name⟩ last)
    (snapshotDir : StorageDirItem) (returned : last.phase = .returned (.ok (.newlyCreated snapshotDir))) :
    ConsistentFiles origin last.blocks.store snapshotDir := by
  have below : snapshotParentInode < start := Nat.lt_of_lt_of_le (by decide) allocated.reserved
  have stored : last.Stored origin start := by
    apply Run.invariant (SnapshotSystem.Stored origin start) _ _ run
    · intro before event after stored taken sheltered
      exact SnapshotSystem.stored_step below stored taken sheltered
    · refine ⟨⟨covered.sound, ?_, ⟨allocated.next, allocated.unused⟩, by simp [SnapshotPhase.snapshotDir]⟩,
        covered, ?_, by simp [SnapshotPhase.op]⟩
      · exact fun i op present _ => older op (List.mem_of_getElem? present)
      · intro addr hash above found
        have unused : mapping origin addr = none := allocated.unused (.blockHash addr) addr.ino rfl above
        rw [unused] at found
        cases found
  have progress := stored.advancing.progress
  rw [returned] at progress
  obtain ⟨done, low, copies⟩ := progress
  have isDir : snapshotDir.typ = .directory := stored.advancing.isDir snapshotDir (by rw [returned]; rfl)
  have isRoot : snapshotDir = ⟨snapshotDir.ino, .directory⟩ := by rw [← isDir]
  intro path ino found
  rcases List.eq_nil_or_concat path with rfl | ⟨front, entry, rfl⟩
  · rw [isRoot] at found
    cases found
  · rw [List.concat_eq_append] at found
    obtain ⟨dir, isParent, isEntry⟩ := entryAt_snoc_some found
    rw [isRoot] at isParent
    obtain ⟨original, isPair, isOriginal⟩ := copies.original front copies.rooted isParent
    obtain ⟨batch, member, rfl, rfl, copied⟩ := copies.batch_of_pair isPair
    obtain ⟨child, isChild, rfl, isCopy, isSource⟩ := copied.child_of_entry isEntry
    obtain ⟨rfl, isFile⟩ := StorageDirItem.mk.inj isCopy
    rw [← isFile] at isSource
    have source : entryAt origin rootItem (front ++ [child.1.name]) = some ⟨child.1.ino, .file⟩ :=
      (entryAt_snoc isOriginal child.1.name).trans isSource
    refine ⟨child.1.ino, by rw [List.concat_eq_append]; exact source, ?_, ?_⟩
    · intro index
      rw [copied.mapped child isChild index]
      apply Option.ext
      intro hash
      rw [copiedMapping_eq_some]
      constructor
      · exact fun known => known.1
      · exact fun isMapped => ⟨isMapped, isFile.symm, inRange _ _ source index hash isMapped⟩
    · intro index hash isMapped
      exact stored.mapped ⟨child.2, index⟩ hash (copies.owned batch member child isChild).1 isMapped

theorem covered_oneFile :
    BlockSystem.Covered (⟨oneFile, []⟩ : BlockSystem (paddingConfig 2 (by decide))) := by
  refine ⟨by simp, ?_⟩
  intro hash
  by_cases same : hash = padHash 3 [7, 7]
  · rw [same]
    decide +kernel
  · have unmapped : mapped oneFile hash = 0 := by
      by_contra some
      obtain ⟨addr, listed⟩ := Finset.card_pos.mp (Nat.pos_of_ne_zero some)
      exact same (mapping_oneFile ((mem_mappedTo _ _ _).mp listed)).2
    simp [unmapped]

theorem blocksInRange_oneFile : BlocksInRange (paddingConfig 2 (by decide)) oneFile := by
  intro path ino found index hash isMapped
  obtain ⟨isAddr, rfl⟩ := mapping_oneFile isMapped
  obtain ⟨rfl, rfl⟩ := BlockAddress.mk.inj isAddr
  exact ⟨rfl, ⟨2, 1, 0⟩, rfl, by decide⟩

/-- The file is overwritten between the count of its block and the mapping of the copy. -/
theorem snapshot_consistent_overwritten :
    Allocated 11 oneFile ∧ BlocksInRange (paddingConfig 2 (by decide)) oneFile ∧
      BlockSystem.Covered (⟨oneFile, []⟩ : BlockSystem (paddingConfig 2 (by decide))) ∧
      ∃ last : SnapshotSystem (paddingConfig 2 (by decide)),
        Run (SnapshotSystem.Step oneFile) (SnapshotSystem.Sheltered 11) ⟨⟨oneFile, []⟩, .fetchRoot [115]⟩ last ∧
        last.phase = .returned (.ok (.newlyCreated ⟨11, .directory⟩)) ∧
        mapping last.blocks.store ⟨10, 0⟩ = some (padHash 3 [9, 9]) ∧
        ConsistentFiles oneFile last.blocks.store ⟨11, .directory⟩ := by
  obtain ⟨last, run, checked⟩ := exists_run_of_scan (SnapshotSystem.Sheltered 11) rfl rfl scanned_oneFile
    (by decide) (by decide +kernel)
    (List.replicate 5 (.snapshot ⟨5, 1⟩) ++ .other (.spawn (.write 10 ninesPlan)) ::
      List.replicate 7 (.other (.advance 1 ⟨5, 1⟩)) ++ List.replicate 4 (.snapshot ⟨5, 1⟩))
    (fun last => last.phase.returnedDir = some ⟨11, .directory⟩ ∧
      mapping last.blocks.store ⟨10, 0⟩ = some (padHash 3 [9, 9])) (by decide +kernel)
  obtain ⟨isReturned, isOverwritten⟩ := of_decide_eq_true checked
  have returned := SnapshotPhase.eq_of_returnedDir isReturned
  refine ⟨allocated_oneFile, blocksInRange_oneFile, covered_oneFile, last, run, returned, isOverwritten, ?_⟩
  exact snapshot_consistent _ oneFile 11 allocated_oneFile blocksInRange_oneFile [] covered_oneFile (by simp)
    [115] last run _ returned

/-- The file is overwritten before its block is counted for the copy: the block is gone,
and the copy is mapped to it. -/
theorem snapshot_maps_deleted_block :
    Allocated 11 oneFile ∧ BlocksInRange (paddingConfig 2 (by decide)) oneFile ∧
      BlockSystem.Covered (⟨oneFile, []⟩ : BlockSystem (paddingConfig 2 (by decide))) ∧
      ∃ last : SnapshotSystem (paddingConfig 2 (by decide)),
        Run (SnapshotSystem.Step oneFile) (SnapshotSystem.Apart 11) ⟨⟨oneFile, []⟩, .fetchRoot [115]⟩ last ∧
        last.phase = .returned (.ok (.newlyCreated ⟨11, .directory⟩)) ∧
        ¬ ConsistentFiles oneFile last.blocks.store ⟨11, .directory⟩ := by
  obtain ⟨last, run, checked⟩ := exists_run_of_scan (SnapshotSystem.Apart 11) rfl rfl scanned_oneFile
    (by decide) trivial
    (.other (.spawn (.write 10 ninesPlan)) :: List.replicate 7 (.other (.advance 0 ⟨5, 1⟩)) ++
      List.replicate 9 (.snapshot ⟨5, 1⟩))
    (fun last => last.phase.returnedDir = some ⟨11, .directory⟩ ∧
      entryAt last.blocks.store ⟨11, .directory⟩ [[97]] = some ⟨12, .file⟩ ∧
      mapping last.blocks.store ⟨12, 0⟩ = some (padHash 3 [7, 7]) ∧
      (blockData last.blocks.store (padHash 3 [7, 7])).isNone) (by decide +kernel)
  obtain ⟨isReturned, isEntry, isMapped, isGone⟩ := of_decide_eq_true checked
  have returned := SnapshotPhase.eq_of_returnedDir isReturned
  refine ⟨allocated_oneFile, blocksInRange_oneFile, covered_oneFile, last, run, returned, ?_⟩
  intro consistent
  obtain ⟨_, _, _, stored⟩ := consistent [[97]] 12 isEntry
  exact stored 0 _ isMapped (Option.isNone_iff_eq_none.mp isGone)

end TiFs
