import TiFs.SnapshotProgress

namespace TiFs

open KeyValue Tables

def SnapshotPhase.snapshotDir : SnapshotPhase → Option StorageDirItem
  | .nextJob copying => some copying.snapshotDir
  | .reserve copying _ _ => some copying.snapshotDir
  | .link copying _ _ => some copying.snapshotDir
  | .cloneAttrs copying _ => some copying.snapshotDir
  | .cloneData copying _ _ => some copying.snapshotDir
  | .cloning copying _ _ _ => some copying.snapshotDir
  | .returned (.ok (.newlyCreated snapshotDir)) => some snapshotDir
  | _ => none

namespace SnapshotSystem

variable {cfg : TiFsConfig} {origin : Store} {start : StorageIno}

structure Advancing (origin : Store) (start : StorageIno) (state : SnapshotSystem cfg) : Prop where
  sound : ∀ op ∈ state.blocks.ops, op.Sound
  below : ∀ i op, state.blocks.ops[i]? = some op → state.phase.op ≠ some i →
    ∀ ino, op.Addresses ino → ino < start
  progress : state.phase.Progress origin start state.blocks
  isDir : ∀ item, state.phase.snapshotDir = some item → item.typ = .directory

/-- Others work on what was there before the snapshot and leave its clone to run. -/
def Apart (start : StorageIno) (state : SnapshotSystem cfg) : SnapshotEvent cfg → Prop
  | .snapshot _ => True
  | .other (.spawn work) => work.ino < start
  | .other (.advance _ _) => True
  | .other (.abandon i) => state.phase.op ≠ some i
  | .unlink stage _ => ∀ ino ∈ stage.unlinks, ino < start

instance (start : StorageIno) (state : SnapshotSystem cfg) : ∀ event, Decidable (state.Apart start event)
  | .snapshot _ => isTrue trivial
  | .other (.spawn work) => inferInstanceAs (Decidable (work.ino < start))
  | .other (.advance _ _) => isTrue trivial
  | .other (.abandon i) => inferInstanceAs (Decidable (state.phase.op ≠ some i))
  | .unlink stage _ => inferInstanceAs (Decidable (∀ ino ∈ stage.unlinks, ino < start))

theorem clone_of_progress {state : SnapshotSystem cfg} {i : Nat}
    (progress : state.phase.Progress origin start state.blocks) (isOp : state.phase.op = some i) :
    ∃ task : CloneTask cfg, state.blocks.ops[i]? = some (.clone task) := by
  obtain ⟨copying, sizeMap, rest, current⟩ := SnapshotPhase.op_eq_some isOp
  rw [current] at progress
  obtain ⟨done, batch, front, child, task, _, _, _, _, isTask, _⟩ := progress
  exact ⟨task, isTask⟩

theorem progress_cloneMove {state : SnapshotSystem cfg} {i : Nat} {task next : CloneTask cfg} {after : Store}
    (progress : state.phase.Progress origin start state.blocks) (isOp : state.phase.op = some i)
    (present : state.blocks.ops[i]? = some (.clone task)) (move : CloneMove task state.blocks.store next after) :
    state.phase.Progress origin start ⟨after, state.blocks.ops.set i (.clone next)⟩ := by
  obtain ⟨copying, sizeMap, rest, current⟩ := SnapshotPhase.op_eq_some isOp
  rw [current] at progress ⊢
  obtain ⟨done, batch, front, child, known, split, sized, filling, noDir, isTask, cloning⟩ := progress
  obtain rfl : known = task := Op.clone.inj (Option.some.inj (isTask.symm.trans present))
  have inside : i < state.blocks.ops.length := (List.getElem?_eq_some_iff.mp present).1
  obtain ⟨member, new⟩ := Batch.child_new split
  refine ⟨done, batch, front, child, next, split, sized, ?_, noDir,
    List.getElem?_set_self inside, cloning.step move⟩
  apply filling.congr (· = child.2)
  · rintro ino rfl
    refine ⟨(Batch.child_bounds member).1, (Batch.child_bounds member).2, new, ?_⟩
    rw [List.map_append]
    exact List.mem_append_right _ (List.mem_singleton_self _)
  · intro key ino isOwner _ visible
    apply move.frame
    · rintro hash rfl
      cases isOwner
    · rintro index rfl
      exact visible _ rfl cloning.dst
  · exact move.frame (by simp) (by simp)

theorem copiesKept_of_step {op next : Op cfg} {ambient : Ambient} {store after : Store} (sound : op.Sound)
    (below : ∀ ino, op.Addresses ino → ino < start) (ran : op.step ambient store = .ok (next, after)) :
    CopiesKept start store after := by
  constructor
  · intro key ino isOwner above
    apply Op.frame_of_step sound ran
    · rintro hash rfl
      cases isOwner
    · rintro hash rfl
      cases isOwner
    · intro other addresses isOther
      rw [isOwner] at isOther
      exact absurd (below other addresses) (Nat.not_lt.mpr (Option.some.inj isOther ▸ above))
  · exact Op.frame_of_step sound ran (by simp) (by simp) fun _ _ => by simp [Key.owner]

theorem below_of_blockStep {state : SnapshotSystem cfg} {event : BlockEvent cfg} {blocks : BlockSystem cfg}
    (advancing : state.Advancing origin start) (taken : state.blocks.Step event blocks)
    (apart : state.Apart start (.other event)) {i : Nat} {op : Op cfg} (found : blocks.ops[i]? = some op)
    (notOwn : state.phase.op ≠ some i) {ino : StorageIno} (addresses : op.Addresses ino) : ino < start := by
  cases BlockSystem.effect_of_step taken with
  | spawned work =>
      rcases getElem?_concat_cases found with ⟨_, rfl⟩ | old
      · by_contra above
        have notMem : work.ino ∉ {ino | start ≤ ino} := Nat.not_le.mpr apart
        exact Work.start_outside notMem ino (Nat.not_lt.mp above) addresses
      · exact advancing.below i op old notOwn ino addresses
  | moved j ambient old next after present ran =>
      rcases getElem?_set_cases found with ⟨rfl, rfl⟩ | ⟨_, same⟩
      · have sound := advancing.sound old (List.mem_of_getElem? present)
        exact advancing.below j old present notOwn ino ((Op.effect_of_step sound ran).2 ino addresses)
      · exact advancing.below i op same notOwn ino addresses
  | failed j ambient old issue present ran =>
      rcases getElem?_set_cases found with ⟨rfl, rfl⟩ | ⟨_, same⟩
      · exact addresses.elim
      · exact advancing.below i op same notOwn ino addresses
  | abandoned j old present =>
      rcases getElem?_set_cases found with ⟨rfl, rfl⟩ | ⟨_, same⟩
      · exact addresses.elim
      · exact advancing.below i op same notOwn ino addresses

theorem progress_of_blockStep {state : SnapshotSystem cfg} {event : BlockEvent cfg} {blocks : BlockSystem cfg}
    (advancing : state.Advancing origin start) (taken : state.blocks.Step event blocks)
    (apart : state.Apart start (.other event)) : state.phase.Progress origin start blocks := by
  have same : CopiesKept start state.blocks.store state.blocks.store := ⟨fun _ _ _ _ => rfl, rfl⟩
  cases BlockSystem.effect_of_step taken with
  | spawned work =>
      apply advancing.progress.undisturbed same
      intro i op _ present
      exact (List.getElem?_append_left (List.getElem?_eq_some_iff.mp present).1).trans present
  | moved i ambient op next after present ran =>
      by_cases isOp : state.phase.op = some i
      · obtain ⟨task, isTask⟩ := clone_of_progress advancing.progress isOp
        obtain rfl := Option.some.inj (present.symm.trans isTask)
        obtain ⟨result, moved, isNext⟩ := except_map_eq_ok ran
        obtain ⟨rfl, rfl⟩ := Prod.mk.inj isNext
        exact progress_cloneMove advancing.progress isOp present (CloneTask.move_of_step moved)
      · have sound := advancing.sound op (List.mem_of_getElem? present)
        apply advancing.progress.undisturbed (copiesKept_of_step sound (advancing.below i op present isOp) ran)
        intro j other isOther there
        have different : i ≠ j := fun isSame => isOp (isSame ▸ isOther)
        exact (List.getElem?_set_ne different).trans there
  | failed i ambient op issue present ran =>
      have notOwn : state.phase.op ≠ some i := by
        intro isOp
        obtain ⟨task, isTask⟩ := clone_of_progress advancing.progress isOp
        obtain rfl := Option.some.inj (present.symm.trans isTask)
        obtain ⟨next, after, moved, _⟩ := task.exists_move state.blocks.store
        rw [Op.step, moved] at ran
        cases ran
      apply advancing.progress.undisturbed same
      intro j other isOther there
      have different : i ≠ j := fun isSame => notOwn (isSame ▸ isOther)
      exact (List.getElem?_set_ne different).trans there
  | abandoned i op present =>
      apply advancing.progress.undisturbed same
      intro j other isOther there
      have different : i ≠ j := fun isSame => apart (isSame ▸ isOther)
      exact (List.getElem?_set_ne different).trans there

theorem advancing_of_blockStep {state : SnapshotSystem cfg} {event : BlockEvent cfg} {blocks : BlockSystem cfg}
    (advancing : state.Advancing origin start) (taken : state.blocks.Step event blocks)
    (apart : state.Apart start (.other event)) : Advancing origin start ⟨blocks, state.phase⟩ := by
  have progress := progress_of_blockStep advancing taken apart
  refine ⟨BlockSystem.sound_of_blockStep advancing.sound taken, ?_, progress, advancing.isDir⟩
  intro i op found notOwn ino addresses
  exact below_of_blockStep advancing taken apart found notOwn addresses

theorem unlink_frame {stage : Stage} {now : SystemTime} {store after : Store} {next : Option Stage} {ino : StorageIno}
    (isTarget : stage.unlinks = some ino) (ran : atomically (stage.body cfg now) store = .ok (next, after))
    {key : Key} (noRecord : ∀ kind, key ≠ .inodeX ino kind) (noEntry : ∀ name, key ≠ .directoryChild ino name)
    (noLink : ∀ child parent name, key ≠ .parentLink child parent name) :
    after.lookup key = store.lookup key := by
  unfold atomically at ran
  split at ran
  · next result txn body =>
      obtain ⟨rfl, rfl⟩ := Prod.mk.inj (Except.ok.inj ran)
      cases stage with
      | removeChild parent name allowedTypes =>
          obtain rfl := Option.some.inj isTarget
          obtain ⟨item, first, _⟩ := of_bind_pure body
          obtain ⟨_, _, rfl⟩ := removeChild_ok first
          rw [Txn.view_mutate]
          apply lookup_applyAll_of_notMem
          simp [removedLinks, noEntry, noLink]
      | checkForDelete unlinked =>
          obtain rfl := Option.some.inj isTarget
          obtain ⟨checked, between, first, rest⟩ := bind_eq_ok body
          have isBetween : between.view.lookup key = store.lookup key := by
            by_cases linked : ∃ parent name, hasParentLink (Txn.mk store []).view unlinked.ino parent name
            · rw [checkForDelete_used linked] at first
              obtain ⟨rfl, rfl⟩ := Prod.mk.inj (Except.ok.inj first)
              rfl
            · push Not at linked
              rw [checkForDelete_deleted linked] at first
              obtain ⟨rfl, rfl⟩ := Prod.mk.inj (Except.ok.inj first)
              exact lookup_delete_of_ne store _ key (noRecord .description)
          cases checked with
          | deletedInoDesc =>
              obtain ⟨rfl, rfl⟩ := Prod.mk.inj (Except.ok.inj rest)
              exact isBetween
          | stillUsed =>
              obtain ⟨rfl, rfl⟩ := Prod.mk.inj (Except.ok.inj rest)
              exact isBetween
      | deleteMetadata target kinds =>
          obtain rfl := Option.some.inj isTarget
          cases kinds with
          | nil =>
              obtain ⟨rfl, rfl⟩ := Prod.mk.inj (Except.ok.inj body)
              rfl
          | cons kind rest =>
              obtain ⟨_, first, _⟩ := of_bind_pure body
              obtain ⟨_, rfl⟩ := Prod.mk.inj (Except.ok.inj first)
              exact lookup_delete_of_ne store _ key (noRecord kind)
      | reserveNewIno args => cases isTarget
      | addNewInode args newIno => cases isTarget
      | addExistingInode parent name child => cases isTarget
      | removeEmptyDirectory parent name => cases isTarget
      | renameChild parent name newParent newName => cases isTarget
      | openInode child useId => cases isTarget
      | closeInode child useId => cases isTarget
  · cases ran

theorem progress_of_move (below : snapshotParentInode < start) {ambient : Ambient}
    {state next : SnapshotSystem cfg} (advancing : state.Advancing origin start)
    (move : state.Move origin ambient next) : next.phase.Progress origin start next.blocks := by
  have progress := advancing.progress
  cases move with
  | rootFetched name rootAttr current =>
      rw [current] at progress
      exact progress
  | rootReserved name rootAttr newIno after current ran =>
      rw [current] at progress
      rw [reserve_many cfg 1 progress.1] at ran
      obtain ⟨rfl, rfl⟩ := Prod.mk.inj (Except.ok.inj ran)
      exact ⟨rfl, lookup_put_self _ _ _, progress.2.reserve⟩
  | rootAdded name rootAttr newIno current =>
      rw [current] at progress
      obtain ⟨rfl, stored, unused⟩ := progress
      exact progress_rootAdded below stored unused
  | rootExisted name rootAttr newIno item current => trivial
  | finished snapshotDir current =>
      rw [current] at progress
      obtain ⟨done, low, copies, _, _⟩ := progress
      exact ⟨done, low, copies⟩
  | skipped snapshotDir originDir destination copyJobs current empty =>
      rw [current] at progress
      obtain ⟨done, low, copies, unused, stored⟩ := progress
      exact ⟨_, low, copies.skip empty, unused, stored⟩
  | listed snapshotDir originDir destination copyJobs current =>
      rw [current] at progress
      obtain ⟨done, low, copies, unused, stored⟩ := progress
      exact ⟨done, low, originDir, copies, unused, stored, rfl⟩
  | reserved copying destination srcList newInos after current ran =>
      rw [current] at progress
      obtain ⟨done, low, source, copies, unused, stored, rfl⟩ := progress
      rw [reserve_many cfg _ stored] at ran
      obtain ⟨rfl, rfl⟩ := Prod.mk.inj (Except.ok.inj ran)
      exact ⟨done, ⟨source, destination, low⟩, rfl, copies.reserve, unused.reserve, lookup_put_self _ _ _, rfl⟩
  | linked copying destination srcDstMapping current =>
      rw [current] at progress
      obtain ⟨done, batch, rfl, copies, unused, stored, rfl⟩ := progress
      obtain ⟨copiesAfter, linked, unusedAfter⟩ := progress_linked copies unused
      refine ⟨done, batch, copiesAfter, linked, unusedAfter, ?_, rfl⟩
      rw [lookup_linked _ (by simp) (by simp)]
      exact stored
  | recorded copying srcDstMapping maps after current ran =>
      rw [current] at progress
      obtain ⟨done, batch, copies, linked, unused, stored, rfl⟩ := progress
      obtain ⟨sized, filling⟩ := filling_of_recorded copies linked unused stored ran
      exact ⟨done, batch, [], rfl, sized, filling⟩
  | drained copying sizeMap current =>
      rw [current] at progress
      obtain ⟨done, batch, front, split, _, filling⟩ := progress
      rw [List.append_nil] at split
      exact ⟨_, _, filling.complete split, filling.unused, filling.next⟩
  | started copying sizeMap src dst rest srcSize hashes lengths current isFile sized found =>
      rw [current] at progress
      obtain ⟨done, batch, front, split, isSized, filling⟩ := progress
      obtain ⟨member, new⟩ := Batch.child_new split
      have size : inoSize origin src.ino = some srcSize := (isSized _ member).symm.trans sized
      refine ⟨done, batch, front, (src, dst), _, split, isSized, filling.touch _, ?_,
        List.getElem?_concat_length, rfl, ?_, ?_, ?_⟩
      · simp [isFile]
      · intro index
        rw [copiedMapping, isFile, size]
        exact found index
      · exact fun _ => filling.unmapped dst (Batch.child_bounds member).1 new
      · intro isDone
        cases isDone
  | passed copying sizeMap src dst rest current noBlocks =>
      rw [current] at progress
      obtain ⟨done, batch, front, split, isSized, filling⟩ := progress
      obtain ⟨member, new⟩ := Batch.child_new split
      have unmapped := filling.unmapped dst (Batch.child_bounds member).1 new
      have mapped : ∀ index, mapping state.blocks.store ⟨dst, index⟩ = copiedMapping cfg origin src index := by
        intro index
        rw [unmapped index, copiedMapping]
        rcases noBlocks with isLink | ⟨isFile, unsized⟩
        · rw [isLink]
        · rw [isFile, (isSized _ member).symm.trans unsized]
      have noDir : src.typ ≠ .directory := by
        rcases noBlocks with isLink | ⟨isFile, _⟩
        · simp [isLink]
        · simp [isFile]
      refine ⟨done, batch, front ++ [(src, dst)], by rw [split, List.append_assoc]; rfl, isSized, ?_⟩
      exact (filling.passed member mapped noDir).touch _
  | queued copying sizeMap src dst rest current isDir =>
      rw [current] at progress
      obtain ⟨done, batch, front, split, isSized, filling⟩ := progress
      obtain ⟨member, new⟩ := Batch.child_new split
      have unmapped := filling.unmapped dst (Batch.child_bounds member).1 new
      refine ⟨done, batch, front ++ [(src, dst)], by rw [split, List.append_assoc]; rfl, isSized, ?_⟩
      exact (filling.queue member new unmapped isDir).touch _
  | cloned copying sizeMap rest op task current present isDone =>
      rw [current] at progress
      obtain ⟨done, batch, front, child, known, split, isSized, filling, noDir, isTask, cloning⟩ := progress
      obtain rfl : known = task := Op.clone.inj (Option.some.inj (isTask.symm.trans present))
      refine ⟨done, batch, front ++ [child], by rw [split, List.append_assoc]; rfl, isSized, ?_⟩
      exact filling.passed (Batch.child_new split).1 (cloning.behind isDone) noDir
  | advanced copying sizeMap rest op blocks current taken =>
      have moved := progress_of_blockStep advancing taken trivial
      rw [current] at moved
      exact moved
  | stopped issue failed => trivial
  | idle => exact progress

theorem below_of_move {ambient : Ambient} {state next : SnapshotSystem cfg}
    (advancing : state.Advancing origin start) (move : state.Move origin ambient next) {i : Nat} {op : Op cfg}
    (found : next.blocks.ops[i]? = some op) (notOwn : next.phase.op ≠ some i) {ino : StorageIno}
    (addresses : op.Addresses ino) : ino < start := by
  have older : state.phase.op = none → state.blocks.ops[i]? = some op → ino < start := by
    intro free present
    apply advancing.below i op present _ ino addresses
    rw [free]
    simp
  cases move with
  | started copying sizeMap src dst rest srcSize hashes lengths current isFile sized scan =>
      rcases getElem?_concat_cases found with ⟨rfl, _⟩ | old
      · exact absurd rfl notOwn
      · exact older (by rw [current]; rfl) old
  | cloned copying sizeMap rest own task current present isDone =>
      by_cases isOwn : own = i
      · rw [← isOwn, present] at found
        obtain rfl := Option.some.inj found
        exact absurd isDone addresses.2
      · exact advancing.below i op found (by rw [current]; simpa [SnapshotPhase.op] using isOwn) ino addresses
  | advanced copying sizeMap rest own blocks current taken =>
      have notState : state.phase.op ≠ some i := by
        rw [current]
        exact notOwn
      exact below_of_blockStep advancing taken trivial found notState addresses
  | stopped issue failed =>
      have free : state.phase.op = none := by
        by_contra some
        obtain ⟨j, isOp⟩ := Option.ne_none_iff_exists'.mp some
        obtain ⟨task, isTask⟩ := clone_of_progress advancing.progress isOp
        rw [failed j isOp] at isTask
        cases isTask
      exact older free found
  | idle => exact advancing.below i op found notOwn ino addresses
  | rootFetched name rootAttr current => exact older (by rw [current]; rfl) found
  | rootReserved name rootAttr newIno after current ran => exact older (by rw [current]; rfl) found
  | rootAdded name rootAttr newIno current => exact older (by rw [current]; rfl) found
  | rootExisted name rootAttr newIno item current => exact older (by rw [current]; rfl) found
  | finished snapshotDir current => exact older (by rw [current]; rfl) found
  | skipped snapshotDir originDir destination copyJobs current empty => exact older (by rw [current]; rfl) found
  | listed snapshotDir originDir destination copyJobs current => exact older (by rw [current]; rfl) found
  | reserved copying destination srcList newInos after current ran => exact older (by rw [current]; rfl) found
  | linked copying destination srcDstMapping current => exact older (by rw [current]; rfl) found
  | recorded copying srcDstMapping maps after current ran => exact older (by rw [current]; rfl) found
  | drained copying sizeMap current => exact older (by rw [current]; rfl) found
  | passed copying sizeMap src dst rest current noBlocks => exact older (by rw [current]; rfl) found
  | queued copying sizeMap src dst rest current isDir => exact older (by rw [current]; rfl) found

theorem sound_of_move {ambient : Ambient} {state next : SnapshotSystem cfg}
    (sound : ∀ op ∈ state.blocks.ops, op.Sound) (move : state.Move origin ambient next) :
    ∀ op ∈ next.blocks.ops, op.Sound := by
  cases move with
  | started copying sizeMap src dst rest srcSize hashes lengths current isFile sized scan =>
      intro op member
      rcases List.mem_append.mp member with old | new
      · exact sound op old
      · rw [List.mem_singleton.mp new]
        trivial
  | advanced copying sizeMap rest own blocks current taken => exact BlockSystem.sound_of_blockStep sound taken
  | _ => exact sound

theorem isDir_of_move {ambient : Ambient} {state next : SnapshotSystem cfg}
    (isDir : ∀ item, state.phase.snapshotDir = some item → item.typ = .directory)
    (move : state.Move origin ambient next) :
    ∀ item, next.phase.snapshotDir = some item → item.typ = .directory := by
  have kept : ∀ phase : SnapshotPhase, phase.snapshotDir = state.phase.snapshotDir →
      ∀ item, phase.snapshotDir = some item → item.typ = .directory :=
    fun phase same item found => isDir item (same.symm.trans found)
  cases move with
  | rootAdded name rootAttr newIno current =>
      intro item found
      rw [← Option.some.inj found]
  | finished snapshotDir current => exact kept _ (by rw [current]; rfl)
  | skipped snapshotDir originDir destination copyJobs current empty => exact kept _ (by rw [current]; rfl)
  | listed snapshotDir originDir destination copyJobs current => exact kept _ (by rw [current]; rfl)
  | reserved copying destination srcList newInos after current ran => exact kept _ (by rw [current]; rfl)
  | linked copying destination srcDstMapping current => exact kept _ (by rw [current]; rfl)
  | recorded copying srcDstMapping maps after current ran => exact kept _ (by rw [current]; rfl)
  | drained copying sizeMap current => exact kept _ (by rw [current]; rfl)
  | started copying sizeMap src dst rest srcSize hashes lengths current isFile sized scan =>
      exact kept _ (by rw [current]; rfl)
  | passed copying sizeMap src dst rest current noBlocks => exact kept _ (by rw [current]; rfl)
  | queued copying sizeMap src dst rest current isDir => exact kept _ (by rw [current]; rfl)
  | cloned copying sizeMap rest op task current present isDone => exact kept _ (by rw [current]; rfl)
  | advanced copying sizeMap rest op blocks current taken => exact kept _ (by rw [current])
  | idle => exact isDir
  | rootFetched name rootAttr current => simp [SnapshotPhase.snapshotDir]
  | rootReserved name rootAttr newIno after current ran => simp [SnapshotPhase.snapshotDir]
  | rootExisted name rootAttr newIno item current => simp [SnapshotPhase.snapshotDir]
  | stopped issue failed => simp [SnapshotPhase.snapshotDir]

/-- One step of the call or of the others. -/
theorem advancing_step (below : snapshotParentInode < start) {before after : SnapshotSystem cfg}
    {event : SnapshotEvent cfg} (advancing : before.Advancing origin start)
    (taken : before.Step origin event after) (apart : before.Apart start event) :
    after.Advancing origin start := by
  cases event with
  | snapshot ambient =>
      obtain rfl := Option.some.inj taken
      have move : before.Move origin ambient (before.advance origin ambient) := move_of_advance before
      refine ⟨sound_of_move advancing.sound move, ?_, progress_of_move below advancing move,
        isDir_of_move advancing.isDir move⟩
      exact fun i op found notOwn ino addresses => below_of_move advancing move found notOwn addresses
  | other event =>
      obtain ⟨blocks, moved, rfl⟩ := Option.map_eq_some_iff.mp taken
      exact advancing_of_blockStep advancing moved apart
  | unlink stage now =>
      simp only [Step, step] at taken
      split at taken
      · next isUnlink =>
          obtain ⟨ino, isTarget⟩ := Option.isSome_iff_exists.mp isUnlink
          split at taken
          · next result store ran =>
              obtain rfl := Option.some.inj taken
              have kept : CopiesKept start before.blocks.store store := by
                constructor
                · intro key owner isOwner above
                  have different : ino ≠ owner := by
                    rintro rfl
                    exact absurd (apart ino isTarget) (Nat.not_lt.mpr above)
                  apply unlink_frame isTarget ran
                  · rintro kind rfl
                    exact different (Option.some.inj isOwner)
                  · rintro name rfl
                    exact different (Option.some.inj isOwner)
                  · rintro child parent name rfl
                    cases isOwner
                · exact unlink_frame isTarget ran (by simp) (by simp) (by simp)
              refine ⟨advancing.sound, advancing.below, ?_, advancing.isDir⟩
              exact advancing.progress.undisturbed kept fun _ _ _ present => present
          · obtain rfl := Option.some.inj taken
            exact advancing
      · cases taken

/-- What the transactions on directories and records leave alone: counters, blocks and
mappings, and everything that was there before but the list of snapshots. -/
structure MetaMove (start : StorageIno) (state next : SnapshotSystem cfg) : Prop where
  counters : ∀ hash, next.blocks.store.lookup (.countedNamedUsages hash) =
    state.blocks.store.lookup (.countedNamedUsages hash)
  blocks : ∀ hash, blockData next.blocks.store hash = blockData state.blocks.store hash
  mappings : ∀ addr, mapping next.blocks.store addr = mapping state.blocks.store addr
  source : ∀ key ino, Key.owner key = some ino → ino < start →
    (∀ name, key ≠ .directoryChild snapshotParentInode name) →
    next.blocks.store.lookup key = state.blocks.store.lookup key
  ops : next.blocks.ops = state.blocks.ops ∨ ∃ task : CloneTask cfg, start ≤ task.dst ∧ task.phase = .increment ∧
    next.blocks.ops = state.blocks.ops ++ [.clone task]

theorem MetaMove.owed_sum {state next : SnapshotSystem cfg} (move : MetaMove start state next) (hash : TiFsHash) :
    (next.blocks.ops.map fun op => op.owed hash).sum = (state.blocks.ops.map fun op => op.owed hash).sum := by
  rcases move.ops with same | ⟨task, _, starts, isNext⟩
  · rw [same]
  · have free : (Op.clone task).owed hash = 0 := by
      simp [Op.owed, Op.owedIncrements, Op.owedDecrements, CloneTask.owedIncrements, starts]
    rw [isNext, List.map_append, List.sum_append, List.map_singleton, List.sum_singleton, free, Nat.add_zero]

theorem MetaMove.of_frame {state next : SnapshotSystem cfg} (ops : next.blocks.ops = state.blocks.ops)
    (frame : ∀ key : Key, key ≠ .metaMutable → (∀ kind ino, start ≤ ino → key ≠ .inodeX ino kind) →
      (∀ ino name, start ≤ ino ∨ ino = snapshotParentInode → key ≠ .directoryChild ino name) →
      (∀ child parent name, key ≠ .parentLink child parent name) →
      next.blocks.store.lookup key = state.blocks.store.lookup key) :
    MetaMove start state next where
  counters := fun hash => frame (.countedNamedUsages hash) (by simp) (by simp) (by simp) (by simp)
  blocks := fun hash => frame (.hashedBlock hash) (by simp) (by simp) (by simp) (by simp)
  mappings := fun addr => frame (.blockHash addr) (by simp) (by simp) (by simp) (by simp)
  source := by
    intro key ino isOwner older notListed
    apply frame
    · exact ownerless_metaMutable isOwner
    · rintro kind other above rfl
      exact absurd older (Nat.not_lt.mpr (Option.some.inj isOwner ▸ above))
    · rintro other name (above | rfl) rfl
      · exact absurd older (Nat.not_lt.mpr (Option.some.inj isOwner ▸ above))
      · exact notListed name rfl
    · rintro child parent name rfl
      cases isOwner
  ops := Or.inl ops

theorem metaMove_of_move {ambient : Ambient} {state next : SnapshotSystem cfg}
    (advancing : state.Advancing origin start) (move : state.Move origin ambient next) :
    MetaMove start state next ∨
      ∃ i, state.phase.op = some i ∧ state.blocks.Step (.advance i ambient) next.blocks ∧ next.phase = state.phase := by
  have progress := advancing.progress
  have same : ∀ phase, MetaMove start state ⟨state.blocks, phase⟩ :=
    fun phase => .of_frame rfl fun _ _ _ _ _ => rfl
  cases move with
  | advanced copying sizeMap rest op blocks current taken =>
      right
      exact ⟨op, by rw [current]; rfl, taken, current.symm⟩
  | started copying sizeMap src dst rest srcSize hashes lengths current isFile sized scan =>
      left
      rw [current] at progress
      obtain ⟨done, batch, front, split, _, filling⟩ := progress
      have above : start ≤ dst := filling.above.trans (Batch.child_bounds (Batch.child_new split).1).1
      exact { same state.phase with ops := Or.inr ⟨⟨dst, hashes, .increment, lengths⟩, above, rfl, rfl⟩ }
  | rootReserved name rootAttr newIno after current ran =>
      left
      rw [current] at progress
      rw [reserve_many cfg 1 progress.1] at ran
      obtain ⟨rfl, rfl⟩ := Prod.mk.inj (Except.ok.inj ran)
      exact .of_frame rfl fun key noMeta _ _ _ => lookup_put_of_ne _ _ key _ noMeta
  | rootAdded name rootAttr newIno current =>
      left
      rw [current] at progress
      obtain ⟨rfl, _, _⟩ := progress
      refine MetaMove.of_frame rfl ?_
      intro key _ noRecord noEntry noLink
      have kept : (applyAll state.blocks.store (createdWrites (rootArgs name rootAttr) newIno ambient.now)).lookup
          key = state.blocks.store.lookup key := by
        apply lookup_created
        · exact fun kind => noRecord kind newIno le_rfl
        · exact noEntry snapshotParentInode name (Or.inr rfl)
        · exact noLink _ _ _
      exact kept
  | reserved copying destination srcList newInos after current ran =>
      left
      rw [current] at progress
      obtain ⟨done, low, source, _, _, stored, _⟩ := progress
      rw [reserve_many cfg _ stored] at ran
      obtain ⟨rfl, rfl⟩ := Prod.mk.inj (Except.ok.inj ran)
      exact .of_frame rfl fun key noMeta _ _ _ => lookup_put_of_ne _ _ key _ noMeta
  | linked copying destination srcDstMapping current =>
      left
      rw [current] at progress
      obtain ⟨done, batch, rfl, copies, _, _, _⟩ := progress
      have isPair : (batch.origin, batch.destination) ∈
          pairs done [] ((batch.origin, batch.destination) :: copying.copyJobs) :=
        List.mem_append_right _ List.mem_cons_self
      refine MetaMove.of_frame rfl ?_
      intro key _ _ noEntry noLink
      apply lookup_linked
      · exact fun name => noEntry _ name (Or.inl (copies.bounds _ isPair).1)
      · exact fun ino name => noLink _ _ _
  | recorded copying srcDstMapping maps after current ran =>
      left
      rw [current] at progress
      obtain ⟨done, batch, copies, _, _, _, rfl⟩ := progress
      obtain ⟨rest, txn, cloned, _, _, frame⟩ := inodeCloneAttrs_spec
        (parseInodeAttrsKvPairs origin ((batch.children origin).map fun child => child.1.ino))
        (batch.children origin) numbered_dsts ⟨state.blocks.store, []⟩
      rw [atomically_eq_ok cloned] at ran
      obtain ⟨rfl, rfl⟩ := Prod.mk.inj (Except.ok.inj ran)
      refine MetaMove.of_frame rfl ?_
      intro key _ noRecord _ _
      apply frame
      intro child member kind _
      exact noRecord kind child.2 (copies.low_above.trans (Batch.child_bounds member).1)
  | rootFetched name rootAttr current => exact Or.inl (same _)
  | rootExisted name rootAttr newIno item current => exact Or.inl (same _)
  | finished snapshotDir current => exact Or.inl (same _)
  | skipped snapshotDir originDir destination copyJobs current empty => exact Or.inl (same _)
  | listed snapshotDir originDir destination copyJobs current => exact Or.inl (same _)
  | drained copying sizeMap current => exact Or.inl (same _)
  | passed copying sizeMap src dst rest current noBlocks => exact Or.inl (same _)
  | queued copying sizeMap src dst rest current isDir => exact Or.inl (same _)
  | cloned copying sizeMap rest op task current present isDone => exact Or.inl (same _)
  | stopped issue failed => exact Or.inl (same _)
  | idle => exact Or.inl (same _)

/-- The clone under way writes to addresses that are not mapped. -/
theorem not_overwrites_of_progress {state : SnapshotSystem cfg} {i : Nat} {task : CloneTask cfg}
    (progress : state.phase.Progress origin start state.blocks) (isOp : state.phase.op = some i)
    (present : state.blocks.ops[i]? = some (.clone task)) :
    start ≤ task.dst ∧ ¬ (Op.clone task).Overwrites state.blocks.store := by
  obtain ⟨copying, sizeMap, rest, current⟩ := SnapshotPhase.op_eq_some isOp
  rw [current] at progress
  obtain ⟨done, batch, front, child, known, split, _, filling, _, isTask, cloning⟩ := progress
  obtain rfl : known = task := Op.clone.inj (Option.some.inj (isTask.symm.trans present))
  refine ⟨?_, ?_⟩
  · rw [cloning.dst]
    exact filling.above.trans (Batch.child_bounds (Batch.child_new split).1).1
  · rintro ⟨isMap, overwritten⟩
    apply overwritten
    rw [prevHashes, List.filterMap_eq_nil_iff]
    intro address member
    obtain ⟨entry, _, rfl⟩ := List.mem_map.mp member
    rw [cloning.dst]
    exact cloning.before (by rw [isMap]; simp) entry.1

theorem cloneMove_of_step {blocks next : BlockSystem cfg} {ambient : Ambient} {i : Nat} {task : CloneTask cfg}
    (present : blocks.ops[i]? = some (.clone task)) (taken : blocks.Step (.advance i ambient) next) :
    ∃ later after, task.step blocks.store = .ok (later, after) ∧ CloneMove task blocks.store later after ∧
      next = ⟨after, blocks.ops.set i (.clone later)⟩ := by
  obtain ⟨later, after, ran, move⟩ := task.exists_move blocks.store
  have stepped : (Op.clone task).step ambient blocks.store = .ok (.clone later, after) := by
    rw [Op.step, ran]
    rfl
  refine ⟨later, after, ran, move, ?_⟩
  rw [BlockSystem.Step, BlockSystem.step, present] at taken
  simp only [stepped] at taken
  exact (Option.some.inj taken).symm

theorem exists_cloneMove {state : SnapshotSystem cfg} {ambient : Ambient} {i : Nat} {blocks : BlockSystem cfg}
    (progress : state.phase.Progress origin start state.blocks) (isOp : state.phase.op = some i)
    (taken : state.blocks.Step (.advance i ambient) blocks) :
    ∃ task later after, state.blocks.ops[i]? = some (.clone task) ∧
      task.step state.blocks.store = .ok (later, after) ∧ CloneMove task state.blocks.store later after ∧
      blocks = ⟨after, state.blocks.ops.set i (.clone later)⟩ := by
  obtain ⟨task, present⟩ := clone_of_progress progress isOp
  obtain ⟨later, after, moved⟩ := cloneMove_of_step present taken
  exact ⟨task, later, after, present, moved⟩

end SnapshotSystem

end TiFs
