import TiFs.CopyTermination
import TiFs.SnapshotRuns
import TiFs.Lookup

/-! The entry that a finished `snapshot_create` has made among the snapshots: it was not
there before, its inode has its records, and the other snapshots are as they were. -/

namespace TiFs

open KeyValue Tables

def Initialised (store : Store) : Prop :=
  ∃ dynMeta : MetaMutable, store.lookup .metaMutable = some dynMeta ∧ firstDataInode ≤ dynMeta.inodeNext

def HandedOut (store : Store) (ino : StorageIno) : Prop :=
  firstDataInode ≤ ino ∧ ∃ dynMeta : MetaMutable, store.lookup .metaMutable = some dynMeta ∧ ino < dynMeta.inodeNext

structure EntryAdded (before : Store) (parent : ParentStorageIno) (name : ByteString) (ino : StorageIno)
    (store : Store) : Prop where
  fresh : dirEntry before parent name = none
  entry : ∃ typ, dirEntry store parent name = some ⟨ino, typ⟩
  data : HasData store ino
  number : HandedOut store ino
  others : ∀ other, other ≠ name → dirEntry store parent other = dirEntry before parent other

section Added

variable {before store after : Store} {parent : ParentStorageIno} {name : ByteString} {ino : StorageIno}

theorem HasData.congr (hasData : HasData store ino)
    (records : ∀ kind, after.lookup (.inodeX ino kind) = store.lookup (.inodeX ino kind)) :
    HasData after ino := by
  obtain ⟨data, found, isNumber⟩ := hasData
  refine ⟨data, ?_, isNumber⟩
  rw [inoData, records, records, records, records]
  exact found

theorem EntryAdded.congr (added : EntryAdded before parent name ino store)
    (entries : ∀ other, dirEntry after parent other = dirEntry store parent other)
    (records : ∀ kind, after.lookup (.inodeX ino kind) = store.lookup (.inodeX ino kind))
    (number : HandedOut after ino) : EntryAdded before parent name ino after where
  fresh := added.fresh
  entry := by
    obtain ⟨typ, isEntry⟩ := added.entry
    exact ⟨typ, (entries name).trans isEntry⟩
  data := added.data.congr records
  number := number
  others := fun other different => (entries other).trans (added.others other different)

theorem createdWrites_nodup (args : NewInode) (ino : StorageIno) (now : SystemTime) :
    ((createdWrites args ino now).map Mutation.key).Nodup := by
  rcases args with ⟨above, entry, typ, perm, gid, uid, rdev, _ | data⟩
  · simp [createdWrites]
  · simp [createdWrites]

theorem description_of_createdWrites {args : NewInode} {newIno ino : StorageIno} {now : SystemTime}
    {desc : InoDescription} (listed : Mutation.put (.inodeX ino .description) desc ∈ createdWrites args newIno now) :
    ino = newIno ∧ desc.ino = newIno := by
  rw [createdWrites, List.mem_append] at listed
  rcases listed with first | last
  · simp only [Mutation.put, List.mem_cons, Mutation.mk.injEq, Key.inodeX.injEq, reduceCtorEq, and_true,
      and_false, false_and, List.not_mem_nil, or_false] at first
    obtain ⟨rfl, same⟩ := first
    rw [Option.some.inj (eq_of_heq same)]
    exact ⟨rfl, rfl⟩
  · split at last
    · simp [Mutation.put] at last
    · cases last

theorem hasData_created {args : NewInode} {now : SystemTime} :
    HasData (applyAll store (createdWrites args ino now)) ino := by
  have written : ∀ (kind : InoMetadata) (value : kind.Value),
      Mutation.put (.inodeX ino kind) value ∈ createdWrites args ino now →
      (applyAll store (createdWrites args ino now)).lookup (.inodeX ino kind) = some value :=
    fun kind value listed => lookup_applyAll_put (createdWrites_nodup args ino now) listed
  have isDesc := written .description ⟨ino, args.typ, now⟩ (by simp [createdWrites])
  have isAttr := written .unixAttributes ⟨args.perm, args.uid, args.gid, args.rdev, 0, now⟩
    (by simp [createdWrites])
  have isSize := written .size (InoSize.new now) (by simp [createdWrites])
  unfold HasData
  rw [inoData, isDesc, isAttr, isSize]
  exact ⟨_, rfl, rfl⟩

theorem handedOut_created {args : NewInode} {now : SystemTime} (number : HandedOut store ino) :
    HandedOut (applyAll store (createdWrites args ino now)) ino := by
  unfold HandedOut
  rw [lookup_created (by simp) (by simp) (by simp)]
  exact number

theorem entryAdded_created {args : NewInode} {now : SystemTime}
    (fresh : dirEntry before args.parent args.name = none)
    (same : ∀ other, dirEntry store args.parent other = dirEntry before args.parent other)
    (number : HandedOut store ino) :
    EntryAdded before args.parent args.name ino (applyAll store (createdWrites args ino now)) where
  fresh := fresh
  entry := by
    refine ⟨args.typ, ?_⟩
    apply lookup_applyAll_put (createdWrites_nodup args ino now)
    simp [createdWrites]
  data := hasData_created
  number := handedOut_created number
  others := by
    intro other different
    rw [dirEntry, lookup_created (by simp) (by simpa using different) (by simp)]
    exact same other

theorem HandedOut.initialised (number : HandedOut store ino) :
    Initialised store := by
  obtain ⟨above, dynMeta, stored, below⟩ := number
  exact ⟨dynMeta, stored, above.trans below.le⟩

theorem reserve_keeps {cfg : TiFsConfig} {count : Nat} {newInos : StorageIno} (initialised : Initialised store)
    (ran : atomically (metaMutableReserveNewInos cfg count) store = .ok (newInos, after)) :
    (∀ key, key ≠ .metaMutable → after.lookup key = store.lookup key) ∧
      store.lookup .metaMutable = some ⟨newInos⟩ ∧ firstDataInode ≤ newInos ∧
      after.lookup .metaMutable = some ⟨newInos + count⟩ := by
  obtain ⟨dynMeta, stored, above⟩ := initialised
  rw [reserve_many cfg count stored] at ran
  obtain ⟨rfl, rfl⟩ := Prod.mk.inj (Except.ok.inj ran)
  refine ⟨?_, stored, above, ?_⟩
  · intro key different
    exact lookup_put_of_ne store _ key _ different
  · exact lookup_put_self store _ _

end Added

structure Behind (dir : StorageIno) (srcDstMapping : List (DirectoryItem × StorageIno)) : Prop where
  distinct : (srcDstMapping.map Prod.snd).Nodup
  above : ∀ child ∈ srcDstMapping, dir < child.2

structure Copying.Made (origin : Store) (name : ByteString) (store : Store) (copying : Copying) : Prop where
  added : EntryAdded origin snapshotParentInode name copying.snapshotDir.ino store
  jobs : ∀ job ∈ copying.copyJobs, firstDataInode ≤ job.2

def SnapshotsKept (origin store : Store) : Prop :=
  ∀ other, dirEntry store snapshotParentInode other = dirEntry origin snapshotParentInode other

def SnapshotPhase.Making (origin : Store) (name : ByteString) (store : Store) : SnapshotPhase → Prop
  | .fetchRoot given => given = name ∧ SnapshotsKept origin store ∧ Initialised store
  | .reserveRoot given _ => given = name ∧ SnapshotsKept origin store ∧ Initialised store
  | .addRoot given _ newIno => given = name ∧ SnapshotsKept origin store ∧ HandedOut store newIno
  | .nextJob copying => copying.Made origin name store
  | .reserve copying destination _ => copying.Made origin name store ∧ firstDataInode ≤ destination
  | .link copying destination srcDstMapping => copying.Made origin name store ∧
      firstDataInode ≤ destination ∧ Behind copying.snapshotDir.ino srcDstMapping
  | .cloneAttrs copying srcDstMapping => copying.Made origin name store ∧
      Behind copying.snapshotDir.ino srcDstMapping
  | .cloneData copying _ rest => copying.Made origin name store ∧ Behind copying.snapshotDir.ino rest
  | .cloning copying _ rest _ => copying.Made origin name store ∧ Behind copying.snapshotDir.ino rest
  | .returned (.ok (.newlyCreated snapshotDir)) =>
      EntryAdded origin snapshotParentInode name snapshotDir.ino store
  | .returned _ => True

theorem Behind.tail {dir : StorageIno} {child : DirectoryItem × StorageIno}
    {rest : List (DirectoryItem × StorageIno)} (behind : Behind dir (child :: rest)) : Behind dir rest where
  distinct := (List.nodup_cons.mp behind.distinct).2
  above := fun other member => behind.above other (List.mem_cons_of_mem child member)

theorem Copying.Made.congr {origin store after : Store} {name : ByteString} {copying : Copying} (made : copying.Made origin name store)
    (entries : ∀ other, dirEntry after snapshotParentInode other = dirEntry store snapshotParentInode other)
    (records : ∀ kind, after.lookup (.inodeX copying.snapshotDir.ino kind) =
      store.lookup (.inodeX copying.snapshotDir.ino kind))
    (number : HandedOut after copying.snapshotDir.ino) : copying.Made origin name after where
  added := made.added.congr entries records number
  jobs := made.jobs

namespace SnapshotSystem

variable {cfg : TiFsConfig} {origin : Store} {name : ByteString}

/-- The call runs alone: the operations on block data are its clones. -/
structure MakesEntry (origin : Store) (name : ByteString) (state : SnapshotSystem cfg) : Prop where
  making : state.phase.Making origin name state.blocks.store
  clones : ∀ op ∈ state.blocks.ops, ∃ task, op = .clone task

theorem makesEntry_addRoot {state : SnapshotSystem cfg} {given : ByteString} {rootAttr : InoStorageFileAttr}
    {newIno : StorageIno} {ambient : Ambient} (makes : state.MakesEntry origin name)
    (current : state.phase = .addRoot given rootAttr newIno) :
    (state.advance origin ambient).MakesEntry origin name := by
  have making := makes.making
  rw [current] at making
  obtain ⟨rfl, kept, number⟩ := making
  unfold advance
  rw [current]
  cases found : dirEntry state.blocks.store snapshotParentInode given with
  | none =>
      have free : dirEntry (Txn.mk state.blocks.store []).view (rootArgs given rootAttr).parent
          (rootArgs given rootAttr).name = none := found
      simp only [transact, atomically_eq_ok (addNew_created free)]
      have fresh : dirEntry origin (rootArgs given rootAttr).parent (rootArgs given rootAttr).name = none :=
        (kept given).symm.trans found
      have same : ∀ other, dirEntry state.blocks.store (rootArgs given rootAttr).parent other =
          dirEntry origin (rootArgs given rootAttr).parent other := kept
      refine ⟨⟨?_, ?_⟩, makes.clones⟩
      · exact entryAdded_created fresh same number
      · intro job member
        rw [List.mem_singleton.mp member]
        exact number.1
  | some item =>
      have taken : dirEntry (Txn.mk state.blocks.store []).view (rootArgs given rootAttr).parent
          (rootArgs given rootAttr).name = some item := found
      simp only [transact, atomically_eq_ok (addNew_existed taken)]
      exact ⟨trivial, makes.clones⟩

theorem clones_of_step {blocks next : BlockSystem cfg} {ambient : Ambient} {i : Nat}
    (clones : ∀ op ∈ blocks.ops, ∃ task, op = .clone task) (taken : blocks.Step (.advance i ambient) next) :
    (∀ key : Key, (∀ hash, key ≠ .countedNamedUsages hash) → (∀ addr, key ≠ .blockHash addr) →
      next.store.lookup key = blocks.store.lookup key) ∧
    ∀ op ∈ next.ops, ∃ task, op = .clone task := by
  have present : ∃ op, blocks.ops[i]? = some op := by
    by_contra absent
    rw [not_exists] at absent
    rw [BlockSystem.Step, BlockSystem.step, Option.eq_none_iff_forall_not_mem.mpr absent] at taken
    cases taken
  obtain ⟨op, isOp⟩ := present
  obtain ⟨task, rfl⟩ := clones op (List.mem_of_getElem? isOp)
  obtain ⟨later, after, _, move, rfl⟩ := cloneMove_of_step isOp taken
  refine ⟨fun key noCounter noBlock => move.frame noCounter fun index => noBlock _, ?_⟩
  intro other member
  rcases List.mem_or_eq_of_mem_set member with before | rfl
  · exact clones other before
  · exact ⟨later, rfl⟩

theorem made_reserved {copying : Copying} {count : Nat} {store after : Store} {newInos : StorageIno}
    (made : copying.Made origin name store)
    (ran : atomically (metaMutableReserveNewInos cfg count) store = .ok (newInos, after)) :
    copying.Made origin name after ∧ copying.snapshotDir.ino < newInos := by
  obtain ⟨frame, counted, _, counter⟩ := reserve_keeps made.added.number.initialised ran
  obtain ⟨isHandedOut, dynMeta, stored, below⟩ := made.added.number
  rw [counted] at stored
  rw [← Option.some.inj stored] at below
  have number : HandedOut after copying.snapshotDir.ino :=
    ⟨isHandedOut, _, counter, below.trans_le (Nat.le_add_right _ _)⟩
  exact ⟨made.congr (fun other => frame _ (by simp)) (fun kind => frame _ (by simp)) number, below⟩

theorem made_linked {copying : Copying} {destination : ParentStorageIno}
    {srcDstMapping : List (DirectoryItem × StorageIno)} {store : Store} (made : copying.Made origin name store)
    (above : firstDataInode ≤ destination) :
    copying.Made origin name (applyAll store (linkWrites destination srcDstMapping)) := by
  apply made.congr
  · intro other
    apply dirEntry_linked_of_notMem
    left
    rintro rfl
    revert above
    decide
  · intro kind
    exact lookup_linked _ (by simp) (by simp)
  · unfold HandedOut
    rw [lookup_linked _ (by simp) (by simp)]
    exact made.added.number

theorem made_recorded {copying : Copying} {srcDstMapping : List (DirectoryItem × StorageIno)}
    {maps rest : AttrMaps} {store after : Store} (made : copying.Made origin name store)
    (behind : Behind copying.snapshotDir.ino srcDstMapping)
    (ran : atomically (inodeCloneAttrs maps srcDstMapping) store = .ok (rest, after)) :
    copying.Made origin name after := by
  obtain ⟨_, txn, cloned, _, _, frame⟩ := inodeCloneAttrs_spec maps srcDstMapping behind.distinct ⟨store, []⟩
  rw [atomically_eq_ok cloned] at ran
  obtain ⟨rfl, rfl⟩ := Prod.mk.inj (Except.ok.inj ran)
  apply made.congr
  · intro other
    exact frame _ (by simp)
  · intro kind
    apply frame
    intro child member otherKind _ same
    exact absurd (Key.inodeX.inj same).1 (behind.above child member).ne
  · unfold HandedOut
    rw [frame _ (by simp)]
    exact made.added.number

theorem makesEntry_move {state next : SnapshotSystem cfg} {ambient : Ambient} (makes : state.MakesEntry origin name)
    (running : ∀ given rootAttr newIno, state.phase ≠ .addRoot given rootAttr newIno)
    (move : state.Move origin ambient next) : next.MakesEntry origin name := by
  have making := makes.making
  cases move with
  | rootFetched given rootAttr current =>
      rw [current] at making
      exact ⟨making, makes.clones⟩
  | rootReserved given rootAttr newIno after current ran =>
      rw [current] at making
      obtain ⟨isName, kept, initialised⟩ := making
      obtain ⟨frame, _, above, counter⟩ := reserve_keeps initialised ran
      refine ⟨⟨isName, ?_, above, _, counter, Nat.lt_succ_self newIno⟩, makes.clones⟩
      intro other
      exact (frame _ (by simp)).trans (kept other)
  | rootAdded given rootAttr newIno current => exact absurd current (running _ _ _)
  | rootExisted given rootAttr newIno item current => exact absurd current (running _ _ _)
  | finished snapshotDir current =>
      rw [current] at making
      exact ⟨making.added, makes.clones⟩
  | skipped snapshotDir originDir destination copyJobs current empty =>
      rw [current] at making
      exact ⟨⟨making.added, fun job member => making.jobs job (List.mem_cons_of_mem _ member)⟩, makes.clones⟩
  | listed snapshotDir originDir destination copyJobs current =>
      rw [current] at making
      refine ⟨⟨⟨making.added, ?_⟩, ?_⟩, makes.clones⟩
      · intro job member
        exact making.jobs job (List.mem_cons_of_mem _ member)
      · exact making.jobs (originDir, destination) List.mem_cons_self
  | reserved copying destination srcList newInos after current ran =>
      rw [current] at making
      obtain ⟨made, below⟩ := made_reserved making.1 ran
      refine ⟨⟨made, making.2, numbered_dsts, ?_⟩, makes.clones⟩
      intro child member
      exact below.trans_le (numbered_bounds member).1
  | linked copying destination srcDstMapping current =>
      rw [current] at making
      exact ⟨⟨made_linked making.1 making.2.1, making.2.2⟩, makes.clones⟩
  | recorded copying srcDstMapping maps after current ran =>
      rw [current] at making
      exact ⟨⟨made_recorded making.1 making.2 ran, making.2⟩, makes.clones⟩
  | drained copying sizeMap current =>
      rw [current] at making
      exact ⟨making.1, makes.clones⟩
  | started copying sizeMap src dst rest srcSize hashes lengths current isFile sized found =>
      rw [current] at making
      refine ⟨⟨making.1, making.2.tail⟩, ?_⟩
      intro op member
      rcases List.mem_append.mp member with before | isNew
      · exact makes.clones op before
      · exact ⟨_, List.mem_singleton.mp isNew⟩
  | passed copying sizeMap src dst rest current noBlocks =>
      rw [current] at making
      exact ⟨⟨making.1, making.2.tail⟩, makes.clones⟩
  | queued copying sizeMap src dst rest current isDir =>
      rw [current] at making
      refine ⟨⟨⟨making.1.added, ?_⟩, making.2.tail⟩, makes.clones⟩
      intro job member
      rcases List.mem_append.mp member with before | isNew
      · exact making.1.jobs job before
      · rw [List.mem_singleton.mp isNew]
        exact making.1.added.number.1.trans (making.2.above (src, dst) List.mem_cons_self).le
  | cloned copying sizeMap rest op task current present isDone =>
      rw [current] at making
      exact ⟨making, makes.clones⟩
  | advanced copying sizeMap rest op blocks current taken =>
      rw [current] at making
      obtain ⟨made, behind⟩ := making
      obtain ⟨frame, clones⟩ := clones_of_step makes.clones taken
      refine ⟨⟨made.congr ?_ ?_ ?_, behind⟩, clones⟩
      · intro other
        exact frame _ (by simp) (by simp)
      · intro kind
        exact frame _ (by simp) (by simp)
      · unfold HandedOut
        rw [frame _ (by simp) (by simp)]
        exact made.added.number
  | stopped issue failed => exact ⟨trivial, makes.clones⟩
  | idle => exact makes

theorem makesEntry_advance {state : SnapshotSystem cfg} (makes : state.MakesEntry origin name) (ambient : Ambient) :
    (state.advance origin ambient).MakesEntry origin name := by
  by_cases adds : ∃ given rootAttr newIno, state.phase = .addRoot given rootAttr newIno
  · obtain ⟨given, rootAttr, newIno, current⟩ := adds
    exact makesEntry_addRoot makes current
  · apply makesEntry_move makes _ (move_of_advance state)
    intro given rootAttr newIno current
    exact adds ⟨given, rootAttr, newIno, current⟩

theorem makesEntry_advanceAll (initialised : Initialised origin) (ambients : List Ambient) :
    (advanceAll origin ⟨(⟨origin, []⟩ : BlockSystem cfg), .fetchRoot name⟩ ambients).MakesEntry origin name := by
  have kept : ∀ (rest : List Ambient) (state : SnapshotSystem cfg), state.MakesEntry origin name →
      (state.advanceAll origin rest).MakesEntry origin name := by
    intro rest
    induction rest with
    | nil => exact fun state makes => makes
    | cons ambient rest ih =>
        intro state makes
        exact ih _ (makesEntry_advance makes ambient)
  apply kept
  exact ⟨⟨rfl, fun _ => rfl, initialised⟩, fun op member => absurd member List.not_mem_nil⟩

end SnapshotSystem

end TiFs
