import TiFs.Dangling

/-! The kind an inode is made with stays its kind in every entry and description that
any transaction can read, although both may come and go: a number is handed out once,
and an entry is added with the kind that its inode's description has. -/

namespace TiFs

open KeyValue

abbrev Kinds := StorageIno → Option StorageDirItemKind

def Kinds.Grows (kinds later : Kinds) : Prop :=
  ∀ ino typ, kinds ino = some typ → later ino = some typ

structure Kinded (kinds : Kinds) (store : Store) : Prop where
  described : ∀ ino desc, inoDescription store ino = some desc → kinds ino = some desc.typ
  entries : ∀ parent name item, dirEntry store parent name = some item →
    kinds item.ino = some item.typ

/-- What holds of the store and of the stages of all calls: numbers that are yet to be
used have no kind, and no two calls are about to use the same number. -/
structure Typed (kinds : Kinds) (store : Store) (stages : Nat → Option Stage) : Prop where
  kinded : Kinded kinds store
  unissued : ∀ ino, Unissued store ino → kinds ino = none
  reserved : ∀ client args ino, stages client = some (.addNewInode args ino) →
    kinds ino = none ∧ ¬ Unissued store ino
  once : ∀ client other args also ino, stages client = some (.addNewInode args ino) →
    stages other = some (.addNewInode also ino) → client = other

structure Namespace.Typed (kinds : Kinds) (state : Namespace) : Prop where
  typed : TiFs.Typed kinds state.db.data state.stageAt
  begun : ∀ proc ∈ state.procs, ∀ attempt, proc.attempt = some attempt →
    Kinded kinds attempt.start.data

theorem Kinds.grows_refl (kinds : Kinds) : kinds.Grows kinds := fun _ _ known => known

theorem Kinds.grows_update {kinds : Kinds} {newIno : StorageIno} (fresh : kinds newIno = none)
    (typ : StorageDirItemKind) : kinds.Grows (Function.update kinds newIno (some typ)) := by
  intro ino known isKind
  by_cases same : ino = newIno
  · rw [same, fresh] at isKind
    cases isKind
  · rw [Function.update_of_ne same]
    exact isKind

theorem Kinded.grow {kinds later : Kinds} {store : Store} (kinded : Kinded kinds store)
    (grows : kinds.Grows later) : Kinded later store where
  described := fun ino desc described => grows ino desc.typ (kinded.described ino desc described)
  entries := fun parent name item found => grows _ _ (kinded.entries parent name item found)

section Typed

variable {kinds : Kinds} {store after : Store} {stages fewer : Nat → Option Stage} {client : Nat}
  {args : NewInode} {newIno : StorageIno}

theorem Typed.weaken (typed : Typed kinds store stages)
    (kept : ∀ client stage, fewer client = some stage → stages client = some stage ∨ stage.Plain) :
    Typed kinds store fewer := by
  have reserving : ∀ client args ino, fewer client = some (.addNewInode args ino) →
      stages client = some (.addNewInode args ino) := by
    intro client args ino staged
    exact (kept client _ staged).resolve_right fun plain => plain.1 args ino rfl
  constructor
  · exact typed.kinded
  · exact typed.unissued
  · intro client args ino staged
    exact typed.reserved client args ino (reserving client args ino staged)
  · intro client other args also ino first second
    exact typed.once client other args also ino (reserving _ _ _ first) (reserving _ _ _ second)

theorem Typed.proceed (typed : Typed kinds store stages) {next : Option Stage}
    (plain : ∀ args ino, next ≠ some (.addNewInode args ino)) :
    Typed kinds store (Function.update stages client next) := by
  have reserving : ∀ other args ino, Function.update stages client next other =
      some (.addNewInode args ino) → stages other = some (.addNewInode args ino) := by
    intro other args ino staged
    apply (update_eq_some staged).resolve_left
    intro here
    exact plain args ino here.2
  constructor
  · exact typed.kinded
  · exact typed.unissued
  · intro other args ino staged
    exact typed.reserved other args ino (reserving other args ino staged)
  · intro first second args also ino one two
    exact typed.once first second args also ino (reserving _ _ _ one) (reserving _ _ _ two)

theorem Typed.relink (typed : Typed kinds store stages)
    (descriptions : ∀ ino desc, inoDescription after ino = some desc →
      inoDescription store ino = some desc)
    (counter : metaMutable after = metaMutable store)
    (entries : ∀ parent name item, dirEntry after parent name = some item →
      dirEntry store parent name = some item ∨ kinds item.ino = some item.typ) :
    Typed kinds after stages := by
  have unissued := unissued_congr counter
  constructor
  · constructor
    · intro ino desc described
      exact typed.kinded.described ino desc (descriptions ino desc described)
    · intro parent name item found
      rcases entries parent name item found with old | new
      · exact typed.kinded.entries parent name item old
      · exact new
  · intro ino free
    exact typed.unissued ino ((unissued ino).mp free)
  · intro client args ino staged
    rw [unissued]
    exact typed.reserved client args ino staged
  · exact typed.once

theorem Typed.reserve (typed : Typed kinds store stages)
    (same : ∀ key : Key, key.isNamespace = true → key ≠ .metaMutable →
      after.lookup key = store.lookup key)
    (free : Unissued store newIno)
    (taken : ∀ ino, Unissued after ino → Unissued store ino ∧ ino ≠ newIno) :
    Typed kinds after (Function.update stages client (some (.addNewInode args newIno))) := by
  have reserving : ∀ other also ino,
      Function.update stages client (some (.addNewInode args newIno)) other =
        some (.addNewInode also ino) →
      (other = client ∧ ino = newIno) ∨ (stages other = some (.addNewInode also ino) ∧ ino ≠ newIno) := by
    intro other also ino staged
    rcases update_eq_some staged with ⟨here, equal⟩ | old
    · exact Or.inl ⟨here, (Stage.addNewInode.inj (Option.some.inj equal)).2.symm⟩
    · right
      refine ⟨old, ?_⟩
      intro isNew
      apply (typed.reserved other also ino old).2
      rw [isNew]
      exact free
  constructor
  · constructor
    · intro ino desc described
      exact typed.kinded.described ino desc
        ((same (.inodeX ino .description) rfl (by simp)).symm.trans described)
    · intro parent name item found
      exact typed.kinded.entries parent name item
        ((same (.directoryChild parent name) rfl (by simp)).symm.trans found)
  · intro ino unissued
    exact typed.unissued ino (taken ino unissued).1
  · intro other also ino staged
    rcases reserving other also ino staged with ⟨_, rfl⟩ | ⟨earlier, _⟩
    · exact ⟨typed.unissued ino free, fun unissued => (taken ino unissued).2 rfl⟩
    · have known := typed.reserved other also ino earlier
      exact ⟨known.1, fun unissued => known.2 (taken ino unissued).1⟩
  · intro first second one two ino left right
    rcases reserving first one ino left with ⟨here, isNew⟩ | ⟨earlier, different⟩
    · rcases reserving second two ino right with ⟨there, _⟩ | ⟨_, different⟩
      · exact here.trans there.symm
      · exact absurd isNew different
    · rcases reserving second two ino right with ⟨_, isNew⟩ | ⟨also, _⟩
      · exact absurd isNew different
      · exact typed.once first second one two ino earlier also

theorem Typed.create (typed : Typed kinds store stages)
    (staged : stages client = some (.addNewInode args newIno))
    (counter : metaMutable after = metaMutable store)
    (descriptions : ∀ ino desc, inoDescription after ino = some desc →
      inoDescription store ino = some desc ∨ ino = newIno ∧ desc.typ = args.typ)
    (entries : ∀ parent name item, dirEntry after parent name = some item →
      dirEntry store parent name = some item ∨ item = ⟨newIno, args.typ⟩) :
    Typed (Function.update kinds newIno (some args.typ)) after (Function.update stages client none) := by
  obtain ⟨fresh, issued⟩ := typed.reserved client args newIno staged
  have grows := Kinds.grows_update fresh args.typ
  have unissued := unissued_congr counter
  have running := @stage_of_returned stages client
  constructor
  · constructor
    · intro ino desc described
      rcases descriptions ino desc described with old | ⟨isNew, isTyp⟩
      · exact grows ino desc.typ (typed.kinded.described ino desc old)
      · rw [isNew, isTyp, Function.update_self]
    · intro parent name item found
      rcases entries parent name item found with old | isNew
      · exact grows item.ino item.typ (typed.kinded.entries parent name item old)
      · rw [isNew, Function.update_self]
  · intro ino free
    have before := (unissued ino).mp free
    have different : ino ≠ newIno := fun same => issued (same ▸ before)
    rw [Function.update_of_ne different]
    exact typed.unissued ino before
  · intro other also ino found
    obtain ⟨apart, old⟩ := running other _ found
    have different : ino ≠ newIno := by
      intro same
      rw [same] at old
      exact apart (typed.once other client also args newIno old staged)
    rw [Function.update_of_ne different, unissued]
    exact typed.reserved other also ino old
  · intro first second one two ino left right
    exact typed.once first second one two ino (running _ _ left).2 (running _ _ right).2

end Typed

theorem put_ne_delete {key other : Key} {value : key.Value} :
    Mutation.put key value ≠ Mutation.delete other := by
  intro same
  obtain ⟨rfl, values⟩ := Mutation.mk.inj same
  cases eq_of_heq values

theorem Effect.put_description {cfg : TiFsConfig} {now : SystemTime} {store : Store} {stage : Stage}
    {writes : List Write} {next : Option Stage} (effect : Effect cfg now store stage writes next)
    {ino : StorageIno} {desc : InoDescription}
    (listed : Mutation.put (.inodeX ino .description) desc ∈ writes) :
    ∃ args, stage = .addNewInode args ino ∧ desc.typ = args.typ := by
  have notLink : (Key.inodeX ino .description).isLink ≠ true := by
    intro isLink
    cases isLink
  cases effect with
  | created args newIno free =>
      refine ⟨args, ?_⟩
      rw [createdWrites, List.mem_append] at listed
      rcases listed with first | last
      · simp only [Mutation.put, List.mem_cons, Mutation.mk.injEq, Key.inodeX.injEq, reduceCtorEq,
          and_true, and_false, false_and, List.not_mem_nil, or_false] at first
        obtain ⟨rfl, same⟩ := first
        rw [Option.some.inj (eq_of_heq same)]
        exact ⟨rfl, rfl⟩
      · split at last
        · simp [Mutation.put] at last
        · cases last
  | reservedRoot args blank => simp [initWrites, Mutation.put] at listed
  | reserved args dynMeta stored => simp [Mutation.put] at listed
  | linked parent name ino desc free stored => exact absurd (isLink_of_mem_addedLinks listed) notLink
  | removed parent name allowedTypes item found =>
      exact absurd (isLink_of_mem_removedLinks listed) notLink
  | descriptionDeleted item unlinked => exact absurd (List.mem_singleton.mp listed) put_ne_delete
  | metadataDeleted ino kind rest => exact absurd (List.mem_singleton.mp listed) put_ne_delete
  | directoryRemoved parent name item found => exact absurd (isLink_of_mem_removedLinks listed) notLink
  | sourceDropped parent name newParent newName item found =>
      exact absurd (isLink_of_mem_removedLinks listed) notLink
  | moved parent name newParent newName item desc found free stored =>
      rcases List.mem_append.mp listed with added | gone
      · exact absurd (isLink_of_mem_addedLinks added) notLink
      · exact absurd (isLink_of_mem_removedLinks gone) notLink
  | opened ino useId desc linkedDesc stored linked free =>
      exact absurd (isLink_of_mem_addedLinks listed) notLink
  | closed ino useId item found => exact absurd (isLink_of_mem_removedLinks listed) notLink
  | nothing stage => cases listed

theorem entry_of_mem_createdWrites {args : NewInode} {newIno : StorageIno} {now : SystemTime} {parent : ParentStorageIno}
    {name : ByteString} {item : StorageDirItem}
    (listed : Mutation.put (.directoryChild parent name) item ∈ createdWrites args newIno now) :
    item = ⟨newIno, args.typ⟩ := by
  have inLinks : Mutation.put (Key.directoryChild parent name) item ∈
      (createdWrites args newIno now).filter (fun write => write.key.isLink) :=
    List.mem_filter.mpr ⟨listed, rfl⟩
  rw [filter_createdWrites] at inLinks
  exact entry_of_mem_addedLinks (List.mem_pair.mpr (List.mem_pair.mp inLinks).symm)

theorem Effect.put_entry {cfg : TiFsConfig} {now : SystemTime} {store : Store} {stage : Stage}
    {writes : List Write} {next : Option Stage} (effect : Effect cfg now store stage writes next)
    {kinds : Kinds} (kinded : Kinded kinds store) {parent : ParentStorageIno} {name : ByteString}
    {item : StorageDirItem} (listed : Mutation.put (.directoryChild parent name) item ∈ writes) :
    kinds item.ino = some item.typ ∨ ∃ args, stage = .addNewInode args item.ino ∧ item.typ = args.typ := by
  cases effect with
  | created args newIno free =>
      right
      rw [entry_of_mem_createdWrites listed]
      exact ⟨args, rfl, rfl⟩
  | reservedRoot args blank => simp [initWrites, Mutation.put] at listed
  | reserved args dynMeta stored => simp [Mutation.put] at listed
  | linked above entry ino desc free stored =>
      rw [entry_of_mem_addedLinks listed]
      exact Or.inl (kinded.described ino desc stored)
  | removed above entry allowedTypes found isItem => exact absurd listed entry_notMem_removedLinks
  | descriptionDeleted found unlinked => exact absurd (List.mem_singleton.mp listed) put_ne_delete
  | metadataDeleted ino kind rest => exact absurd (List.mem_singleton.mp listed) put_ne_delete
  | directoryRemoved above entry found isItem => exact absurd listed entry_notMem_removedLinks
  | sourceDropped above entry newParent newName found isItem =>
      exact absurd listed entry_notMem_removedLinks
  | moved above entry newParent newName found desc isItem free stored =>
      rcases List.mem_append.mp listed with added | gone
      · rw [entry_of_mem_addedLinks added]
        exact Or.inl (kinded.described found.ino desc stored)
      · exact absurd gone entry_notMem_removedLinks
  | opened ino useId desc linkedDesc stored linked free =>
      rw [entry_of_mem_addedLinks listed]
      exact Or.inl (kinded.described desc.ino linkedDesc linked)
  | closed ino useId found isItem => exact absurd listed entry_notMem_removedLinks
  | nothing stage => cases listed

section Commit

variable {cfg : TiFsConfig} {now : SystemTime} {kinds : Kinds} {start db : Db Key.Value}
  {stages : Nat → Option Stage} {client : Nat} {stage : Stage} {writes : List Write}
  {next : Option Stage}

theorem Typed.commitPlain (typed : Typed kinds db.data stages) (kinded : Kinded kinds start.data)
    (effect : Effect cfg now start.data stage writes next)
    (uncounted : Key.metaMutable ∉ writes.map Mutation.key)
    (unused : ∀ args ino, stage ≠ .addNewInode args ino)
    (plain : ∀ args ino, next ≠ some (.addNewInode args ino)) :
    Typed kinds (db.commit writes).data (Function.update stages client next) := by
  apply Typed.proceed _ plain
  apply typed.relink
  · intro ino desc described
    apply (lookup_applyAll_eq_some described).resolve_right
    intro listed
    obtain ⟨args, isNew, _⟩ := effect.put_description listed
    exact unused args ino isNew
  · exact lookup_applyAll_of_notMem db.data writes _ uncounted
  · intro parent name item found
    rcases lookup_applyAll_eq_some found with old | new
    · exact Or.inl old
    · right
      apply (effect.put_entry kinded new).resolve_right
      intro fresh
      obtain ⟨args, isNew, _⟩ := fresh
      exact unused args item.ino isNew

theorem Typed.commitCreated (typed : Typed kinds db.data stages) {args : NewInode}
    {newIno : StorageIno} (staged : stages client = some (.addNewInode args newIno))
    (effect : Effect cfg now start.data (.addNewInode args newIno) writes none)
    (uncounted : Key.metaMutable ∉ writes.map Mutation.key)
    (fresh : ∀ parent name item, Mutation.put (.directoryChild parent name) item ∈ writes →
      item = ⟨newIno, args.typ⟩) :
    Typed (Function.update kinds newIno (some args.typ)) (db.commit writes).data
      (Function.update stages client none) := by
  apply typed.create staged
  · exact lookup_applyAll_of_notMem db.data writes _ uncounted
  · intro ino desc described
    rcases lookup_applyAll_eq_some described with old | new
    · exact Or.inl old
    · right
      obtain ⟨same, isNew, isTyp⟩ := effect.put_description new
      obtain ⟨rfl, rfl⟩ := Stage.addNewInode.inj isNew
      exact ⟨rfl, isTyp⟩
  · intro parent name item found
    rcases lookup_applyAll_eq_some found with old | new
    · exact Or.inl old
    · exact Or.inr (fresh parent name item new)

theorem counter_notMem_createdWrites (args : NewInode) (newIno : StorageIno) (now : SystemTime) :
    Key.metaMutable ∉ (createdWrites args newIno now).map Mutation.key := by
  rcases args with ⟨parent, name, typ, perm, gid, uid, rdev, _ | data⟩ <;> simp [createdWrites]

theorem hasParentLink_created (store : Store) (args : NewInode) (newIno : StorageIno) (now : SystemTime) :
    hasParentLink (applyAll store (createdWrites args newIno now)) newIno args.parent args.name := by
  rcases args with ⟨parent, name, typ, perm, gid, uid, rdev, _ | data⟩ <;>
    simp [hasParentLink, createdWrites]

/-- One case for everything a transaction can do. A new kind belongs to an inode that is
linked then. -/
theorem typed_commit (typed : Typed kinds db.data stages) (staged : stages client = some stage)
    (kinded : Kinded kinds start.data) (extended : start.Extends db)
    (may : Db.MayCommit start db writes) (effect : Effect cfg now start.data stage writes next) :
    ∃ later : Kinds, kinds.Grows later ∧
      (∀ ino, later ino = kinds ino ∨
        ∃ parent name, hasParentLink (db.commit writes).data ino parent name) ∧
      Typed later (db.commit writes).data (Function.update stages client next) := by
  have current : ∀ key ∈ writes.map Mutation.key, db.data.lookup key = start.data.lookup key :=
    fun key written => extended.read_current may written
  have same : Typed kinds (db.commit writes).data (Function.update stages client next) →
      ∃ later : Kinds, kinds.Grows later ∧
        (∀ ino, later ino = kinds ino ∨
          ∃ parent name, hasParentLink (db.commit writes).data ino parent name) ∧
        Typed later (db.commit writes).data (Function.update stages client next) :=
    fun kept => ⟨kinds, kinds.grows_refl, fun _ => Or.inl rfl, kept⟩
  have whole := effect
  cases effect with
  | reservedRoot args blank =>
      apply same
      have absent : metaMutable db.data = none := (current .metaMutable (by simp [initWrites])).trans blank
      have counted : metaMutable (db.commit (initWrites cfg)).data = some ⟨firstDataInode⟩ :=
        lookup_put_self _ Key.metaMutable _
      apply typed.reserve
      · intro key names different
        apply lookup_applyAll_of_notMem
        simp only [initWrites, List.map_cons, List.map_nil, Mutation.put_key, List.mem_cons,
          List.not_mem_nil, or_false, not_or]
        refine ⟨?_, different⟩
        rintro rfl
        cases names
      · rw [Unissued, absent]
        exact Or.inl rfl
      · intro ino later
        rw [Unissued, counted] at later
        rw [Unissued, absent]
        refine ⟨Or.inr later, ?_⟩
        rintro rfl
        exact absurd later (by decide)
  | reserved args dynMeta stored =>
      apply same
      have counter : metaMutable db.data = some dynMeta := (current .metaMutable (by simp)).trans stored
      have counted : metaMutable
          (db.commit [Mutation.put .metaMutable ⟨dynMeta.inodeNext + 1⟩]).data =
            some ⟨dynMeta.inodeNext + 1⟩ := lookup_put_self _ Key.metaMutable _
      apply typed.reserve
      · intro key _ different
        exact lookup_put_of_ne db.data _ key _ different
      · rw [Unissued, counter]
      · intro ino later
        rw [Unissued, counted] at later
        rw [Unissued, counter]
        exact ⟨Nat.le_of_succ_le later, (Nat.lt_of_succ_le later).ne'⟩
  | created args newIno free =>
      have fresh := (typed.reserved client args newIno staged).1
      refine ⟨Function.update kinds newIno (some args.typ), Kinds.grows_update fresh args.typ, ?_, ?_⟩
      · intro ino
        by_cases isNew : ino = newIno
        · rw [isNew]
          exact Or.inr ⟨args.parent, args.name, hasParentLink_created db.data args newIno now⟩
        · exact Or.inl (Function.update_of_ne isNew _ _)
      · exact typed.commitCreated staged whole (counter_notMem_createdWrites args newIno now)
          (fun _ _ _ listed => entry_of_mem_createdWrites listed)
  | linked parent name ino desc free stored =>
      exact same (typed.commitPlain kinded whole (by simp [addedLinks]) (by simp) (by simp))
  | removed parent name allowedTypes item found =>
      exact same (typed.commitPlain kinded whole (by simp [removedLinks]) (by simp) (by simp))
  | descriptionDeleted item unlinked =>
      exact same (typed.commitPlain kinded whole (by simp) (by simp) (by simp))
  | metadataDeleted ino kind rest =>
      exact same (typed.commitPlain kinded whole (by simp) (by simp) (by simp))
  | directoryRemoved parent name item found =>
      exact same (typed.commitPlain kinded whole (by simp [removedLinks]) (by simp) (by simp))
  | sourceDropped parent name newParent newName item found =>
      exact same (typed.commitPlain kinded whole (by simp [removedLinks]) (by simp) (by simp))
  | moved parent name newParent newName item desc found free stored =>
      exact same (typed.commitPlain kinded whole (by simp [addedLinks, removedLinks]) (by simp) (by simp))
  | opened ino useId desc linkedDesc stored linked free =>
      exact same (typed.commitPlain kinded whole (by simp [addedLinks]) (by simp) (by simp))
  | closed ino useId item found =>
      exact same (typed.commitPlain kinded whole (by simp [removedLinks]) (by simp) (by simp))
  | nothing stage =>
      apply same
      apply Typed.proceed _ (by simp)
      exact typed

end Commit

theorem typed_step {cfg : TiFsConfig} {kinds : Kinds} {before after : Namespace} {event : Event}
    (sound : before.Sound cfg) (typed : before.Typed kinds)
    (taken : Namespace.Step cfg before event after) :
    ∃ later : Kinds, kinds.Grows later ∧
      (∀ ino, later ino = kinds ino ∨ ∃ parent name, hasParentLink after.db.data ino parent name) ∧
      after.Typed later := by
  have same : after.Typed kinds → ∃ later : Kinds, kinds.Grows later ∧
      (∀ ino, later ino = kinds ino ∨ ∃ parent name, hasParentLink after.db.data ino parent name) ∧
      after.Typed later :=
    fun kept => ⟨kinds, kinds.grows_refl, fun _ => Or.inl rfl, kept⟩
  cases move_of_step taken with
  | spawned call =>
      apply same
      constructor
      · exact typed.typed.weaken fun client stage staged => stageAt_spawned staged
      · intro proc member attempt running
        rcases List.mem_append.mp member with old | new
        · exact typed.begun proc old attempt running
        · rw [List.mem_singleton.mp new] at running
          cases running
  | began client now stage next txn idle ran =>
      apply same
      constructor
      · exact typed.typed.weaken fun other current staged => Or.inl (stageAt_kept idle staged rfl)
      · intro proc member attempt running
        rcases List.mem_or_eq_of_mem_set member with old | rfl
        · exact typed.begun proc old attempt running
        · rw [← Option.some.inj running]
          exact typed.typed.kinded
  | stopped _ client =>
      apply same
      constructor
      · exact typed.typed.weaken fun other stage staged => Or.inl (stageAt_stopped staged)
      · intro proc member attempt running
        rcases List.mem_or_eq_of_mem_set member with old | rfl
        · exact typed.begun proc old attempt running
        · cases running
  | retried client stage attempt running =>
      apply same
      constructor
      · exact typed.typed.weaken fun other current staged => Or.inl (stageAt_kept running staged rfl)
      · intro proc member other begun
        rcases List.mem_or_eq_of_mem_set member with old | rfl
        · exact typed.begun proc old other begun
        · cases begun
  | committed client stage attempt running may =>
      obtain ⟨current, now, staged, extended, effect⟩ :=
        sound _ (List.mem_of_getElem? running) attempt rfl
      have here : before.stageAt client = some current := by
        rw [Namespace.stageAt, running]
        exact staged
      have kinded := typed.begun _ (List.mem_of_getElem? running) attempt rfl
      obtain ⟨later, grows, linked, kept⟩ := typed_commit typed.typed here kinded extended may effect
      refine ⟨later, grows, linked, ?_, ?_⟩
      · apply kept.weaken
        intro other next found
        exact Or.inl ((stageAt_committed running).symm.trans found)
      · intro proc member other begun
        rcases List.mem_or_eq_of_mem_set member with old | rfl
        · exact (typed.begun proc old other begun).grow grows
        · cases begun
  | wrote writes outside =>
      apply same
      refine ⟨?_, typed.begun⟩
      apply typed.typed.relink
      · intro ino desc described
        exact (lookup_fileData outside rfl).symm.trans described
      · exact lookup_fileData outside rfl
      · intro parent name item found
        exact Or.inl ((lookup_fileData outside rfl).symm.trans found)

/-- What holds of the stages that calls begin with, and passes from each stage to the next,
holds of all stages. -/
theorem stages_step {cfg : TiFsConfig} {before after : Namespace} {event : Event}
    (holds : Stage → Prop)
    (first : ∀ call, event = .spawn call → ∀ stage, call.first = some stage → holds stage)
    (passed : ∀ now store stage writes next, holds stage →
      Effect cfg now store stage writes (some next) → holds next)
    (sound : before.Sound cfg) (taken : Namespace.Step cfg before event after)
    (all : ∀ proc ∈ before.procs, ∀ stage, proc.stage = some stage → holds stage) :
    ∀ proc ∈ after.procs, ∀ stage, proc.stage = some stage → holds stage := by
  intro proc member stage isStage
  cases move_of_step taken with
  | spawned call =>
      rcases List.mem_append.mp member with old | new
      · exact all proc old stage isStage
      · rw [List.mem_singleton.mp new] at isStage
        exact first call rfl stage isStage
  | began client now current next txn idle ran =>
      rcases List.mem_or_eq_of_mem_set member with old | rfl
      · exact all proc old stage isStage
      · exact all _ (List.mem_of_getElem? idle) stage isStage
  | stopped _ client =>
      rcases List.mem_or_eq_of_mem_set member with old | rfl
      · exact all proc old stage isStage
      · cases isStage
  | retried client current attempt running =>
      rcases List.mem_or_eq_of_mem_set member with old | rfl
      · exact all proc old stage isStage
      · exact all _ (List.mem_of_getElem? running) stage isStage
  | committed client current attempt running may =>
      rcases List.mem_or_eq_of_mem_set member with old | rfl
      · exact all proc old stage isStage
      · obtain ⟨here, now, staged, _, effect⟩ := sound _ (List.mem_of_getElem? running) attempt rfl
        have held := all _ (List.mem_of_getElem? running) here staged
        rw [show attempt.next = some stage from isStage] at effect
        exact passed now _ here _ stage held effect
  | wrote writes outside => exact all proc member stage isStage

def Proc.Ran (cfg : TiFsConfig) (proc : Proc) : Prop :=
  ∀ attempt, proc.attempt = some attempt → ∃ stage now txn, proc.stage = some stage ∧
    stage.body cfg now ⟨attempt.start.data, []⟩ = .ok (attempt.next, txn) ∧ attempt.writes = txn.buffer

theorem ran_step {cfg : TiFsConfig} {before after : Namespace} {event : Event}
    (all : ∀ proc ∈ before.procs, proc.Ran cfg) (taken : Namespace.Step cfg before event after) :
    ∀ proc ∈ after.procs, proc.Ran cfg := by
  intro proc member attempt running
  cases move_of_step taken with
  | spawned call =>
      rcases List.mem_append.mp member with old | new
      · exact all proc old attempt running
      · rw [List.mem_singleton.mp new] at running
        cases running
  | began client now stage next txn idle ran =>
      rcases List.mem_or_eq_of_mem_set member with old | rfl
      · exact all proc old attempt running
      · rw [← Option.some.inj running]
        exact ⟨stage, now, txn, rfl, ran, rfl⟩
  | stopped _ client =>
      rcases List.mem_or_eq_of_mem_set member with old | rfl
      · exact all proc old attempt running
      · cases running
  | retried client stage other begun =>
      rcases List.mem_or_eq_of_mem_set member with old | rfl
      · exact all proc old attempt running
      · cases running
  | committed client stage other begun may =>
      rcases List.mem_or_eq_of_mem_set member with old | rfl
      · exact all proc old attempt running
      · cases running
  | wrote writes outside => exact all proc member attempt running

theorem rename_taken {cfg : TiFsConfig} {now : SystemTime} {store : Store}
    {parent newParent : ParentStorageIno} {name newName : ByteString} {next : Option Stage}
    {txn : Txn Key.Value} {childIno : StorageIno}
    (ran : (Stage.renameChild parent name newParent newName).body cfg now ⟨store, []⟩ = .ok (next, txn))
    (dropped : txn.buffer = removedLinks parent name childIno) :
    dirEntry store newParent newName ≠ none := by
  intro free
  have target : dirEntry (Txn.mk store []).view newParent newName = none := free
  obtain ⟨_, first, _⟩ := of_bind_pure ran
  cases found : dirEntry (Txn.mk store []).view parent name with
  | none =>
      rw [rename_missing found] at first
      cases first
  | some item =>
      cases stored : inoDescription (Txn.mk store []).view item.ino with
      | none =>
          rw [rename_noDescription found target stored] at first
          cases first
      | some desc =>
          rw [rename_moved found target stored] at first
          obtain ⟨_, isTxn⟩ := Prod.mk.inj (Except.ok.inj first)
          rw [← isTxn] at dropped
          have longer := congrArg List.length dropped
          simp [Txn.mutate, addedLinks, removedLinks] at longer

end TiFs
