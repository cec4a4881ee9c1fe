import TiFs.Links
import TiFs.Namespace

/-! Directory entries and parent links mirror each other in every committed
state: each transaction that changes an entry writes the entry's own key, so
that two transactions which disagree about an entry cannot both commit. -/

namespace TiFs

open KeyValue

def Key.isLink : Key → Bool
  | .directoryChild _ _ => true
  | .parentLink _ _ _ => true
  | _ => false

theorem Key.isNamespace_of_isLink {key : Key} (isLink : key.isLink = true) :
    key.isNamespace = true := by
  cases key <;> first | rfl | cases isLink

structure Edits (start : Store) (writes : List Write) (edits : List EntryEdit) : Prop where
  distinct : (edits.map EntryEdit.slot).Nodup
  valid : ∀ edit ∈ edits, edit.Valid start
  links : (writes.filter fun write => write.key.isLink).Perm (edits.flatMap EntryEdit.writes)

theorem edits_nil {start : Store} {writes : List Write}
    (plain : writes.filter (fun write => write.key.isLink) = []) : Edits start writes [] where
  distinct := List.nodup_nil
  valid := fun _ member => by cases member
  links := by rw [plain]; rfl

theorem edits_single {start : Store} {writes : List Write} {edit : EntryEdit}
    (valid : edit.Valid start)
    (links : (writes.filter fun write => write.key.isLink).Perm edit.writes) :
    Edits start writes [edit] where
  distinct := List.nodup_singleton _
  valid := by
    intro other member
    rw [List.mem_singleton.mp member]
    exact valid
  links := by simpa using links

theorem filter_createdWrites (args : NewInode) (newIno : StorageIno) (now : SystemTime) :
    (createdWrites args newIno now).filter (fun write => write.key.isLink) =
      [Mutation.put (.directoryChild args.parent args.name) ⟨newIno, args.typ⟩,
       Mutation.put (.parentLink newIno args.parent args.name) ()] := by
  rcases args with ⟨parent, name, typ, perm, gid, uid, rdev, _ | data⟩ <;> rfl

theorem Effect.edits {cfg : TiFsConfig} {now : SystemTime} {store : Store} {stage : Stage}
    {writes : List Write} {next : Option Stage} (effect : Effect cfg now store stage writes next) :
    ∃ edits, Edits store writes edits := by
  cases effect with
  | reservedRoot args blank => exact ⟨[], edits_nil rfl⟩
  | reserved args dynMeta stored => exact ⟨[], edits_nil rfl⟩
  | created args newIno free =>
      refine ⟨[.add args.parent args.name ⟨newIno, args.typ⟩], edits_single free ?_⟩
      rw [filter_createdWrites]
      exact List.Perm.swap _ _ _
  | linked parent name ino desc free stored =>
      exact ⟨[.add parent name ⟨ino, desc.typ⟩], edits_single free (List.Perm.refl _)⟩
  | removed parent name allowedTypes item found =>
      exact ⟨[.remove parent name item], edits_single found (List.Perm.refl _)⟩
  | descriptionDeleted item unlinked => exact ⟨[], edits_nil rfl⟩
  | metadataDeleted ino kind rest => exact ⟨[], edits_nil rfl⟩
  | directoryRemoved parent name item found =>
      exact ⟨[.remove parent name item], edits_single found (List.Perm.refl _)⟩
  | sourceDropped parent name newParent newName item found =>
      exact ⟨[.remove parent name item], edits_single found (List.Perm.refl _)⟩
  | moved parent name newParent newName item desc found free stored =>
      refine ⟨[.add newParent newName ⟨item.ino, desc.typ⟩, .remove parent name item], ?_, ?_,
        List.Perm.refl _⟩
      · -- The target is free and the source is not, so they are different entries.
        simp only [List.map_cons, List.map_nil, EntryEdit.slot, List.nodup_cons, List.mem_singleton,
          List.not_mem_nil, not_false_eq_true, List.nodup_nil, and_true]
        intro same
        obtain ⟨rfl, rfl⟩ := Prod.mk.inj same
        rw [found] at free
        cases free
      · intro edit member
        rcases List.mem_pair.mp member with rfl | rfl
        · exact free
        · exact found
  | opened ino useId desc linkedDesc stored linked free =>
      exact ⟨[.add openedInodeParentInode (uuidToString useId) ⟨desc.ino, linkedDesc.typ⟩],
        edits_single free (List.Perm.refl _)⟩
  | closed ino useId item found =>
      exact ⟨[.remove openedInodeParentInode (uuidToString useId) item],
        edits_single found (List.Perm.refl _)⟩
  | nothing stage => exact ⟨[], edits_nil rfl⟩

theorem EntryEdit.keys_mem {edit : EntryEdit} {key : Key}
    (member : key ∈ edit.writes.map Mutation.key) :
    key = .directoryChild edit.slot.1 edit.slot.2 ∨
      ∃ ino, key = .parentLink ino edit.slot.1 edit.slot.2 := by
  cases edit with
  | add parent name item =>
      rcases List.mem_pair.mp member with rfl | rfl
      · exact Or.inr ⟨_, rfl⟩
      · exact Or.inl rfl
  | remove parent name item =>
      rcases List.mem_pair.mp member with rfl | rfl
      · exact Or.inl rfl
      · exact Or.inr ⟨_, rfl⟩

theorem EntryEdit.keys_nodup (edit : EntryEdit) : (edit.writes.map Mutation.key).Nodup := by
  cases edit with
  | add parent name item => simp [EntryEdit.writes, addedLinks]
  | remove parent name item => simp [EntryEdit.writes, removedLinks]

theorem EntryEdit.child_key_mem (edit : EntryEdit) :
    Key.directoryChild edit.slot.1 edit.slot.2 ∈ edit.writes.map Mutation.key := by
  cases edit with
  | add parent name item => simp [EntryEdit.writes, EntryEdit.slot, addedLinks]
  | remove parent name item => simp [EntryEdit.writes, EntryEdit.slot, removedLinks]

theorem edits_keys_nodup (edits : List EntryEdit) (distinct : (edits.map EntryEdit.slot).Nodup) :
    ((edits.flatMap EntryEdit.writes).map Mutation.key).Nodup := by
  induction edits with
  | nil => exact List.nodup_nil
  | cons head tail ih =>
      obtain ⟨fresh, rest⟩ := List.nodup_cons.mp distinct
      rw [List.flatMap_cons, List.map_append]
      refine List.Nodup.append head.keys_nodup (ih rest) ?_
      intro key inHead inTail
      obtain ⟨write, listed, rfl⟩ := List.mem_map.mp inTail
      obtain ⟨edit, member, written⟩ := List.mem_flatMap.mp listed
      have differ : edit.slot ≠ head.slot := by
        intro same
        exact fresh (List.mem_map.mpr ⟨edit, member, same⟩)
      have ofHead := head.keys_mem inHead
      have ofEdit := edit.keys_mem (List.mem_map_of_mem written)
      apply differ
      rcases ofHead with first | ⟨ino, first⟩ <;> rcases ofEdit with second | ⟨other, second⟩
      · obtain ⟨above, entry⟩ := Key.directoryChild.inj (second.symm.trans first)
        exact Prod.ext above entry
      · cases second.symm.trans first
      · cases second.symm.trans first
      · obtain ⟨_, above, entry⟩ := Key.parentLink.inj (second.symm.trans first)
        exact Prod.ext above entry

theorem mirror_congr {first second : Store}
    (same : ∀ key : Key, key.isLink = true → first.lookup key = second.lookup key) :
    Mirror first ↔ Mirror second := by
  have entries : ∀ parent name, dirEntry first parent name = dirEntry second parent name :=
    fun parent name => same (.directoryChild parent name) rfl
  have links : ∀ ino parent name,
      hasParentLink first ino parent name ↔ hasParentLink second ino parent name := by
    intro ino parent name
    rw [hasParentLink, hasParentLink, same (.parentLink ino parent name) rfl]
  simp only [Mirror, entries, links]

/-- A transaction that commits applies edits that are valid at its commit, not
only at its start. -/
theorem mirror_commit {start db : Db Key.Value} {writes : List Write} {edits : List EntryEdit}
    (mirrored : Mirror db.data) (extended : start.Extends db)
    (may : Db.MayCommit start db writes) (made : Edits start.data writes edits) :
    Mirror (db.commit writes).data := by
  have current : ∀ edit ∈ edits, edit.Valid db.data := by
    intro edit member
    refine EntryEdit.valid_of_dirEntry (made.valid edit member) ?_
    obtain ⟨write, listed, named⟩ := List.mem_map.mp edit.child_key_mem
    have written : write ∈ writes := by
      have inLinks : write ∈ edits.flatMap EntryEdit.writes :=
        List.mem_flatMap.mpr ⟨edit, member, listed⟩
      exact List.mem_of_mem_filter (made.links.mem_iff.mpr inLinks)
    refine extended.read_current may ?_
    rw [← named]
    exact List.mem_map_of_mem written
  have edited := mirror_edits mirrored edits made.distinct current
  refine (mirror_congr ?_).mpr edited
  intro key isLink
  rw [Db.commit, lookup_applyAll_filter db.data writes Key.isLink key isLink,
    applyAll_perm db.data (edits_keys_nodup edits made.distinct) made.links]

theorem mirror_of_outside {db : Db Key.Value} {writes : List Write} (mirrored : Mirror db.data)
    (outside : ∀ write ∈ writes, write.key.isNamespace = false) :
    Mirror (db.commit writes).data := by
  refine (mirror_congr ?_).mpr mirrored
  intro key isLink
  refine lookup_applyAll_of_notMem db.data writes key ?_
  intro listed
  obtain ⟨write, member, rfl⟩ := List.mem_map.mp listed
  have plain := outside write member
  rw [Key.isNamespace_of_isLink isLink] at plain
  cases plain

theorem mirror_step {cfg : TiFsConfig} {before after : Namespace} {event : Event}
    (sound : before.Sound cfg) (mirrored : Mirror before.db.data)
    (taken : Namespace.Step cfg before event after) : Mirror after.db.data := by
  cases move_of_step taken with
  | spawned call => exact mirrored
  | began client now stage next txn idle ran => exact mirrored
  | stopped _ client => exact mirrored
  | retried client stage attempt running => exact mirrored
  | committed client stage attempt running may =>
      obtain ⟨current, now, _, extended, effect⟩ :=
        sound _ (List.mem_of_getElem? running) attempt rfl
      obtain ⟨edits, made⟩ := effect.edits
      exact mirror_commit mirrored extended may made
  | wrote writes outside => exact mirror_of_outside mirrored outside

/-- Whatever the clients interleave and retry, from a state in which no
transaction is under way. -/
theorem entries_mirror_links (cfg : TiFsConfig) (db : Db Key.Value) (mirrored : Mirror db.data)
    (state : Namespace)
    (run : Run (Namespace.Step cfg) (fun _ _ => True) ⟨db, []⟩ state) : Mirror state.db.data := by
  have kept : state.Sound cfg ∧ Mirror state.db.data := by
    refine Run.invariant (fun state => Namespace.Sound cfg state ∧ Mirror state.db.data) ?_
      ⟨fun _ member => absurd member List.not_mem_nil, mirrored⟩ run
    intro before event after holds taken _
    exact ⟨sound_step holds.1 taken, mirror_step holds.1 holds.2 taken⟩
  exact kept.2

/-- Two clients create the file `a`: the second commit is refused, and its retry
finds the entry of the first. -/
theorem entries_mirror_links_create_twice :
    ∃ state, Run (Namespace.Step (paddingConfig 4 (by decide))) (fun _ _ => True)
        Namespace.blank state ∧
      dirEntry state.db.data rootInode [97] = some ⟨10, .file⟩ ∧ Mirror state.db.data := by
  have ran : ((runAll (Namespace.step (paddingConfig 4 (by decide))) Namespace.blank
      [.spawn (.create ⟨parentOfRootInode, [], .directory, 511, 0, 0, 0, none⟩),
       .begin 0 0, .commit 0, .begin 0 0, .commit 0,
       .spawn (.create ⟨rootInode, [97], .file, 420, 0, 0, 0, none⟩), .begin 1 0, .commit 1,
       .spawn (.create ⟨rootInode, [97], .symlink, 511, 0, 0, 0, some [98]⟩), .begin 2 0, .commit 2,
       .begin 1 0, .begin 2 0, .commit 1, .retry 2, .begin 2 0, .commit 2]).map fun state =>
          dirEntry state.db.data rootInode [97]) = some (some ⟨10, .file⟩) := by
    decide +kernel
  obtain ⟨state, reached, entry⟩ := Option.map_eq_some_iff.mp ran
  have run : Run (Namespace.Step (paddingConfig 4 (by decide))) (fun _ _ => True)
      Namespace.blank state := Run.of_runAll (fun _ _ _ taken => ⟨taken, trivial⟩) reached
  exact ⟨state, run, entry, entries_mirror_links _ _ mirror_empty state run⟩

end TiFs
