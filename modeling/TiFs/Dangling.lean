import Mathlib.Logic.Function.Basic
import TiFs.LinkMirror

/-! Directory entries and the descriptions of the inodes they refer to. The
deletion check and the operations that add an entry write no common key, so the
two keep the descriptions only as long as they do not overlap. -/

namespace TiFs

open KeyValue

def NoDangling (store : Store) : Prop :=
  ∀ parent name item, dirEntry store parent name = some item →
    ∃ desc, inoDescription store item.ino = some desc ∧ desc.typ = item.typ

def Unissued (store : Store) (ino : StorageIno) : Prop :=
  match metaMutable store with
  | none => ino = rootInode ∨ firstDataInode ≤ ino
  | some dynMeta => dynMeta.inodeNext ≤ ino

theorem unissued_congr {store after : Store} (counter : metaMutable after = metaMutable store)
    (ino : StorageIno) : Unissued after ino ↔ Unissued store ino := by
  rw [Unissued, Unissued, counter]

structure Settled (store : Store) : Prop where
  mirrored : Mirror store
  described : NoDangling store
  unissued : ∀ ino, Unissued store ino → inoDescription store ino = none

def Namespace.stageAt (state : Namespace) (client : Nat) : Option Stage :=
  (state.procs[client]?).bind Proc.stage

/-- The stages that rely on nobody else using their inode number. -/
inductive Stage.Removing : Stage → StorageIno → Prop
  | checkForDelete (item : StorageDirItem) : Removing (.checkForDelete item) item.ino
  | deleteMetadata (ino : StorageIno) (kinds : List InoMetadata) :
      Removing (.deleteMetadata ino kinds) ino

def Stage.Plain (stage : Stage) : Prop :=
  (∀ args ino, stage ≠ .addNewInode args ino) ∧ ∀ ino, ¬ stage.Removing ino

def Stage.isPlain : Stage → Bool
  | .addNewInode _ _ => false
  | .checkForDelete _ => false
  | .deleteMetadata _ _ => false
  | _ => true

theorem Stage.plain_of_isPlain {stage : Stage} (plain : stage.isPlain = true) : stage.Plain := by
  constructor
  · rintro args ino rfl
    cases plain
  · intro ino removing
    cases removing <;> cases plain

/-- What holds of the store and of the stages of all calls together. -/
structure Intact (store : Store) (stages : Nat → Option Stage) : Prop where
  settled : Settled store
  reserved : ∀ client args ino, stages client = some (.addNewInode args ino) →
    inoDescription store ino = none ∧ ¬ Unissued store ino
  once : ∀ client other args also ino, stages client = some (.addNewInode args ino) →
    stages other = some (.addNewInode also ino) → client = other
  removing : ∀ client stage ino, stages client = some stage → stage.Removing ino →
    ¬ Unissued store ino ∧ ∀ other args, stages other ≠ some (.addNewInode args ino)
  cleared : ∀ client ino kinds, stages client = some (.deleteMetadata ino kinds) →
    inoDescription store ino = none

theorem Intact.weaken {store : Store} {stages fewer : Nat → Option Stage}
    (intact : Intact store stages)
    (kept : ∀ client stage, fewer client = some stage → stages client = some stage ∨ stage.Plain) :
    Intact store fewer := by
  have reserving : ∀ client args ino, fewer client = some (.addNewInode args ino) →
      stages client = some (.addNewInode args ino) := by
    intro client args ino staged
    exact (kept client _ staged).resolve_right fun plain => plain.1 args ino rfl
  have removes : ∀ client stage ino, fewer client = some stage → stage.Removing ino →
      stages client = some stage := by
    intro client stage ino staged removing
    exact (kept client stage staged).resolve_right fun plain => plain.2 ino removing
  constructor
  · exact intact.settled
  · intro client args ino staged
    exact intact.reserved client args ino (reserving client args ino staged)
  · intro client other args also ino first second
    exact intact.once client other args also ino (reserving _ _ _ first) (reserving _ _ _ second)
  · intro client stage ino staged removing
    obtain ⟨issued, unreserved⟩ :=
      intact.removing client stage ino (removes client stage ino staged removing) removing
    exact ⟨issued, fun other args staged => unreserved other args (reserving _ _ _ staged)⟩
  · intro client ino kinds staged
    exact intact.cleared client ino kinds (removes client _ ino staged (.deleteMetadata ino kinds))

section Commits

variable {store after : Store} {stages : Nat → Option Stage} {client : Nat}

theorem stage_of_returned (other : Nat) (stage : Stage)
    (found : Function.update stages client none other = some stage) :
    other ≠ client ∧ stages other = some stage := by
  by_cases same : other = client
  · rw [same, Function.update_self] at found
    cases found
  · rw [Function.update_of_ne same] at found
    exact ⟨same, found⟩

theorem Intact.finish (intact : Intact store stages) :
    Intact store (Function.update stages client none) := by
  refine intact.weaken ?_
  exact fun other stage staged => Or.inl (stage_of_returned other stage staged).2

theorem Intact.relink (intact : Intact store stages) (mirrored : Mirror after)
    (descriptions : ∀ ino, inoDescription after ino = inoDescription store ino)
    (counter : metaMutable after = metaMutable store)
    (entries : ∀ parent name item, dirEntry after parent name = some item →
      dirEntry store parent name = some item ∨
        ∃ desc, inoDescription store item.ino = some desc ∧ desc.typ = item.typ) :
    Intact after stages := by
  have unissued := unissued_congr counter
  constructor
  · refine ⟨mirrored, ?_, ?_⟩
    · intro parent name item found
      rw [descriptions]
      rcases entries parent name item found with old | new
      · exact intact.settled.described parent name item old
      · exact new
    · intro ino free
      rw [descriptions]
      exact intact.settled.unissued ino ((unissued ino).mp free)
  · intro client args ino staged
    rw [descriptions, unissued]
    exact intact.reserved client args ino staged
  · exact intact.once
  · intro client stage ino staged removing
    rw [unissued]
    exact intact.removing client stage ino staged removing
  · intro client ino kinds staged
    rw [descriptions]
    exact intact.cleared client ino kinds staged

theorem update_eq_some {next : Option Stage} {other : Nat} {stage : Stage}
    (staged : Function.update stages client next other = some stage) :
    (other = client ∧ next = some stage) ∨ stages other = some stage := by
  by_cases same : other = client
  · rw [same, Function.update_self] at staged
    exact Or.inl ⟨same, staged⟩
  · rw [Function.update_of_ne same] at staged
    exact Or.inr staged

theorem Intact.removeNext (intact : Intact store stages) {stage : Stage} {ino : StorageIno}
    (removes : stage.Removing ino) (issued : ¬ Unissued store ino)
    (unreserved : ∀ other args, stages other ≠ some (.addNewInode args ino))
    (gone : ∀ kinds, stage = .deleteMetadata ino kinds → inoDescription store ino = none) :
    Intact store (Function.update stages client (some stage)) := by
  have reserving : ∀ other args number,
      Function.update stages client (some stage) other = some (.addNewInode args number) →
      stages other = some (.addNewInode args number) := by
    intro other args number staged
    refine (update_eq_some staged).resolve_left ?_
    rintro ⟨_, same⟩
    obtain rfl := Option.some.inj same
    cases removes
  constructor
  · exact intact.settled
  · intro other args number staged
    exact intact.reserved other args number (reserving other args number staged)
  · intro first second args also number one two
    exact intact.once first second args also number (reserving _ _ _ one) (reserving _ _ _ two)
  · intro other current number staged removing
    have rest : ¬ Unissued store number ∧
        ∀ third args, stages third ≠ some (.addNewInode args number) := by
      rcases update_eq_some staged with ⟨_, same⟩ | old
      · obtain rfl := Option.some.inj same
        have equal : number = ino := by cases removing <;> cases removes <;> rfl
        rw [equal]
        exact ⟨issued, unreserved⟩
      · exact intact.removing other current number old removing
    exact ⟨rest.1, fun third args staged => rest.2 third args (reserving _ _ _ staged)⟩
  · intro other number kinds staged
    rcases update_eq_some staged with ⟨_, same⟩ | old
    · obtain rfl := Option.some.inj same
      cases removes
      exact gone kinds rfl
    · exact intact.cleared other number kinds old

theorem Intact.described_used (intact : Intact store stages) {ino : StorageIno}
    {desc : InoDescription} (described : inoDescription store ino = some desc) :
    ¬ Unissued store ino ∧ ∀ other args, stages other ≠ some (.addNewInode args ino) := by
  constructor
  · intro free
    have missing := intact.settled.unissued ino free
    rw [described] at missing
    cases missing
  · intro other args staged
    have missing := (intact.reserved other args ino staged).1
    rw [described] at missing
    cases missing

theorem Intact.undescribe (intact : Intact store stages) {gone : StorageIno}
    (mirrored : Mirror after) (counter : metaMutable after = metaMutable store)
    (entries : ∀ parent name, dirEntry after parent name = dirEntry store parent name)
    (unused : ∀ parent name item, dirEntry store parent name = some item → item.ino ≠ gone)
    (cleared : inoDescription after gone = none)
    (others : ∀ ino, ino ≠ gone → inoDescription after ino = inoDescription store ino) :
    Intact after stages := by
  have unissued := unissued_congr counter
  have missing : ∀ ino, inoDescription store ino = none → inoDescription after ino = none := by
    intro ino absent
    by_cases same : ino = gone
    · rw [same, cleared]
    · rw [others ino same, absent]
  constructor
  · refine ⟨mirrored, ?_, ?_⟩
    · intro parent name item found
      rw [entries] at found
      rw [others item.ino (unused parent name item found)]
      exact intact.settled.described parent name item found
    · intro ino free
      exact missing ino (intact.settled.unissued ino ((unissued ino).mp free))
  · intro client args ino staged
    have fresh := intact.reserved client args ino staged
    exact ⟨missing ino fresh.1, fun free => fresh.2 ((unissued ino).mp free)⟩
  · exact intact.once
  · intro client stage ino staged removing
    rw [unissued]
    exact intact.removing client stage ino staged removing
  · intro client ino kinds staged
    exact missing ino (intact.cleared client ino kinds staged)

theorem Intact.create (intact : Intact store stages) {args : NewInode} {newIno : StorageIno}
    {desc : InoDescription} (staged : stages client = some (.addNewInode args newIno))
    (mirrored : Mirror after) (counter : metaMutable after = metaMutable store)
    (described : inoDescription after newIno = some desc)
    (others : ∀ ino, ino ≠ newIno → inoDescription after ino = inoDescription store ino)
    (entries : ∀ parent name item, dirEntry after parent name = some item →
      dirEntry store parent name = some item ∨ item = ⟨newIno, desc.typ⟩) :
    Intact after (Function.update stages client none) := by
  obtain ⟨absent, issued⟩ := intact.reserved client args newIno staged
  have unissued := unissued_congr counter
  have running := @stage_of_returned stages client
  constructor
  · refine ⟨mirrored, ?_, ?_⟩
    · intro parent name item found
      rcases entries parent name item found with old | rfl
      · obtain ⟨known, stored, typed⟩ := intact.settled.described parent name item old
        have different : item.ino ≠ newIno := by
          intro same
          rw [same, absent] at stored
          cases stored
        exact ⟨known, by rw [others item.ino different, stored], typed⟩
      · exact ⟨desc, described, rfl⟩
    · intro ino free
      have before := (unissued ino).mp free
      have different : ino ≠ newIno := fun same => issued (same ▸ before)
      rw [others ino different]
      exact intact.settled.unissued ino before
  · intro other also ino found
    obtain ⟨apart, old⟩ := running other _ found
    have different : ino ≠ newIno := by
      rintro rfl
      exact apart (intact.once other client also args ino old staged)
    rw [others ino different, unissued]
    exact intact.reserved other also ino old
  · intro first second one two ino left right
    exact intact.once first second one two ino (running _ _ left).2 (running _ _ right).2
  · intro other stage ino found removing
    obtain ⟨free, unreserved⟩ := intact.removing other stage ino (running _ _ found).2 removing
    rw [unissued]
    exact ⟨free, fun third also reserved => unreserved third also (running _ _ reserved).2⟩
  · intro other ino kinds found
    have old := (running _ _ found).2
    have different : ino ≠ newIno := by
      rintro rfl
      exact (intact.removing other _ ino old (.deleteMetadata ino kinds)).2 client args staged
    rw [others ino different]
    exact intact.cleared other ino kinds old

theorem Intact.reserve (intact : Intact store stages) {args : NewInode} {newIno : StorageIno}
    (links : ∀ key : Key, key.isLink = true → after.lookup key = store.lookup key)
    (descriptions : ∀ ino, inoDescription after ino = inoDescription store ino)
    (free : Unissued store newIno)
    (taken : ∀ ino, Unissued after ino → Unissued store ino ∧ ino ≠ newIno) :
    Intact after (Function.update stages client (some (.addNewInode args newIno))) := by
  have fresh : ∀ other also, stages other ≠ some (.addNewInode also newIno) := by
    intro other also staged
    exact (intact.reserved other also newIno staged).2 free
  have reserving : ∀ other also ino,
      Function.update stages client (some (.addNewInode args newIno)) other =
        some (.addNewInode also ino) →
      (other = client ∧ ino = newIno) ∨ (stages other = some (.addNewInode also ino) ∧ ino ≠ newIno) := by
    intro other also ino staged
    rcases update_eq_some staged with ⟨same, equal⟩ | old
    · obtain ⟨_, rfl⟩ := Stage.addNewInode.inj (Option.some.inj equal)
      exact Or.inl ⟨same, rfl⟩
    · exact Or.inr ⟨old, fun same => fresh other also (same ▸ old)⟩
  have old : ∀ other stage ino, Function.update stages client (some (.addNewInode args newIno)) other =
      some stage → stage.Removing ino → stages other = some stage := by
    intro other stage ino staged removing
    refine (update_eq_some staged).resolve_left ?_
    rintro ⟨_, same⟩
    obtain rfl := Option.some.inj same
    cases removing
  constructor
  · refine ⟨(mirror_congr links).mpr intact.settled.mirrored, ?_, ?_⟩
    · intro parent name item found
      rw [descriptions]
      exact intact.settled.described parent name item
        ((links (.directoryChild parent name) rfl).symm.trans found)
    · intro ino unissued
      rw [descriptions]
      exact intact.settled.unissued ino (taken ino unissued).1
  · intro other also ino staged
    rw [descriptions]
    rcases reserving other also ino staged with ⟨_, rfl⟩ | ⟨earlier, _⟩
    · exact ⟨intact.settled.unissued ino free, fun unissued => (taken ino unissued).2 rfl⟩
    · have known := intact.reserved other also ino earlier
      exact ⟨known.1, fun unissued => known.2 (taken ino unissued).1⟩
  · intro first second one two ino left right
    rcases reserving first one ino left with ⟨here, rfl⟩ | ⟨earlier, different⟩
    · rcases reserving second two _ right with ⟨there, _⟩ | ⟨_, different⟩
      · exact here.trans there.symm
      · exact absurd rfl different
    · rcases reserving second two ino right with ⟨_, same⟩ | ⟨also, _⟩
      · exact absurd same different
      · exact intact.once first second one two ino earlier also
  · intro other stage ino staged removing
    obtain ⟨issued, unreserved⟩ :=
      intact.removing other stage ino (old other stage ino staged removing) removing
    refine ⟨fun unissued => issued (taken ino unissued).1, ?_⟩
    intro third also reserved
    rcases reserving third also ino reserved with ⟨_, rfl⟩ | ⟨earlier, _⟩
    · exact issued free
    · exact unreserved third also earlier
  · intro other ino kinds staged
    rw [descriptions]
    exact intact.cleared other ino kinds (old other _ ino staged (.deleteMetadata ino kinds))

end Commits

theorem entry_of_mem_addedLinks {parent above : ParentStorageIno} {name entry : ByteString}
    {item other : StorageDirItem}
    (listed : Mutation.put (.directoryChild above entry) other ∈ addedLinks parent name item) :
    other = item := by
  rcases List.mem_pair.mp listed with same | same
  · cases (Mutation.mk.inj same).1
  · obtain ⟨keys, values⟩ := Mutation.mk.inj same
    obtain ⟨rfl, rfl⟩ := Key.directoryChild.inj keys
    exact Option.some.inj (eq_of_heq values)

theorem entry_mem_addedLinks (parent : ParentStorageIno) (name : ByteString)
    (item : StorageDirItem) :
    Mutation.put (.directoryChild parent name) item ∈ addedLinks parent name item :=
  List.mem_pair.mpr (Or.inr rfl)

theorem entry_notMem_removedLinks {parent above : ParentStorageIno} {name entry : ByteString}
    {childIno : StorageIno} {item : StorageDirItem} :
    Mutation.put (.directoryChild above entry) item ∉ removedLinks parent name childIno := by
  intro listed
  rcases List.mem_pair.mp listed with same | same
  · obtain ⟨keys, values⟩ := Mutation.mk.inj same
    obtain ⟨rfl, rfl⟩ := Key.directoryChild.inj keys
    cases eq_of_heq values
  · cases (Mutation.mk.inj same).1

theorem isLink_of_mem_addedLinks {parent : ParentStorageIno} {name : ByteString}
    {item : StorageDirItem} {write : Write} (listed : write ∈ addedLinks parent name item) :
    write.key.isLink = true := by
  rcases List.mem_pair.mp listed with rfl | rfl <;> rfl

theorem isLink_of_mem_removedLinks {parent : ParentStorageIno} {name : ByteString}
    {childIno : StorageIno} {write : Write} (listed : write ∈ removedLinks parent name childIno) :
    write.key.isLink = true := by
  rcases List.mem_pair.mp listed with rfl | rfl <;> rfl

/-- When a transaction commits, the inodes it adds entries for still have the
descriptions it has read, and an inode whose description it deletes still has no
parent link. -/
structure Undisturbed (start db : Db Key.Value) (writes : List Write) : Prop where
  adds : ∀ parent name item, Mutation.put (.directoryChild parent name) item ∈ writes →
    inoDescription db.data item.ino = inoDescription start.data item.ino
  deletes : ∀ ino, Mutation.delete (.inodeX ino .description) ∈ writes →
    ∀ parent name, ¬ hasParentLink db.data ino parent name

def undisturbedWrite (start db : Db Key.Value) : Write → Bool
  | ⟨.directoryChild _ _, some item⟩ =>
      inoDescription db.data item.ino = inoDescription start.data item.ino
  | ⟨.inodeX ino .description, none⟩ => parentLinks db.data ino = ∅
  | _ => true

theorem undisturbed_iff {start db : Db Key.Value} {writes : List Write} :
    Undisturbed start db writes ↔ ∀ write ∈ writes, undisturbedWrite start db write = true := by
  constructor
  · intro calm write listed
    unfold undisturbedWrite
    split
    · exact decide_eq_true (calm.adds _ _ _ listed)
    · refine decide_eq_true (Finset.eq_empty_of_forall_notMem ?_)
      rintro ⟨parent, name⟩ linked
      exact calm.deletes _ listed parent name ((mem_parentLinks _ _ _ _).mp linked)
    · rfl
  · intro checked
    constructor
    · intro parent name item listed
      exact of_decide_eq_true (checked _ listed)
    · intro ino listed parent name linked
      have empty : parentLinks db.data ino = ∅ := of_decide_eq_true (checked _ listed)
      have member := (mem_parentLinks db.data ino parent name).mpr linked
      rw [empty] at member
      exact absurd member (Finset.notMem_empty _)

instance (start db : Db Key.Value) (writes : List Write) : Decidable (Undisturbed start db writes) :=
  decidable_of_iff _ undisturbed_iff.symm

def Namespace.Undisturbed (state : Namespace) : Event → Prop
  | .commit client =>
      match state.procs[client]? with
      | some ⟨_, some attempt⟩ => TiFs.Undisturbed attempt.start state.db attempt.writes
      | _ => True
  | _ => True

instance (state : Namespace) : DecidablePred state.Undisturbed
  | .commit client =>
      match running : state.procs[client]? with
      | some ⟨_, some attempt⟩ =>
          decidable_of_iff (TiFs.Undisturbed attempt.start state.db attempt.writes)
            (by simp only [Namespace.Undisturbed, running])
      | some ⟨_, none⟩ => .isTrue (by simp only [Namespace.Undisturbed, running])
      | none => .isTrue (by simp only [Namespace.Undisturbed, running])
  | .spawn _ => .isTrue trivial
  | .begin _ _ => .isTrue trivial
  | .retry _ => .isTrue trivial
  | .abandon _ => .isTrue trivial
  | .fileData _ => .isTrue trivial

section CommitStep

variable {db : Db Key.Value} {stages : Nat → Option Stage} {client : Nat} {writes : List Write}

theorem Intact.commitLinks (intact : Intact db.data stages)
    (mirrored : Mirror (db.commit writes).data)
    (links : ∀ write ∈ writes, write.key.isLink = true)
    (added : ∀ parent name item, Mutation.put (.directoryChild parent name) item ∈ writes →
      ∃ desc, inoDescription db.data item.ino = some desc ∧ desc.typ = item.typ) :
    Intact (db.commit writes).data stages := by
  have outside : ∀ key : Key, key.isLink = false → key ∉ writes.map Mutation.key := by
    intro key plain listed
    obtain ⟨write, member, rfl⟩ := List.mem_map.mp listed
    rw [links write member] at plain
    cases plain
  refine intact.relink mirrored ?_ ?_ ?_
  · intro ino
    exact lookup_applyAll_of_notMem db.data writes _ (outside (.inodeX ino .description) rfl)
  · exact lookup_applyAll_of_notMem db.data writes _ (outside .metaMutable rfl)
  · intro parent name item found
    rcases lookup_applyAll_eq_some found with old | new
    · exact Or.inl old
    · exact Or.inr (added parent name item new)

theorem Intact.commitRemoved (intact : Intact db.data stages) {parent : ParentStorageIno}
    {name : ByteString} {childIno : StorageIno}
    (mirrored : Mirror (db.commit (removedLinks parent name childIno)).data) :
    Intact (db.commit (removedLinks parent name childIno)).data stages :=
  intact.commitLinks mirrored (fun _ listed => isLink_of_mem_removedLinks listed)
    (fun _ _ _ listed => absurd listed entry_notMem_removedLinks)

theorem Intact.commitAdded (intact : Intact db.data stages) {parent : ParentStorageIno}
    {name : ByteString} {ino : StorageIno} {desc : InoDescription}
    (mirrored : Mirror (db.commit (addedLinks parent name ⟨ino, desc.typ⟩)).data)
    (described : inoDescription db.data ino = some desc) :
    Intact (db.commit (addedLinks parent name ⟨ino, desc.typ⟩)).data stages := by
  refine intact.commitLinks mirrored (fun _ listed => isLink_of_mem_addedLinks listed) ?_
  intro above entry item listed
  rw [entry_of_mem_addedLinks listed]
  exact ⟨desc, described, rfl⟩

theorem Intact.commitMoved (intact : Intact db.data stages) {parent newParent : ParentStorageIno}
    {name newName : ByteString} {ino : StorageIno} {desc : InoDescription}
    (mirrored : Mirror (db.commit (addedLinks newParent newName ⟨ino, desc.typ⟩ ++
      removedLinks parent name ino)).data)
    (described : inoDescription db.data ino = some desc) :
    Intact (db.commit (addedLinks newParent newName ⟨ino, desc.typ⟩ ++
      removedLinks parent name ino)).data stages := by
  refine intact.commitLinks mirrored ?_ ?_
  · intro write listed
    rcases List.mem_append.mp listed with front | back
    · exact isLink_of_mem_addedLinks front
    · exact isLink_of_mem_removedLinks back
  · intro above entry item listed
    rcases List.mem_append.mp listed with front | back
    · rw [entry_of_mem_addedLinks front]
      exact ⟨desc, described, rfl⟩
    · exact absurd back entry_notMem_removedLinks

theorem Intact.commitDeleted (intact : Intact db.data stages) {ino : StorageIno} {kind : InoMetadata}
    (gone : kind ≠ .description → inoDescription db.data ino = none)
    (unused : ∀ parent name item, dirEntry db.data parent name = some item → item.ino ≠ ino) :
    Intact (db.commit [Mutation.delete (.inodeX ino kind)]).data stages := by
  have untouched : ∀ key : Key, key ≠ .inodeX ino kind →
      (db.commit [Mutation.delete (.inodeX ino kind)]).data.lookup key = db.data.lookup key :=
    fun key different => lookup_delete_of_ne db.data _ key different
  refine intact.undescribe ?_ (untouched _ (by simp)) (fun parent name => untouched _ (by simp))
    unused ?_ ?_
  · refine (mirror_congr ?_).mpr intact.settled.mirrored
    intro key isLink
    refine untouched key ?_
    rintro rfl
    cases isLink
  · by_cases same : kind = .description
    · subst same
      exact lookup_delete_self db.data (.inodeX ino .description)
    · rw [← gone same]
      refine untouched (.inodeX ino .description) ?_
      intro equal
      exact same (Key.inodeX.inj equal).2.symm
  · intro other different
    refine untouched (.inodeX other .description) ?_
    intro equal
    exact different (Key.inodeX.inj equal).1

theorem Intact.commitCreated (intact : Intact db.data stages) {args : NewInode}
    {newIno : StorageIno} {now : SystemTime}
    (staged : stages client = some (.addNewInode args newIno))
    (mirrored : Mirror (db.commit (createdWrites args newIno now)).data) :
    Intact (db.commit (createdWrites args newIno now)).data (Function.update stages client none) := by
  have named : ∀ key ∈ (createdWrites args newIno now).map Mutation.key,
      (∃ kind, key = .inodeX newIno kind) ∨ key.isLink = true := by
    rcases args with ⟨parent, name, typ, perm, gid, uid, rdev, _ | data⟩ <;>
      simp [createdWrites, Key.isLink]
  have untouched : ∀ key : Key, (∀ kind, key ≠ .inodeX newIno kind) → key.isLink = false →
      (db.commit (createdWrites args newIno now)).data.lookup key = db.data.lookup key := by
    intro key different plain
    refine lookup_applyAll_of_notMem db.data _ key ?_
    intro listed
    rcases named key listed with ⟨kind, same⟩ | isLink
    · exact different kind same
    · rw [plain] at isLink
      cases isLink
  have described : inoDescription (db.commit (createdWrites args newIno now)).data newIno =
      some ⟨newIno, args.typ, now⟩ := by
    rw [inoDescription, Db.commit, createdWrites, applyAll_append, lookup_applyAll_of_notMem]
    · simp
    · cases args.inlineData <;> simp
  refine intact.create staged mirrored (untouched .metaMutable (by simp) rfl) described ?_ ?_
  · intro ino different
    refine untouched (.inodeX ino .description) ?_ rfl
    intro kind same
    exact different (Key.inodeX.inj same).1
  · intro parent name item found
    rcases lookup_applyAll_eq_some found with old | new
    · exact Or.inl old
    · right
      have inLinks : Mutation.put (Key.directoryChild parent name) item ∈
          (createdWrites args newIno now).filter (fun write => write.key.isLink) :=
        List.mem_filter.mpr ⟨new, rfl⟩
      rw [filter_createdWrites] at inLinks
      exact entry_of_mem_addedLinks (List.mem_pair.mpr (List.mem_pair.mp inLinks).symm)

theorem Intact.commitReserved (intact : Intact db.data stages) {args : NewInode}
    {newIno : StorageIno} {next : MetaMutable}
    (links : ∀ key : Key, key.isNamespace = true → key ≠ .metaMutable →
      (db.commit writes).data.lookup key = db.data.lookup key)
    (counter : metaMutable (db.commit writes).data = some next) (free : Unissued db.data newIno)
    (taken : ∀ ino, next.inodeNext ≤ ino → Unissued db.data ino ∧ ino ≠ newIno) :
    Intact (db.commit writes).data
      (Function.update stages client (some (.addNewInode args newIno))) := by
  refine intact.reserve ?_ ?_ free ?_
  · intro key isLink
    refine links key (Key.isNamespace_of_isLink isLink) ?_
    rintro rfl
    cases isLink
  · intro ino
    exact links (.inodeX ino .description) rfl (by simp)
  · intro ino unissued
    rw [Unissued, counter] at unissued
    exact taken ino unissued

/-- One case for everything a transaction can do. -/
theorem intact_commit {cfg : TiFsConfig} {now : SystemTime} {stage : Stage} {start : Db Key.Value}
    {next : Option Stage} (intact : Intact db.data stages) (staged : stages client = some stage)
    (extended : start.Extends db) (may : Db.MayCommit start db writes)
    (effect : Effect cfg now start.data stage writes next) (calm : Undisturbed start db writes) :
    Intact (db.commit writes).data (Function.update stages client next) := by
  obtain ⟨edits, made⟩ := effect.edits
  have mirrored := mirror_commit intact.settled.mirrored extended may made
  have current : ∀ key ∈ writes.map Mutation.key, db.data.lookup key = start.data.lookup key :=
    fun key written => extended.read_current may written
  have unlinked : ∀ ino, Mutation.delete (.inodeX ino .description) ∈ writes →
      ∀ parent name item, dirEntry db.data parent name = some item → item.ino ≠ ino := by
    intro ino listed parent name item found same
    exact calm.deletes ino listed parent name
      ((intact.settled.mirrored parent name ino).mp ⟨item, found, same⟩)
  cases effect with
  | reservedRoot args blank =>
      have absent : metaMutable db.data = none := (current .metaMutable (by simp [initWrites])).trans blank
      have counted : metaMutable (db.commit (initWrites cfg)).data = some ⟨firstDataInode⟩ :=
        lookup_put_self _ Key.metaMutable _
      refine intact.commitReserved ?_ counted ?_ ?_
      · intro key names different
        refine lookup_applyAll_of_notMem db.data _ key ?_
        simp only [initWrites, List.map_cons, List.map_nil, Mutation.put_key, List.mem_cons,
          List.not_mem_nil, or_false, not_or]
        refine ⟨?_, different⟩
        rintro rfl
        cases names
      · rw [Unissued, absent]
        exact Or.inl rfl
      · intro ino later
        rw [Unissued, absent]
        refine ⟨Or.inr later, ?_⟩
        rintro rfl
        exact absurd later (by decide)
  | reserved args dynMeta stored =>
      have counter : metaMutable db.data = some dynMeta := (current .metaMutable (by simp)).trans stored
      have counted : metaMutable
          (db.commit [Mutation.put .metaMutable ⟨dynMeta.inodeNext + 1⟩]).data =
            some ⟨dynMeta.inodeNext + 1⟩ := lookup_put_self _ Key.metaMutable _
      refine intact.commitReserved ?_ counted ?_ ?_
      · intro key _ different
        exact lookup_put_of_ne db.data _ key _ different
      · rw [Unissued, counter]
      · intro ino later
        rw [Unissued, counter]
        exact ⟨Nat.le_of_succ_le later, (Nat.lt_of_succ_le later).ne'⟩
  | created args newIno free => exact intact.commitCreated staged mirrored
  | linked parent name ino desc free stored =>
      have described := (calm.adds parent name _ (entry_mem_addedLinks _ _ _)).trans stored
      exact (intact.commitAdded mirrored described).finish
  | removed parent name allowedTypes item found =>
      have present : dirEntry db.data parent name = some item :=
        (current _ (by simp [removedLinks])).trans found
      obtain ⟨desc, described, _⟩ := intact.settled.described parent name item present
      have kept := intact.commitRemoved mirrored
      have still : inoDescription (db.commit (removedLinks parent name item.ino)).data item.ino =
          some desc := by
        rw [← described]
        exact lookup_applyAll_of_notMem db.data _ _ (by simp [removedLinks])
      obtain ⟨issued, unreserved⟩ := kept.described_used still
      exact kept.removeNext (.checkForDelete item) issued unreserved (by simp)
  | descriptionDeleted item free =>
      obtain ⟨issued, unreserved⟩ := intact.removing client _ item.ino staged (.checkForDelete item)
      have kept := intact.commitDeleted (fun other => absurd rfl other)
        (unlinked item.ino (List.mem_singleton.mpr rfl))
      have fewer : Unissued (db.commit [Mutation.delete (.inodeX item.ino .description)]).data item.ino ↔
          Unissued db.data item.ino := by
        rw [Unissued, Unissued, metaMutable, metaMutable, Db.commit, applyAll_cons, applyAll_nil,
          lookup_delete_of_ne _ _ _ (by simp)]
      refine kept.removeNext (.deleteMetadata item.ino _) (fun free => issued (fewer.mp free))
        unreserved ?_
      intro kinds _
      exact lookup_delete_self db.data (.inodeX item.ino .description)
  | metadataDeleted ino kind rest =>
      obtain ⟨issued, unreserved⟩ :=
        intact.removing client _ ino staged (.deleteMetadata ino (kind :: rest))
      have absent := intact.cleared client ino _ staged
      have unused : ∀ parent name item, dirEntry db.data parent name = some item → item.ino ≠ ino := by
        intro parent name item found same
        obtain ⟨desc, described, _⟩ := intact.settled.described parent name item found
        rw [same, absent] at described
        cases described
      have kept : Intact (db.commit [Mutation.delete (.inodeX ino kind)]).data stages :=
        intact.commitDeleted (fun _ => absent) unused
      have fewer : Unissued (db.commit [Mutation.delete (.inodeX ino kind)]).data ino ↔
          Unissued db.data ino := by
        rw [Unissued, Unissued, metaMutable, metaMutable, Db.commit, applyAll_cons, applyAll_nil,
          lookup_delete_of_ne _ _ _ (by simp)]
      refine kept.removeNext (.deleteMetadata ino rest) (fun free => issued (fewer.mp free))
        unreserved ?_
      intro kinds _
      by_cases same : Key.inodeX ino .description = .inodeX ino kind
      · obtain ⟨_, rfl⟩ := Key.inodeX.inj same
        exact lookup_delete_self db.data (.inodeX ino .description)
      · exact (lookup_delete_of_ne db.data _ _ same).trans absent
  | directoryRemoved parent name item found => exact (intact.commitRemoved mirrored).finish
  | sourceDropped parent name newParent newName item found =>
      exact (intact.commitRemoved mirrored).finish
  | moved parent name newParent newName item desc found free stored =>
      have described := (calm.adds newParent newName _
        (List.mem_append_left _ (entry_mem_addedLinks _ _ _))).trans stored
      exact (intact.commitMoved mirrored described).finish
  | opened ino useId desc linkedDesc stored linked free =>
      have described := (calm.adds openedInodeParentInode (uuidToString useId) _
        (entry_mem_addedLinks _ _ _)).trans linked
      exact (intact.commitAdded mirrored described).finish
  | closed ino useId item found => exact (intact.commitRemoved mirrored).finish
  | nothing stage => exact intact.finish

end CommitStep

theorem stageAt_setProc {state : Namespace} {client other : Nat} {proc old : Proc}
    (present : state.procs[client]? = some old) :
    (state.setProc client proc).stageAt other =
      Function.update state.stageAt client proc.stage other := by
  obtain ⟨bound, _⟩ := List.getElem?_eq_some_iff.mp present
  by_cases same : other = client
  · subst same
    rw [Function.update_self, Namespace.stageAt, Namespace.setProc, List.getElem?_set_self bound]
    rfl
  · rw [Function.update_of_ne same, Namespace.stageAt, Namespace.setProc,
      List.getElem?_set_ne (Ne.symm same)]
    rfl

theorem Call.first_plain {call : Call} {stage : Stage} (first : call.first = some stage) :
    stage.Plain := by
  have plain : stage.isPlain = true := by
    cases call with
    | link parent name ino =>
        rw [Call.first] at first
        split at first
        · cases first
        · rw [← Option.some.inj first]
          rfl
    | rename parent name newParent newName =>
        rw [Call.first] at first
        split at first
        · rw [← Option.some.inj first]
          rfl
        · cases first
    | _ =>
        rw [← Option.some.inj first]
        rfl
  exact Stage.plain_of_isPlain plain

theorem stageAt_spawned {state : Namespace} {call : Call} {client : Nat} {stage : Stage}
    (staged : Namespace.stageAt { state with procs := state.procs ++ [⟨call.first, none⟩] } client =
      some stage) : state.stageAt client = some stage ∨ stage.Plain := by
  simp only [Namespace.stageAt, List.getElem?_append] at staged ⊢
  split at staged
  · exact Or.inl staged
  · right
    obtain ⟨proc, listed, isStage⟩ := Option.bind_eq_some_iff.mp staged
    rw [List.mem_singleton.mp (List.mem_of_getElem? listed)] at isStage
    exact Call.first_plain isStage

theorem stageAt_kept {state : Namespace} {client other : Nat} {proc old : Proc} {stage : Stage}
    (present : state.procs[client]? = some old)
    (staged : (state.setProc client proc).stageAt other = some stage) (same : proc.stage = old.stage) :
    state.stageAt other = some stage := by
  rw [stageAt_setProc present] at staged
  rcases update_eq_some staged with ⟨rfl, isStage⟩ | before
  · rw [Namespace.stageAt, present]
    exact same.symm.trans isStage
  · exact before

theorem stageAt_stopped {state : Namespace} {client other : Nat} {stage : Stage}
    (staged : (state.setProc client ⟨none, none⟩).stageAt other = some stage) :
    state.stageAt other = some stage := by
  simp only [Namespace.stageAt, Namespace.setProc, List.getElem?_set] at staged ⊢
  split at staged
  · split at staged <;> cases staged
  · exact staged

theorem stageAt_committed {state : Namespace} {client other : Nat} {old : Proc} {attempt : Attempt}
    (present : state.procs[client]? = some old) :
    (({ state with db := state.db.commit attempt.writes } : Namespace).setProc client
      ⟨attempt.next, none⟩).stageAt other = Function.update state.stageAt client attempt.next other :=
  @stageAt_setProc { state with db := state.db.commit attempt.writes } client other ⟨attempt.next, none⟩ _ present

theorem lookup_fileData {db : Db Key.Value} {writes : List Write}
    (outside : ∀ write ∈ writes, write.key.isNamespace = false) {key : Key} (names : key.isNamespace = true) :
    (db.commit writes).data.lookup key = db.data.lookup key := by
  apply lookup_applyAll_of_notMem
  intro listed
  obtain ⟨write, member, rfl⟩ := List.mem_map.mp listed
  rw [outside write member] at names
  cases names

theorem intact_step {cfg : TiFsConfig} {before after : Namespace} {event : Event}
    (sound : before.Sound cfg) (intact : Intact before.db.data before.stageAt)
    (taken : Namespace.Step cfg before event after) (calm : before.Undisturbed event) :
    Intact after.db.data after.stageAt := by
  cases move_of_step taken with
  | spawned call => exact intact.weaken fun client stage staged => stageAt_spawned staged
  | began client now stage next txn idle ran =>
      exact intact.weaken fun other current staged => Or.inl (stageAt_kept idle staged rfl)
  | stopped event client => exact intact.weaken fun other stage staged => Or.inl (stageAt_stopped staged)
  | retried client stage attempt running =>
      exact intact.weaken fun other current staged => Or.inl (stageAt_kept running staged rfl)
  | committed client stage attempt running may =>
      obtain ⟨current, now, staged, extended, effect⟩ :=
        sound _ (List.mem_of_getElem? running) attempt rfl
      have here : before.stageAt client = some current := by
        rw [Namespace.stageAt, running]
        exact staged
      simp only [Namespace.Undisturbed, running] at calm
      apply (intact_commit intact here extended may effect calm).weaken
      intro other next found
      exact Or.inl ((stageAt_committed running).symm.trans found)
  | wrote writes outside =>
      apply intact.relink (mirror_of_outside intact.settled.mirrored outside)
      · intro ino
        exact lookup_fileData outside rfl
      · exact lookup_fileData outside rfl
      · intro parent name item found
        exact Or.inl ((lookup_fileData outside rfl).symm.trans found)

/-- In a run whose commits are all undisturbed no entry ever dangles. -/
theorem entries_described (cfg : TiFsConfig) (db : Db Key.Value) (settled : Settled db.data)
    (state : Namespace)
    (run : Run (Namespace.Step cfg) Namespace.Undisturbed ⟨db, []⟩ state) :
    NoDangling state.db.data := by
  have initial : Intact db.data (Namespace.stageAt ⟨db, []⟩) := by
    constructor
    · exact settled
    all_goals
      intro client
      intros
      simp_all [Namespace.stageAt]
  have kept : state.Sound cfg ∧ Intact state.db.data state.stageAt := by
    refine Run.invariant
      (fun state => Namespace.Sound cfg state ∧ Intact state.db.data state.stageAt) ?_
      ⟨fun _ member => absurd member List.not_mem_nil, initial⟩ run
    intro before event after holds taken calm
    exact ⟨sound_step holds.1 taken, intact_step holds.1 holds.2 taken calm⟩
  exact kept.2.settled.described

theorem settled_empty : Settled ∅ where
  mirrored := mirror_empty
  described := by
    intro parent name item found
    simp [dirEntry] at found
  unissued := fun _ _ => rfl

def createRootAndFile : List Event :=
  [.spawn (.create ⟨parentOfRootInode, [], .directory, 511, 0, 0, 0, none⟩),
   .begin 0 0, .commit 0, .begin 0 0, .commit 0,
   .spawn (.create ⟨rootInode, [97], .file, 420, 0, 0, 0, none⟩),
   .begin 1 0, .commit 1, .begin 1 0, .commit 1]

def linkDuringUnlink : List Event :=
  createRootAndFile ++
  [.spawn (.link rootInode [98] 10), .begin 2 0,
   .spawn (.removeFile rootInode [97]), .begin 3 0, .commit 3, .begin 3 0,
   .commit 2, .commit 3] ++
  (List.replicate 12 [.begin 3 0, .commit 3]).flatten

/-- The link is refused nothing, and its entry refers to an inode that is gone. -/
theorem entries_dangle :
    ¬ ∀ (cfg : TiFsConfig) (state : Namespace),
      Run (Namespace.Step cfg) (fun _ _ => True) Namespace.blank state →
      (∀ proc ∈ state.procs, proc.stage = none) → NoDangling state.db.data := by
  intro claimed
  have ran : ∃ state, runAll (Namespace.step (paddingConfig 4 (by decide))) Namespace.blank
      linkDuringUnlink = some state :=
    Option.isSome_iff_exists.mp (by decide +kernel)
  obtain ⟨state, reached⟩ := ran
  have outcome : ((runAll (Namespace.step (paddingConfig 4 (by decide))) Namespace.blank
      linkDuringUnlink).map fun state => (dirEntry state.db.data rootInode [98],
        inoDescription state.db.data 10, state.procs.all fun proc => proc.stage.isNone)) =
      some (some ⟨10, .file⟩, none, true) := by
    decide +kernel
  rw [reached] at outcome
  obtain ⟨entry, gone, returned⟩ : dirEntry state.db.data rootInode [98] = some ⟨10, .file⟩ ∧
      inoDescription state.db.data 10 = none ∧ state.procs.all (fun proc => proc.stage.isNone) = true := by
    simpa using outcome
  have idle : ∀ proc ∈ state.procs, proc.stage = none := by
    intro proc member
    simpa using List.all_eq_true.mp returned proc member
  obtain ⟨desc, described, _⟩ := claimed _ state
    (Run.of_runAll (fun _ _ _ taken => ⟨taken, trivial⟩) reached) idle rootInode [98] _ entry
  rw [gone] at described
  cases described

/-- Linked, unlinked and opened one after the other. -/
theorem entries_described_serial :
    ∃ state, Run (Namespace.Step (paddingConfig 4 (by decide))) Namespace.Undisturbed
        Namespace.blank state ∧
      dirEntry state.db.data rootInode [98] = some ⟨10, .file⟩ ∧ NoDangling state.db.data := by
  have ran : ((runAll (fun state event => if state.Undisturbed event then
      Namespace.step (paddingConfig 4 (by decide)) state event else none) Namespace.blank
      (createRootAndFile ++ [.spawn (.link rootInode [98] 10), .begin 2 0, .commit 2,
        .spawn (.removeFile rootInode [97]), .begin 3 0, .commit 3, .begin 3 0, .commit 3,
        .spawn (.openFile 10 7), .begin 4 0, .commit 4])).map fun state =>
          dirEntry state.db.data rootInode [98]) = some (some ⟨10, .file⟩) := by
    decide +kernel
  obtain ⟨state, reached, entry⟩ := Option.map_eq_some_iff.mp ran
  have run : Run (Namespace.Step (paddingConfig 4 (by decide))) Namespace.Undisturbed
      Namespace.blank state := by
    refine Run.of_runAll ?_ reached
    intro before event after taken
    split at taken
    · next calm => exact ⟨taken, calm⟩
    · cases taken
  exact ⟨state, run, entry, entries_described _ _ settled_empty state run⟩

end TiFs
