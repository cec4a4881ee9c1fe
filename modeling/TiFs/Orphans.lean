import TiFs.BlockRefinement
import TiFs.Dangling
import TiFs.Operations

/-! Inodes without a parent link. The unlink of a file deletes the records of an inode
whose last link goes away; the removal of a directory and the close of a file remove
links too and delete nothing. -/

namespace TiFs

open KeyValue Tables

/-- The inode has a metadata key or the mapping of a block. -/
def HasRecords (store : Store) (ino : StorageIno) : Prop :=
  (∃ kind, store.lookup (.inodeX ino kind) ≠ none) ∨ ∃ index, mapping store ⟨ino, index⟩ ≠ none

def Linked (store : Store) (ino : StorageIno) : Prop :=
  ∃ parent name, hasParentLink store ino parent name

def NoOrphans (store : Store) : Prop := ∀ ino, HasRecords store ino → Linked store ino

def LinkedElsewhere (store : Store) (ino : StorageIno) (parent : ParentStorageIno)
    (name : ByteString) : Prop :=
  ∃ link ∈ parentLinks store ino, link ≠ (parent, name)

instance (store : Store) (ino : StorageIno) (parent : ParentStorageIno) (name : ByteString) :
    Decidable (LinkedElsewhere store ino parent name) :=
  inferInstanceAs (Decidable (∃ link ∈ parentLinks store ino, link ≠ (parent, name)))

/-- A removal that does not look after the records leaves another link, and a block
write is one of blocks with data to a file. -/
def KeepsLinked {cfg : TiFsConfig} (store : Store) : Operation cfg → Prop
  | .rmdir parent name => ∀ item ∈ dirEntry store parent name,
      LinkedElsewhere store item.ino parent name
  | .closeInode _ useId => ∀ item ∈ dirEntry store openedInodeParentInode (uuidToString useId),
      LinkedElsewhere store item.ino openedInodeParentInode (uuidToString useId)
  | .write ino plan => (∃ desc ∈ inoDescription store ino, desc.typ = .file) ∧
      ∀ group ∈ plan.groups, group.data ≠ []
  | _ => True

theorem lt_divCeil_iff {size blockSize index : Nat} (positive : 0 < blockSize) :
    index < divCeil size blockSize ↔ index * blockSize < size := by
  rw [divCeil, ← Nat.succ_le_iff, Nat.le_div_iff_mul_le positive, Nat.succ_mul]
  omega

instance {cfg : TiFsConfig} (store : Store) : (op : Operation cfg) → Decidable (KeepsLinked store op)
  | .rmdir _ _ => by unfold KeepsLinked; infer_instance
  | .closeInode _ _ => by unfold KeepsLinked; infer_instance
  | .write _ _ => by unfold KeepsLinked; infer_instance
  | .create _ => isTrue trivial
  | .link _ _ _ => isTrue trivial
  | .unlink _ _ => isTrue trivial
  | .openInode _ _ => isTrue trivial

/-- What the records of a store have in common apart from sizes and links. -/
structure Filed (store : Store) : Prop where
  settled : Settled store
  fresh : ∀ ino, Unissued store ino → ¬ HasRecords store ino
  files : ∀ addr, mapping store addr ≠ none →
    ∃ desc, inoDescription store addr.ino = some desc ∧ desc.typ = .file

/-- Every mapped block begins within its file, or within the size that a running write
is about to give it. -/
def MappedBelow (cfg : TiFsConfig) (grace : StorageIno → Nat) (store : Store) : Prop :=
  ∀ addr size, mapping store addr ≠ none → inoSize store addr.ino = some size →
    addr.index * cfg.blockSize < max size.size (grace addr.ino)

structure Tidy (cfg : TiFsConfig) (store : Store) : Prop where
  filed : Filed store
  linked : NoOrphans store
  below : MappedBelow cfg (fun _ => 0) store

section Frames

variable {cfg : TiFsConfig} {store after : Store} {ino : StorageIno} {grace later : StorageIno → Nat}

def SameRecords (store after : Store) (ino : StorageIno) : Prop :=
  (∀ kind, after.lookup (.inodeX ino kind) = store.lookup (.inodeX ino kind)) ∧
    ∀ index, mapping after ⟨ino, index⟩ = mapping store ⟨ino, index⟩

theorem SameRecords.hasRecords (same : SameRecords store after ino) :
    HasRecords after ino ↔ HasRecords store ino := by
  simp only [HasRecords, same.1, same.2]

theorem linked_congr (same : ∀ key : Key, key.isLink = true → after.lookup key = store.lookup key) :
    Linked after ino ↔ Linked store ino := by
  constructor
  · intro linked
    obtain ⟨parent, name, link⟩ := linked
    exact ⟨parent, name, (same (.parentLink ino parent name) rfl).symm.trans link⟩
  · intro linked
    obtain ⟨parent, name, link⟩ := linked
    exact ⟨parent, name, (same (.parentLink ino parent name) rfl).trans link⟩

theorem hasRecords_of_described {desc : InoDescription}
    (described : inoDescription store ino = some desc) : HasRecords store ino := by
  refine Or.inl ⟨.description, ?_⟩
  rw [show store.lookup (.inodeX ino .description) = some desc from described]
  exact Option.some_ne_none desc

theorem Filed.described_issued (filed : Filed store) {desc : InoDescription}
    (described : inoDescription store ino = some desc) : ¬ Unissued store ino :=
  fun unissued => filed.fresh ino unissued (hasRecords_of_described described)

theorem Filed.relink (filed : Filed store) (settled : Settled after)
    (records : ∀ ino, SameRecords store after ino)
    (fewer : ∀ ino, Unissued after ino → Unissued store ino) : Filed after where
  settled := settled
  fresh := by
    intro ino unissued
    rw [(records ino).hasRecords]
    exact filed.fresh ino (fewer ino unissued)
  files := by
    intro addr mapped
    rw [show mapping after addr = mapping store addr from (records addr.ino).2 addr.index] at mapped
    rw [inoDescription, (records addr.ino).1]
    exact filed.files addr mapped

theorem MappedBelow.relink (below : MappedBelow cfg grace store)
    (records : ∀ ino, SameRecords store after ino) : MappedBelow cfg grace after := by
  intro addr size mapped stored
  rw [show mapping after addr = mapping store addr from (records addr.ino).2 addr.index] at mapped
  rw [inoSize, (records addr.ino).1] at stored
  exact below addr size mapped stored

theorem Settled.intact (settled : Settled store) : Intact store (fun _ => none) := by
  constructor
  · exact settled
  · intro client args ino staged
    cases staged
  · intro client other args also ino staged
    cases staged
  · intro client stage ino staged
    cases staged
  · intro client ino kinds staged
    cases staged

theorem Filed.rewrite (filed : Filed store)
    (described : ∃ desc, inoDescription store ino = some desc ∧ desc.typ = .file)
    (same : inoDescription after ino = inoDescription store ino)
    (links : ∀ key : Key, key.isLink = true → after.lookup key = store.lookup key)
    (counter : metaMutable after = metaMutable store)
    (others : ∀ other, other ≠ ino → SameRecords store after other) : Filed after := by
  have descriptions : ∀ other, inoDescription after other = inoDescription store other := by
    intro other
    by_cases here : other = ino
    · rw [here, same]
    · exact (others other here).1 .description
  constructor
  · refine (filed.settled.intact.relink ((mirror_congr links).mpr filed.settled.mirrored)
      descriptions counter ?_).settled
    intro parent name item found
    exact Or.inl ((links (.directoryChild parent name) rfl).symm.trans found)
  · intro other unissued
    have before := (unissued_congr counter other).mp unissued
    by_cases here : other = ino
    · obtain ⟨desc, isDesc, _⟩ := described
      rw [here] at before
      exact absurd before (filed.described_issued isDesc)
    · rw [(others other here).hasRecords]
      exact filed.fresh other before
  · intro addr mapped
    rw [descriptions]
    by_cases here : addr.ino = ino
    · rw [here]
      exact described
    · rw [show mapping after addr = mapping store addr from (others addr.ino here).2 addr.index] at mapped
      exact filed.files addr mapped

theorem NoOrphans.rewrite (linked : NoOrphans store) (has : HasRecords store ino)
    (links : ∀ key : Key, key.isLink = true → after.lookup key = store.lookup key)
    (others : ∀ other, other ≠ ino → SameRecords store after other) : NoOrphans after := by
  intro other recorded
  rw [linked_congr links]
  by_cases here : other = ino
  · rw [here]
    exact linked ino has
  · exact linked other ((others other here).hasRecords.mp recorded)

theorem MappedBelow.rewrite (below : MappedBelow cfg grace store)
    (others : ∀ other, other ≠ ino → SameRecords store after other)
    (unchanged : ∀ other, other ≠ ino → grace other ≤ later other)
    (here : ∀ index size, mapping after ⟨ino, index⟩ ≠ none → inoSize after ino = some size →
      index * cfg.blockSize < max size.size (later ino)) : MappedBelow cfg later after := by
  intro addr size mapped stored
  by_cases same : addr.ino = ino
  · rw [same] at stored ⊢
    apply here addr.index size _ stored
    rw [← same]
    exact mapped
  · rw [show mapping after addr = mapping store addr from (others addr.ino same).2 addr.index] at mapped
    rw [inoSize, (others addr.ino same).1] at stored
    exact lt_of_lt_of_le (below addr size mapped stored)
      (max_le_max le_rfl (unchanged addr.ino same))

end Frames

section Write

variable {cfg : TiFsConfig} {store after : Store} {task : WriteTask cfg} {phase : WritePhase}

def WritePhase.awaitsSize : WritePhase → Bool
  | .clearFullHash _ => true
  | .changeIterationId _ => true
  | .sizePeek _ => true
  | .sizeUpdate _ => true
  | _ => false

def WriteTask.grace (task : WriteTask cfg) (ino : StorageIno) : Nat :=
  if ino = task.ino ∧ task.phase.awaitsSize = true then task.plan.maxFileSize else 0

structure WriteTask.Tidy (task : WriteTask cfg) (store : Store) : Prop where
  filed : Filed store
  linked : NoOrphans store
  described : ∃ desc, inoDescription store task.ino = some desc ∧ desc.typ = .file
  below : MappedBelow cfg task.grace store
  dense : ∀ group ∈ task.plan.groups, group.data ≠ []

theorem WritePlan.address_below (plan : WritePlan cfg) (dense : ∀ group ∈ plan.groups, group.data ≠ [])
    {ino : StorageIno} {addr : BlockAddress} (listed : addr ∈ (plan.addressesToModify ino).map Prod.fst) :
    addr.index * cfg.blockSize < plan.maxFileSize := by
  rw [plan.addresses_fst] at listed
  obtain ⟨id, isId, rfl⟩ := List.mem_map.mp listed
  obtain ⟨group, member, inGroup⟩ := List.mem_flatMap.mp isId
  have nonempty : 0 < group.data.length := List.length_pos_of_ne_nil (dense group member)
  have counted := (plan.maxFileSize_le plan.maxFileSize).mp le_rfl group member id inGroup
  exact Nat.lt_of_lt_of_le (Nat.lt_add_of_pos_right nonempty) counted

theorem WriteTask.Tidy.rewrite (tidy : task.Tidy store)
    (frame : ∀ key : Key, key.isShared = false → (∀ kind, key ≠ .inodeX task.ino kind) →
      (∀ index, key ≠ .blockHash ⟨task.ino, index⟩) → after.lookup key = store.lookup key)
    (same : inoDescription after task.ino = inoDescription store task.ino)
    (here : ∀ index size, mapping after ⟨task.ino, index⟩ ≠ none → inoSize after task.ino = some size →
      index * cfg.blockSize < max size.size
        (WriteTask.grace { task with phase := phase } task.ino)) :
    WriteTask.Tidy { task with phase := phase } after := by
  have links : ∀ key : Key, key.isLink = true → after.lookup key = store.lookup key := by
    intro key isLink
    cases key with
    | directoryChild parent name => exact frame _ rfl (by simp) (by simp)
    | parentLink ino parent name => exact frame _ rfl (by simp) (by simp)
    | _ => cases isLink
  have counter : metaMutable after = metaMutable store := frame _ rfl (by simp) (by simp)
  have others : ∀ other, other ≠ task.ino → SameRecords store after other := by
    intro other different
    constructor
    · intro kind
      exact frame _ rfl (fun _ same => different (Key.inodeX.inj same).1) (by simp)
    · intro index
      exact frame _ rfl (by simp) fun _ same =>
        different (BlockAddress.mk.inj (Key.blockHash.inj same)).1
  obtain ⟨desc, isDesc, isFile⟩ := tidy.described
  constructor
  · exact tidy.filed.rewrite tidy.described same links counter others
  · exact tidy.linked.rewrite (hasRecords_of_described isDesc) links others
  · exact ⟨desc, same.trans isDesc, isFile⟩
  · refine tidy.below.rewrite others ?_ here
    intro other different
    simp [WriteTask.grace, different]
  · exact tidy.dense

theorem WriteTask.Tidy.quiet (tidy : task.Tidy store)
    (frame : ∀ key : Key, key.isShared = false → key ≠ .inodeX task.ino .fullHash →
      key ≠ .inodeX task.ino .changeIterationId → after.lookup key = store.lookup key)
    (grown : ∀ size, inoSize store task.ino = some size → task.grace task.ino ≤
      max size.size (WriteTask.grace { task with phase := phase } task.ino)) :
    WriteTask.Tidy { task with phase := phase } after := by
  apply tidy.rewrite
  · intro key own noRecord _
    exact frame key own (noRecord _) (noRecord _)
  · exact frame _ rfl (by simp) (by simp)
  · intro index size mapped stored
    rw [mapping, frame _ rfl (by simp) (by simp)] at mapped
    rw [inoSize, frame _ rfl (by simp) (by simp)] at stored
    exact lt_of_lt_of_le (tidy.below ⟨task.ino, index⟩ size mapped stored)
      (max_le (le_max_left _ _) (grown size stored))

theorem WriteTask.grace_waiting (waits : task.phase.awaitsSize = true) :
    task.grace task.ino = task.plan.maxFileSize := by
  simp [WriteTask.grace, waits]

theorem WriteTask.grace_resting (rests : task.phase.awaitsSize = false) (ino : StorageIno) :
    task.grace ino = 0 := by
  simp [WriteTask.grace, rests]

theorem WriteTask.Tidy.move (tidy : task.Tidy store) (move : WriteMove task store phase after) :
    WriteTask.Tidy { task with phase := phase } after := by
  cases move with
  | incremented prev after current counted =>
      apply tidy.quiet
      · exact fun key own _ _ => counted.frame key (Key.ne_counter own)
      · intro size stored
        rw [WriteTask.grace_resting (by rw [current]; rfl)]
        exact Nat.zero_le _
  | uploaded blocks after current stored =>
      apply tidy.quiet
      · exact fun key own _ _ => stored.frame key (Key.ne_hashedBlock own)
      · intro size _
        rw [WriteTask.grace_resting (by rw [current]; rfl)]
        exact Nat.zero_le _
  | replaced decrements after current placed lengths =>
      apply tidy.rewrite
      · intro key _ _ noMapping
        by_cases isMapping : ∃ addr, key = .blockHash addr
        · obtain ⟨addr, rfl⟩ := isMapping
          apply placed.kept
          intro listed
          rw [task.plan.addresses_fst] at listed
          obtain ⟨id, _, same⟩ := List.mem_map.mp listed
          exact noMapping id (congrArg Key.blockHash same.symm)
        · push Not at isMapping
          exact placed.frame key isMapping
      · exact placed.frame _ (by simp)
      · intro index size mapped stored
        rw [WriteTask.grace_waiting rfl]
        rw [inoSize, placed.frame _ (by simp)] at stored
        by_cases planned : BlockAddress.mk task.ino index ∈
            (task.plan.addressesToModify task.ino).map Prod.fst
        · exact lt_of_lt_of_le (task.plan.address_below tidy.dense planned) (le_max_right _ _)
        · rw [placed.kept _ planned] at mapped
          have inside := tidy.below ⟨task.ino, index⟩ size mapped stored
          rw [WriteTask.grace_resting (by rw [current]; rfl), Nat.max_zero] at inside
          exact lt_of_lt_of_le inside (le_max_left _ _)
  | fullHashCleared decrements current =>
      apply tidy.quiet
      · exact fun key _ noHash _ => lookup_delete_of_ne store _ _ noHash
      · intro size _
        rw [WriteTask.grace_waiting (by rw [current]; rfl), WriteTask.grace_waiting rfl]
        exact le_max_right _ _
  | iterationChanged decrements uuid current =>
      apply tidy.quiet
      · exact fun key _ _ noId => lookup_put_of_ne store _ _ _ noId
      · intro size _
        rw [WriteTask.grace_waiting (by rw [current]; rfl), WriteTask.grace_waiting rfl]
        exact le_max_right _ _
  | sizeTooSmall decrements size current stored small =>
      apply tidy.quiet
      · exact fun _ _ _ _ => rfl
      · intro size _
        rw [WriteTask.grace_waiting (by rw [current]; rfl), WriteTask.grace_waiting rfl]
        exact le_max_right _ _
  | sizeEnough decrements size current stored enough =>
      apply tidy.quiet
      · exact fun _ _ _ _ => rfl
      · intro other found
        rw [stored] at found
        obtain rfl := Option.some.inj found
        rw [WriteTask.grace_waiting (by rw [current]; rfl)]
        exact le_trans enough (le_max_left _ _)
  | sizeUpdated decrements size grown current stored small isMax =>
      apply tidy.rewrite
      · exact fun key _ noRecord _ => lookup_put_of_ne store _ _ _ (noRecord _)
      · exact lookup_put_of_ne store _ _ _ (by simp)
      · intro index other mapped found
        have isGrown : other = grown := by
          rw [inoSize, applyAll_cons, applyAll_nil, lookup_put_self] at found
          exact (Option.some.inj found).symm
        have before : mapping store ⟨task.ino, index⟩ ≠ none := by
          rw [mapping, applyAll_cons, applyAll_nil, lookup_put_of_ne _ _ _ _ (by simp)] at mapped
          exact mapped
        have inside := tidy.below ⟨task.ino, index⟩ size before stored
        rw [WriteTask.grace_waiting (by rw [current]; rfl), max_eq_right small.le, ← isMax] at inside
        rw [isGrown]
        exact lt_of_lt_of_le inside (le_max_left _ _)
  | sizeKept decrements size current stored enough =>
      apply tidy.quiet
      · exact fun _ _ _ _ => rfl
      · intro other found
        rw [stored] at found
        obtain rfl := Option.some.inj found
        rw [WriteTask.grace_waiting (by rw [current]; rfl)]
        exact le_trans enough (le_max_left _ _)
  | decremented decrements after current counted =>
      apply tidy.quiet
      · exact fun key own _ _ => counted.frame key (Key.ne_counter own) (Key.ne_hashedBlock own)
      · intro size _
        rw [WriteTask.grace_resting (by rw [current]; rfl)]
        exact Nat.zero_le _
  | finished current =>
      apply tidy.quiet
      · exact fun _ _ _ _ => rfl
      · intro size _
        rw [WriteTask.grace_resting (by rw [current]; rfl)]
        exact Nat.zero_le _

theorem Tidy.write {ambient : Ambient} {ino : StorageIno} {plan : WritePlan cfg}
    (tidy : TiFs.Tidy cfg store) (keeps : KeepsLinked store (.write ino plan))
    (ran : (Operation.write ino plan).run ambient store = .ok after) : TiFs.Tidy cfg after := by
  obtain ⟨⟨last, _⟩, completed, rfl⟩ := except_map_eq_ok ran
  obtain ⟨⟨desc, isDesc, isFile⟩, dense⟩ := keeps
  have resting : ∀ task : WriteTask cfg, task.phase.awaitsSize = false → task.grace = fun _ => 0 :=
    fun task rests => funext fun ino => WriteTask.grace_resting rests ino
  have initial : WriteTask.Tidy ⟨ino, plan, .increment⟩ store := by
    refine ⟨tidy.filed, tidy.linked, ⟨desc, isDesc, isFile⟩, ?_, dense⟩
    rw [resting _ rfl]
    exact tidy.below
  obtain ⟨done, _, _, held⟩ := WriteTask.complete_induction WriteTask.Tidy
    (fun _ _ _ _ tidy move => tidy.move move) (WriteTask.sound_first ino plan) le_rfl initial completed
  refine ⟨held.filed, held.linked, ?_⟩
  have below := held.below
  rw [resting last (by rw [done]; rfl)] at below
  exact below

end Write

section Links

variable {cfg : TiFsConfig} {store after : Store} {parent : ParentStorageIno} {name : ByteString}
  {ino : StorageIno} {item : StorageDirItem} {desc : InoDescription}

theorem links_frame {writes : List Write} (links : ∀ write ∈ writes, write.key.isLink = true)
    {key : Key} (plain : key.isLink = false) : (applyAll store writes).lookup key = store.lookup key := by
  apply lookup_applyAll_of_notMem
  intro listed
  obtain ⟨write, member, rfl⟩ := List.mem_map.mp listed
  rw [links write member] at plain
  cases plain

theorem links_records {writes : List Write} (links : ∀ write ∈ writes, write.key.isLink = true)
    (ino : StorageIno) : SameRecords store (applyAll store writes) ino :=
  ⟨fun _ => links_frame links rfl, fun _ => links_frame links rfl⟩

theorem Tidy.added (tidy : Tidy cfg store) (free : dirEntry store parent name = none)
    (described : inoDescription store ino = some desc) :
    Tidy cfg (applyAll store (addedLinks parent name ⟨ino, desc.typ⟩)) := by
  have links : ∀ write ∈ addedLinks parent name ⟨ino, desc.typ⟩, write.key.isLink = true :=
    fun _ listed => isLink_of_mem_addedLinks listed
  have mirrored : Mirror (applyAll store (EntryEdit.add parent name ⟨ino, desc.typ⟩).writes) :=
    mirror_edit tidy.filed.settled.mirrored free
  have calm : Intact (Db.mk store fun _ => 0).data (fun _ => none) := tidy.filed.settled.intact
  have settled : Settled (applyAll store (addedLinks parent name ⟨ino, desc.typ⟩)) :=
    (calm.commitAdded mirrored described).settled
  constructor
  · exact tidy.filed.relink settled (links_records links) fun other => (unissued_congr (links_frame links rfl) other).mp
  · intro other recorded
    obtain ⟨above, entry, link⟩ := tidy.linked other ((links_records links other).hasRecords.mp recorded)
    exact ⟨above, entry, (hasParentLink_addedLinks _ _ _ _ _ _ _).mpr (Or.inr link)⟩
  · exact tidy.below.relink (links_records links)

theorem Tidy.dropped (tidy : Tidy cfg store) (found : dirEntry store parent name = some item) :
    Filed (applyAll store (removedLinks parent name item.ino)) ∧
      MappedBelow cfg (fun _ => 0) (applyAll store (removedLinks parent name item.ino)) ∧
      ∀ other, other ≠ item.ino → HasRecords (applyAll store (removedLinks parent name item.ino)) other →
        Linked (applyAll store (removedLinks parent name item.ino)) other := by
  have links : ∀ write ∈ removedLinks parent name item.ino, write.key.isLink = true :=
    fun _ listed => isLink_of_mem_removedLinks listed
  have mirrored : Mirror (applyAll store (EntryEdit.remove parent name item).writes) :=
    mirror_edit tidy.filed.settled.mirrored found
  have calm : Intact (Db.mk store fun _ => 0).data (fun _ => none) := tidy.filed.settled.intact
  have settled : Settled (applyAll store (removedLinks parent name item.ino)) :=
    (calm.commitRemoved mirrored).settled
  refine ⟨?_, tidy.below.relink (links_records links), ?_⟩
  · exact tidy.filed.relink settled (links_records links) fun other =>
      (unissued_congr (links_frame links rfl) other).mp
  · intro other different recorded
    obtain ⟨above, entry, link⟩ := tidy.linked other ((links_records links other).hasRecords.mp recorded)
    refine ⟨above, entry, (hasParentLink_removedLinks _ _ _ _ _ _ _).mpr ⟨?_, link⟩⟩
    exact fun gone => different gone.1

theorem Tidy.removed (tidy : Tidy cfg store) (found : dirEntry store parent name = some item)
    (elsewhere : LinkedElsewhere store item.ino parent name) :
    Tidy cfg (applyAll store (removedLinks parent name item.ino)) := by
  obtain ⟨filed, below, others⟩ := tidy.dropped found
  refine ⟨filed, ?_, below⟩
  intro other recorded
  by_cases same : other = item.ino
  · obtain ⟨⟨above, entry⟩, listed, different⟩ := elsewhere
    refine ⟨above, entry, (hasParentLink_removedLinks _ _ _ _ _ _ _).mpr ⟨?_, ?_⟩⟩
    · exact fun gone => different gone.2
    · rw [same]
      exact (mem_parentLinks _ _ _ _).mp listed
  · exact others other same recorded

/-- An inode without links may lose all of its records. -/
theorem Tidy.forget (filed : Filed store) (below : MappedBelow cfg (fun _ => 0) store)
    (linked : ∀ other, other ≠ ino → HasRecords store other → Linked store other)
    (unlinked : ¬ Linked store ino)
    (links : ∀ key : Key, key.isLink = true → after.lookup key = store.lookup key)
    (counter : metaMutable after = metaMutable store)
    (others : ∀ other, other ≠ ino → SameRecords store after other)
    (gone : ¬ HasRecords after ino) : Tidy cfg after := by
  have cleared : inoDescription after ino = none := by
    by_contra present
    exact gone (Or.inl ⟨.description, present⟩)
  have unused : ∀ parent name item, dirEntry store parent name = some item → item.ino ≠ ino := by
    intro parent name item found same
    exact unlinked ⟨parent, name, (filed.settled.mirrored parent name ino).mp ⟨item, found, same⟩⟩
  have settled : Settled after :=
    (filed.settled.intact.undescribe ((mirror_congr links).mpr filed.settled.mirrored) counter
      (fun parent name => links (.directoryChild parent name) rfl) unused cleared
      (fun other different => (others other different).1 .description)).settled
  have elsewhere : ∀ addr, mapping after addr ≠ none → addr.ino ≠ ino := by
    intro addr mapped same
    apply gone
    rw [← same]
    exact Or.inr ⟨addr.index, mapped⟩
  constructor
  · refine ⟨settled, ?_, ?_⟩
    · intro other unissued
      by_cases same : other = ino
      · rw [same]
        exact gone
      · rw [(others other same).hasRecords]
        exact filed.fresh other ((unissued_congr counter other).mp unissued)
    · intro addr mapped
      have different := elsewhere addr mapped
      rw [inoDescription, (others addr.ino different).1]
      apply filed.files addr
      rw [← show mapping after addr = mapping store addr from (others addr.ino different).2 addr.index]
      exact mapped
  · intro other recorded
    by_cases same : other = ino
    · rw [same] at recorded
      exact absurd recorded gone
    · rw [linked_congr links]
      exact linked other same ((others other same).hasRecords.mp recorded)
  · intro addr size mapped stored
    have different := elsewhere addr mapped
    rw [show mapping after addr = mapping store addr from (others addr.ino different).2 addr.index] at mapped
    rw [inoSize, (others addr.ino different).1] at stored
    exact below addr size mapped stored

end Links

section Create

variable {cfg : TiFsConfig} {store : Store} {args : NewInode} {newIno : StorageIno} {now : SystemTime}

theorem createdWrites_keys {key : Key}
    (listed : key ∈ (createdWrites args newIno now).map Mutation.key) :
    (∃ kind, key = .inodeX newIno kind) ∨ key = .directoryChild args.parent args.name ∨
      key = .parentLink newIno args.parent args.name := by
  rcases args with ⟨parent, name, typ, perm, gid, uid, rdev, _ | data⟩
  · simp only [createdWrites, List.append_nil, List.map_cons, List.map_nil, Mutation.put_key,
      List.mem_cons, List.not_mem_nil, or_false] at listed
    rcases listed with rfl | rfl | rfl | rfl | rfl
    · exact Or.inl ⟨_, rfl⟩
    · exact Or.inl ⟨_, rfl⟩
    · exact Or.inl ⟨_, rfl⟩
    · exact Or.inr (Or.inl rfl)
    · exact Or.inr (Or.inr rfl)
  · simp only [createdWrites, List.cons_append, List.nil_append, List.map_cons, List.map_nil,
      Mutation.put_key, List.mem_cons, List.not_mem_nil, or_false] at listed
    rcases listed with rfl | rfl | rfl | rfl | rfl | rfl
    · exact Or.inl ⟨_, rfl⟩
    · exact Or.inl ⟨_, rfl⟩
    · exact Or.inl ⟨_, rfl⟩
    · exact Or.inr (Or.inl rfl)
    · exact Or.inr (Or.inr rfl)
    · exact Or.inl ⟨_, rfl⟩

structure ReservedFrom (store middle : Store) (newIno : StorageIno) : Prop where
  frame : ∀ key : Key, key ≠ .metaStatic → key ≠ .metaMutable → middle.lookup key = store.lookup key
  free : Unissued store newIno
  taken : ∀ ino, Unissued middle ino → Unissued store ino ∧ ino ≠ newIno

theorem reserve_ok {middle : Store}
    (ran : atomically (metaMutableReserveNewIno cfg) store = .ok (newIno, middle)) :
    ReservedFrom store middle newIno := by
  have frame : ∀ key : Key, key ≠ .metaStatic → key ≠ .metaMutable →
      middle.lookup key = store.lookup key :=
    fun key notStatic notMutable => InitSystem.reserve_other ran notStatic notMutable
  cases stored : metaMutable store with
  | none =>
      have reserved : metaMutableReserveNewIno cfg ⟨store, []⟩ = .ok (rootInode, _) :=
        reserve_blank cfg stored
      rw [atomically_eq_ok reserved] at ran
      obtain ⟨rfl, rfl⟩ := Prod.mk.inj (Except.ok.inj ran)
      have counter : metaMutable (applyAll store (initWrites cfg)) = some ⟨firstDataInode⟩ :=
        lookup_put_self _ Key.metaMutable _
      refine ⟨frame, ?_, ?_⟩
      · rw [Unissued, stored]
        exact Or.inl rfl
      · intro ino unissued
        have later : firstDataInode ≤ ino := by
          rw [Unissued, Txn.view_mutate, Txn.view_start, counter] at unissued
          exact unissued
        rw [Unissued, stored]
        refine ⟨Or.inr later, ?_⟩
        intro same
        rw [same] at later
        exact absurd later (by decide)
  | some dynMeta =>
      have reserved : metaMutableReserveNewIno cfg ⟨store, []⟩ = .ok (dynMeta.inodeNext, _) :=
        reserve_next cfg stored
      rw [atomically_eq_ok reserved] at ran
      obtain ⟨rfl, rfl⟩ := Prod.mk.inj (Except.ok.inj ran)
      have counter : metaMutable (applyAll store
          [Mutation.put .metaMutable (⟨dynMeta.inodeNext + 1⟩ : MetaMutable)]) =
          some ⟨dynMeta.inodeNext + 1⟩ := lookup_put_self _ Key.metaMutable _
      refine ⟨frame, ?_, ?_⟩
      · rw [Unissued, stored]
      · intro ino unissued
        have later : dynMeta.inodeNext + 1 ≤ ino := by
          rw [Unissued, Txn.view_mutate, Txn.view_start, counter] at unissued
          exact unissued
        rw [Unissued, stored]
        exact ⟨Nat.le_of_succ_le later, (Nat.lt_of_succ_le later).ne'⟩

theorem ReservedFrom.records {middle : Store} (reserved : ReservedFrom store middle newIno)
    (ino : StorageIno) : SameRecords store middle ino :=
  ⟨fun _ => reserved.frame _ (by simp) (by simp), fun _ => reserved.frame _ (by simp) (by simp)⟩

theorem ReservedFrom.links {middle : Store} (reserved : ReservedFrom store middle newIno) (key : Key)
    (isLink : key.isLink = true) : middle.lookup key = store.lookup key := by
  apply reserved.frame
  · rintro rfl
    cases isLink
  · rintro rfl
    cases isLink

theorem Tidy.reserved {middle : Store} (tidy : Tidy cfg store)
    (reserved : ReservedFrom store middle newIno) : Tidy cfg middle := by
  have records := reserved.records
  have settled : Settled middle := by
    refine ⟨(mirror_congr reserved.links).mpr tidy.filed.settled.mirrored, ?_, ?_⟩
    · intro parent name item found
      rw [inoDescription, (records item.ino).1]
      exact tidy.filed.settled.described parent name item
        ((reserved.links (.directoryChild parent name) rfl).symm.trans found)
    · intro ino unissued
      rw [inoDescription, (records ino).1]
      exact tidy.filed.settled.unissued ino (reserved.taken ino unissued).1
  constructor
  · exact tidy.filed.relink settled records fun ino unissued => (reserved.taken ino unissued).1
  · intro ino recorded
    rw [linked_congr reserved.links]
    exact tidy.linked ino ((records ino).hasRecords.mp recorded)
  · exact tidy.below.relink records

theorem Tidy.created {middle : Store} (tidy : Tidy cfg store)
    (reserved : ReservedFrom store middle newIno)
    (free : dirEntry middle args.parent args.name = none) :
    Tidy cfg (applyAll middle (createdWrites args newIno now)) := by
  have between := tidy.reserved reserved
  have frame : ∀ key : Key, (∀ kind, key ≠ .inodeX newIno kind) →
      key ≠ .directoryChild args.parent args.name → key ≠ .parentLink newIno args.parent args.name →
      (applyAll middle (createdWrites args newIno now)).lookup key = middle.lookup key := by
    intro key noRecord noEntry noLink
    apply lookup_applyAll_of_notMem
    intro listed
    rcases createdWrites_keys listed with ⟨kind, same⟩ | same | same
    · exact noRecord kind same
    · exact noEntry same
    · exact noLink same
  have records : ∀ other, other ≠ newIno →
      SameRecords middle (applyAll middle (createdWrites args newIno now)) other := by
    intro other different
    constructor
    · intro kind
      exact frame _ (fun _ same => different (Key.inodeX.inj same).1) (by simp) (by simp)
    · intro index
      exact frame _ (by simp) (by simp) (by simp)
  have mappings : ∀ addr, mapping (applyAll middle (createdWrites args newIno now)) addr =
      mapping middle addr := fun addr => frame _ (by simp) (by simp) (by simp)
  have counter : metaMutable (applyAll middle (createdWrites args newIno now)) = metaMutable middle :=
    frame _ (by simp) (by simp) (by simp)
  have bare : ¬ HasRecords middle newIno := by
    rw [(reserved.records newIno).hasRecords]
    exact tidy.filed.fresh newIno reserved.free
  have settled : Settled (applyAll middle (createdWrites args newIno now)) := by
    have effect : Effect cfg now middle (.addNewInode args newIno) (createdWrites args newIno now) none :=
      .created args newIno free
    obtain ⟨edits, made⟩ := effect.edits
    have staged : Intact (Db.mk middle fun _ => 0).data
        (Function.update (fun _ => none) 0 (some (.addNewInode args newIno))) :=
      tidy.filed.settled.intact.reserve reserved.links
        (fun ino => (reserved.records ino).1 .description) reserved.free reserved.taken
    exact (staged.commitCreated (Function.update_self _ _ _) (mirror_commit between.filed.settled.mirrored
      (Db.extends_self (Db.mk middle fun _ => 0)) (fun _ _ => rfl) made)).settled
  have unmapped : ∀ addr, mapping (applyAll middle (createdWrites args newIno now)) addr ≠ none →
      addr.ino ≠ newIno ∧ mapping middle addr ≠ none := by
    intro addr mapped
    rw [mappings] at mapped
    refine ⟨?_, mapped⟩
    intro same
    apply bare
    rw [← same]
    exact Or.inr ⟨addr.index, mapped⟩
  constructor
  · refine ⟨settled, ?_, ?_⟩
    · intro other unissued
      have before := (unissued_congr counter other).mp unissued
      rw [(records other (reserved.taken other before).2).hasRecords]
      exact between.filed.fresh other before
    · intro addr mapped
      obtain ⟨different, before⟩ := unmapped addr mapped
      rw [inoDescription, (records addr.ino different).1]
      exact between.filed.files addr before
  · intro other recorded
    by_cases same : other = newIno
    · refine ⟨args.parent, args.name, ?_⟩
      rw [same]
      apply lookup_applyAll_put
      · rcases args with ⟨parent, name, typ, perm, gid, uid, rdev, _ | data⟩ <;> simp [createdWrites]
      · simp [createdWrites]
    · obtain ⟨parent, name, link⟩ := between.linked other ((records other same).hasRecords.mp recorded)
      refine ⟨parent, name, ?_⟩
      rw [hasParentLink, frame _ (by simp) (by simp)
        (fun equal => same (Key.parentLink.inj equal).1)]
      exact link
  · intro addr size mapped stored
    obtain ⟨different, before⟩ := unmapped addr mapped
    rw [inoSize, (records addr.ino different).1] at stored
    exact between.below addr size before stored

end Create

namespace Operation

variable {cfg : TiFsConfig} {store after : Store} {ambient : Ambient}

def Step (cfg : TiFsConfig) (before : Store) (event : Operation cfg × Ambient) (after : Store) : Prop :=
  event.1.run event.2 before = .ok after

theorem tidy_create {args : NewInode} (tidy : Tidy cfg store)
    (ran : addChildCheckedNewInode cfg ambient args store = .ok after) : Tidy cfg after := by
  obtain ⟨⟨newIno, middle⟩, first, rest⟩ := except_bind_eq_ok ran
  obtain ⟨⟨_, last⟩, second, isAfter⟩ := except_bind_eq_ok rest
  obtain rfl := Except.ok.inj isAfter
  have reserved := reserve_ok first
  cases found : dirEntry (Txn.mk middle []).view args.parent args.name with
  | none =>
      rw [atomically_eq_ok (addNew_created found)] at second
      obtain ⟨_, rfl⟩ := Prod.mk.inj (Except.ok.inj second)
      rw [Txn.view_mutate, Txn.view_start]
      exact tidy.created reserved found
  | some existing =>
      rw [atomically_eq_ok (addNew_existed found)] at second
      obtain ⟨_, rfl⟩ := Prod.mk.inj (Except.ok.inj second)
      exact tidy.reserved reserved

theorem tidy_link {parent : ParentStorageIno} {name : ByteString} {ino : StorageIno}
    (tidy : Tidy cfg store) (ran : addChildCheckedExistingInode parent name ino store = .ok after) :
    Tidy cfg after := by
  unfold addChildCheckedExistingInode at ran
  split at ran
  · obtain rfl := Except.ok.inj ran
    exact tidy
  · obtain ⟨⟨result, last⟩, first, rest⟩ := except_bind_eq_ok ran
    cases found : dirEntry (Txn.mk store []).view parent name with
    | some existing =>
        rw [atomically_eq_ok (addExisting_existed found)] at first
        obtain ⟨rfl, rfl⟩ := Prod.mk.inj (Except.ok.inj first)
        cases rest
    | none =>
        cases stored : inoDescription (Txn.mk store []).view ino with
        | none =>
            rw [atomically, addExisting_missing found stored] at first
            cases first
        | some desc =>
            rw [atomically_eq_ok (addExisting_created found stored)] at first
            obtain ⟨rfl, rfl⟩ := Prod.mk.inj (Except.ok.inj first)
            obtain rfl := Except.ok.inj rest
            rw [Txn.view_mutate, Txn.view_start]
            exact tidy.added found stored

theorem ran_of_atomically {A : Type} {body : Mini A} {result : A}
    (ran : atomically body store = .ok (result, after)) :
    ∃ txn, body ⟨store, []⟩ = .ok (result, txn) ∧ after = txn.view := by
  unfold atomically at ran
  split at ran
  · next value txn first =>
      obtain ⟨rfl, rfl⟩ := Prod.mk.inj (Except.ok.inj ran)
      exact ⟨txn, first, rfl⟩
  · cases ran

/-- The clear takes every mapping of a file, as the mappings begin within its size. -/
theorem clearData_unmapped {ino : StorageIno} (below : MappedBelow cfg (fun _ => 0) store)
    {cleared : Store} (ran : hbClearDataNoSyncNoSizeUpdate cfg ambient ino store = .ok cleared) :
    (∀ key : Key, key.isShared = false → (∀ index, key ≠ .blockHash ⟨ino, index⟩) →
        cleared.lookup key = store.lookup key) ∧
      ∀ index, mapping cleared ⟨ino, index⟩ = none := by
  obtain ⟨size, stored, clear⟩ := clearData_ok ran
  constructor
  · intro key own noMapping
    apply clear.frame key own
    intro addr listed
    obtain ⟨index, _, rfl⟩ := List.mem_map.mp listed
    exact noMapping index
  · intro index
    by_cases inside : index < divCeil size.size cfg.blockSize
    · exact clear.gone _ (List.mem_map.mpr ⟨index, List.mem_range.mpr inside, rfl⟩)
    · have kept : mapping cleared ⟨ino, index⟩ = mapping store ⟨ino, index⟩ := by
        rw [mapping, clear.frame _ rfl]
        · rfl
        · intro addr listed same
          obtain ⟨other, isOther, rfl⟩ := List.mem_map.mp listed
          obtain ⟨_, rfl⟩ := BlockAddress.mk.inj (Key.blockHash.inj same)
          exact inside (List.mem_range.mp isOther)
      rw [kept]
      by_contra mapped
      have within := below ⟨ino, index⟩ size mapped stored
      rw [Nat.max_zero] at within
      exact inside ((lt_divCeil_iff cfg.blockSize_pos).mpr within)

theorem clearRemaining_unmapped {item : StorageDirItem} (below : MappedBelow cfg (fun _ => 0) store)
    (files : item.typ ≠ .file → ∀ index, mapping store ⟨item.ino, index⟩ = none)
    {cleared : Store} (ran : clearRemainingInodeData cfg ambient item store = .ok cleared) :
    (∀ key : Key, key.isShared = false → (∀ index, key ≠ .blockHash ⟨item.ino, index⟩) →
        cleared.lookup key = store.lookup key) ∧
      ∀ index, mapping cleared ⟨item.ino, index⟩ = none := by
  rw [clearRemainingInodeData] at ran
  cases typ : item.typ with
  | file =>
      rw [typ] at ran
      exact clearData_unmapped below ran
  | directory =>
      rw [typ] at ran
      obtain rfl := Except.ok.inj ran
      exact ⟨fun _ _ _ => rfl, files (by rw [typ]; decide)⟩
  | symlink =>
      rw [typ] at ran
      obtain rfl := Except.ok.inj ran
      exact ⟨fun _ _ _ => rfl, files (by rw [typ]; decide)⟩

theorem tidy_deleted {item : StorageDirItem} (filed : Filed store)
    (below : MappedBelow cfg (fun _ => 0) store)
    (linked : ∀ other, other ≠ item.ino → HasRecords store other → Linked store other)
    (unlinked : ¬ Linked store item.ino)
    (typed : ∀ desc, inoDescription store item.ino = some desc → desc.typ = item.typ)
    {cleared : Store} (ran : clearRemainingInodeData cfg ambient item
      (applyAll store [Mutation.delete (.inodeX item.ino .description)]) = .ok cleared) :
    Tidy cfg (deleteMetadata item.ino cleared) := by
  have undescribed : ∀ key : Key, key ≠ .inodeX item.ino .description →
      (applyAll store [Mutation.delete (.inodeX item.ino .description)]).lookup key = store.lookup key :=
    fun key different => lookup_delete_of_ne store _ _ different
  have mappings : ∀ addr, mapping (applyAll store [Mutation.delete (.inodeX item.ino .description)]) addr =
      mapping store addr := fun addr => undescribed _ (by simp)
  have unmapped : item.typ ≠ .file → ∀ index,
      mapping (applyAll store [Mutation.delete (.inodeX item.ino .description)]) ⟨item.ino, index⟩ = none := by
    intro other index
    rw [mappings]
    by_contra mapped
    obtain ⟨desc, isDesc, isFile⟩ := filed.files ⟨item.ino, index⟩ mapped
    exact other ((typed desc isDesc).symm.trans isFile)
  have within : MappedBelow cfg (fun _ => 0)
      (applyAll store [Mutation.delete (.inodeX item.ino .description)]) := by
    intro addr size mapped stored
    rw [mappings] at mapped
    rw [inoSize, undescribed _ (by simp)] at stored
    exact below addr size mapped stored
  obtain ⟨frame, gone⟩ := clearRemaining_unmapped within unmapped ran
  have same : ∀ key : Key, key.isShared = false → (∀ kind, key ≠ .inodeX item.ino kind) →
      (∀ index, key ≠ .blockHash ⟨item.ino, index⟩) →
      (deleteMetadata item.ino cleared).lookup key = store.lookup key := by
    intro key own noRecord noMapping
    rw [deleteMetadata_frame item.ino cleared noRecord, frame key own noMapping,
      undescribed key (noRecord _)]
  refine Tidy.forget filed below linked unlinked ?_ (same _ rfl (by simp) (by simp)) ?_ ?_
  · intro key isLink
    cases key with
    | directoryChild parent name => exact same _ rfl (by simp) (by simp)
    | parentLink ino parent name => exact same _ rfl (by simp) (by simp)
    | _ => cases isLink
  · intro other different
    constructor
    · intro kind
      exact same _ rfl (fun _ equal => different (Key.inodeX.inj equal).1) (by simp)
    · intro index
      exact same _ rfl (by simp) fun _ equal =>
        different (BlockAddress.mk.inj (Key.blockHash.inj equal)).1
  · intro recorded
    rcases recorded with ⟨kind, present⟩ | ⟨index, mapped⟩
    · exact present (deleteMetadata_gone item.ino cleared kind)
    · apply mapped
      rw [mapping, deleteMetadata_frame item.ino cleared (by simp)]
      exact gone index

theorem tidy_unlink {parent : ParentStorageIno} {name : ByteString}
    {allowedTypes : List StorageDirItemKind} (tidy : Tidy cfg store)
    (ran : removeChildGeneric cfg ambient parent name allowedTypes store = .ok after) :
    Tidy cfg after := by
  obtain ⟨⟨item, between⟩, first, rest⟩ := except_bind_eq_ok ran
  obtain ⟨txn, removed, rfl⟩ := ran_of_atomically first
  obtain ⟨found, _, rfl⟩ := removeChild_ok removed
  rw [Txn.view_mutate, Txn.view_start] at rest
  obtain ⟨filed, below, others⟩ := tidy.dropped found
  obtain ⟨⟨r, checked⟩, second, last⟩ := except_bind_eq_ok rest
  have typed : ∀ desc, inoDescription (applyAll store (removedLinks parent name item.ino)) item.ino =
      some desc → desc.typ = item.typ := by
    intro desc isDesc
    obtain ⟨known, stored, isTyp⟩ := tidy.filed.settled.described parent name item found
    rw [inoDescription, links_frame (fun _ listed => isLink_of_mem_removedLinks listed) rfl] at isDesc
    rw [inoDescription, isDesc] at stored
    rw [Option.some.inj stored]
    exact isTyp
  by_cases linked : Linked (applyAll store (removedLinks parent name item.ino)) item.ino
  · have used : inodeCheckForDeleteAndDeleteAtomicallyDescription item.ino
        ⟨applyAll store (removedLinks parent name item.ino), []⟩ = .ok (.stillUsed, _) :=
      checkForDelete_used linked
    rw [atomically_eq_ok used] at second
    obtain ⟨rfl, rfl⟩ := Prod.mk.inj (Except.ok.inj second)
    obtain rfl := Except.ok.inj last
    refine ⟨filed, ?_, below⟩
    intro other recorded
    by_cases same : other = item.ino
    · rw [same]
      exact linked
    · exact others other same recorded
  · have unlinked : ∀ above entry, ¬ hasParentLink
        (Txn.mk (applyAll store (removedLinks parent name item.ino)) []).view item.ino above entry :=
      fun above entry link => linked ⟨above, entry, link⟩
    have deleted : inodeCheckForDeleteAndDeleteAtomicallyDescription item.ino
        ⟨applyAll store (removedLinks parent name item.ino), []⟩ = .ok (.deletedInoDesc, _) :=
      checkForDelete_deleted unlinked
    rw [atomically_eq_ok deleted] at second
    obtain ⟨rfl, rfl⟩ := Prod.mk.inj (Except.ok.inj second)
    obtain ⟨cleared, clear, isAfter⟩ := except_bind_eq_ok last
    obtain rfl := Except.ok.inj isAfter
    rw [Txn.view_mutate, Txn.view_start] at clear
    exact tidy_deleted filed below others linked typed clear

theorem tidy_step {op : Operation cfg} (tidy : Tidy cfg store) (keeps : KeepsLinked store op)
    (ran : op.run ambient store = .ok after) : Tidy cfg after := by
  cases op with
  | create args => exact tidy_create tidy ran
  | link parent name ino => exact tidy_link tidy ran
  | unlink parent name => exact tidy_unlink tidy ran
  | rmdir parent name =>
      obtain ⟨⟨item, last⟩, first, rfl⟩ := except_map_eq_ok ran
      obtain ⟨txn, removed, rfl⟩ := ran_of_atomically first
      obtain ⟨found, _, _, rfl⟩ := removeEmpty_ok removed
      rw [Txn.view_mutate, Txn.view_start]
      exact tidy.removed found (keeps item found)
  | write ino plan => exact Tidy.write tidy keeps ran
  | openInode ino useId =>
      obtain ⟨⟨_, last⟩, first, rfl⟩ := except_map_eq_ok ran
      obtain ⟨txn, opened, rfl⟩ := ran_of_atomically first
      obtain ⟨desc, linked, _, stored, free, rfl⟩ := open_ok opened
      rw [Txn.view_mutate, Txn.view_start]
      exact tidy.added free stored
  | closeInode ino useId =>
      obtain ⟨⟨_, last⟩, first, rfl⟩ := except_map_eq_ok ran
      obtain ⟨txn, closed, rfl⟩ := ran_of_atomically first
      obtain ⟨item, found, _, rfl⟩ := close_ok closed
      rw [Txn.view_mutate, Txn.view_start]
      exact tidy.removed found (keeps item found)

theorem tidy_empty : Tidy cfg ∅ := by
  have bare : ∀ ino, ¬ HasRecords ∅ ino := by
    intro ino recorded
    rcases recorded with ⟨kind, present⟩ | ⟨index, mapped⟩
    · exact present rfl
    · exact mapped rfl
  exact ⟨⟨settled_empty, fun ino _ => bare ino, fun _ mapped => absurd rfl mapped⟩,
    fun ino recorded => absurd recorded (bare ino), fun _ _ mapped _ => absurd rfl mapped⟩

def initStore (cfg : TiFsConfig) (call : InitCall) (now : SystemTime) : Store :=
  applyAll (applyAll ∅ (initWrites cfg)) (createdWrites call.args rootInode now)

theorem init_run (cfg : TiFsConfig) (call : InitCall) (ambient : Ambient) :
    addChildCheckedNewInode cfg ambient call.args ∅ = .ok (initStore cfg call ambient.now) := by
  have reserved : metaMutableReserveNewIno cfg ⟨∅, []⟩ = .ok (rootInode, ⟨∅, initWrites cfg⟩) :=
    reserve_blank cfg rfl
  have free : dirEntry (Txn.mk (applyAll ∅ (initWrites cfg)) []).view call.args.parent call.args.name =
      none := by
    rw [Txn.view_start, dirEntry, lookup_applyAll_of_notMem _ _ _ (by simp [initWrites])]
    rfl
  have created : atomically (directoryAddChildCheckedNewInode call.args rootInode ambient.now)
      (applyAll ∅ (initWrites cfg)) = .ok (_, _) := atomically_eq_ok (addNew_created free)
  rw [addChildCheckedNewInode, atomically_eq_ok reserved]
  exact congrArg (· >>= fun result => .ok result.2) created

/-- On an initialised store no inode is left without a link, as long as the last link of
an inode is removed by an unlink and block writes go to files. -/
theorem no_orphans (cfg : TiFsConfig) (call : InitCall) (now : SystemTime) (state : Store)
    (run : Run (Step cfg) (fun store event => KeepsLinked store event.1)
      (initStore cfg call now) state) : NoOrphans state := by
  have initial : Tidy cfg (initStore cfg call now) := tidy_create tidy_empty (init_run cfg call ⟨now, 0⟩)
  have tidy : Tidy cfg state := by
    refine run.invariant (Tidy cfg) ?_ initial
    intro before event after tidy taken keeps
    exact tidy_step tidy keeps taken
  exact tidy.linked

theorem exists_run (cfg : TiFsConfig) (allowed : Store → Operation cfg × Ambient → Prop)
    [∀ store event, Decidable (allowed store event)] (first : Store)
    (events : List (Operation cfg × Ambient)) (check : Store → Bool)
    (ran : (runAll (restrict allowed fun store event => (event.1.run event.2 store).toOption)
      first events).any check = true) :
    ∃ last, Run (Step cfg) allowed first last ∧ check last = true := by
  refine Run.of_restrict ?_ events check ran
  intro before event after taken
  unfold Step
  cases ran : event.1.run event.2 before with
  | ok store =>
      rw [ran] at taken
      exact congrArg Except.ok (Option.some.inj taken)
  | error issue =>
      rw [ran] at taken
      cases taken

def rootChild (name : ByteString) (typ : StorageDirItemKind) : NewInode :=
  ⟨rootInode, name, typ, 0o755, 0, 0, 0, none⟩

/-- A file is opened, written, closed, linked and unlinked under both of its names. -/
theorem no_orphans_unlinked :
    ∃ state, Run (Step (paddingConfig 2 (by decide))) (fun store event => KeepsLinked store event.1)
        (initStore (paddingConfig 2 (by decide)) ⟨0, 0, .reserve⟩ 1) state ∧
      state.lookup (.inodeX 10 .size) = none ∧ NoOrphans state := by
  obtain ⟨state, run, gone⟩ := exists_run (paddingConfig 2 (by decide))
    (fun store event => KeepsLinked store event.1)
    (initStore (paddingConfig 2 (by decide)) ⟨0, 0, .reserve⟩ 1)
    [(.create (rootChild [97] .file), ⟨2, 0⟩), (.openInode 10 5, ⟨3, 0⟩),
     (.write 10 (oneBlockPlan 3), ⟨4, 8⟩), (.closeInode 10 5, ⟨5, 0⟩),
     (.link rootInode [98] 10, ⟨6, 0⟩), (.unlink rootInode [97], ⟨7, 0⟩),
     (.unlink rootInode [98], ⟨8, 0⟩)]
    (fun state => decide (state.lookup (.inodeX 10 .size) = none)) (by decide +kernel)
  exact ⟨state, run, of_decide_eq_true gone, no_orphans _ _ _ state run⟩

theorem removeEmpty_run {parent : ParentStorageIno} {name : ByteString} {item : StorageDirItem}
    (found : dirEntry store parent name = some item) (isDirectory : item.typ = .directory)
    (empty : childNames store item.ino = ∅) :
    directoryRemoveChildEmptyDirectory parent name ⟨store, []⟩ =
      .ok (item, ⟨store, removedLinks parent name item.ino⟩) := by
  have scanned : directoryScanForChildren item.ino 1 ⟨store, []⟩ = .ok ([], ⟨store, []⟩) := by
    rw [directoryScanForChildren, Txn.view_start, empty, Finset.sort_empty]
    rfl
  have read : directoryGetChild parent name ⟨store, []⟩ = .ok (some item, ⟨store, []⟩) :=
    getChild_run found
  rw [directoryRemoveChildEmptyDirectory, bind_ok read]
  simp only [isDirectory, ne_eq, not_true_eq_false, if_false]
  exact bind_ok scanned

theorem removeEmpty_removed {parent : ParentStorageIno} {name : ByteString} {item : StorageDirItem}
    (found : dirEntry store parent name = some item) (isDirectory : item.typ = .directory)
    (empty : childNames store item.ino = ∅) :
    atomically (directoryRemoveChildEmptyDirectory parent name) store =
      .ok (item, applyAll store (removedLinks parent name item.ino)) :=
  atomically_eq_ok (removeEmpty_run found isDirectory empty)

/-- The removal of a directory leaves its records behind. -/
theorem orphan_directory :
    ¬ ∀ (cfg : TiFsConfig) (call : InitCall) (now : SystemTime) (state : Store),
      Run (Step cfg) (fun _ _ => True) (initStore cfg call now) state → NoOrphans state := by
  intro holds
  obtain ⟨state, run, check⟩ := exists_run (paddingConfig 2 (by decide)) (fun _ _ => True)
    (initStore (paddingConfig 2 (by decide)) ⟨0, 0, .reserve⟩ 1)
    [(.create (rootChild [100] .directory), ⟨2, 0⟩)]
    (fun state => decide (dirEntry state rootInode [100] = some ⟨10, .directory⟩ ∧
      childNames state 10 = ∅ ∧ parentLinks state 10 = {(rootInode, [100])} ∧
      (state.lookup (.inodeX 10 .size)).isSome = true)) (by decide +kernel)
  obtain ⟨found, empty, links, recorded⟩ := of_decide_eq_true check
  have removed : Step (paddingConfig 2 (by decide)) state (.rmdir rootInode [100], ⟨3, 0⟩)
      (applyAll state (removedLinks rootInode [100] 10)) := by
    unfold Step
    rw [Operation.run, removeEmpty_removed found rfl empty]
    rfl
  have sized : HasRecords (applyAll state (removedLinks rootInode [100] 10)) 10 := by
    refine Or.inl ⟨.size, ?_⟩
    rw [links_frame (fun _ listed => isLink_of_mem_removedLinks listed) rfl]
    exact Option.isSome_iff_ne_none.mp recorded
  obtain ⟨parent, name, link⟩ := holds _ _ _ _ (run.snoc _ removed trivial) 10 sized
  obtain ⟨kept, before⟩ := (hasParentLink_removedLinks _ _ _ _ _ _ _).mp link
  have listed := (mem_parentLinks _ _ _ _).mpr before
  rw [links, Finset.mem_singleton] at listed
  exact kept ⟨rfl, listed⟩

end Operation

end TiFs
