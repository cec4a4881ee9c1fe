import TiFs.SnapshotRecords

namespace TiFs

open KeyValue Tables

section Scan

variable {store : Store} {dir : StorageIno}

def scannedChildren (store : Store) (dir : StorageIno) : List DirectoryItem :=
  (((childNames store dir).sort NameLe).take maxTikvScanLimit).filterMap fun name =>
    (dirEntry store dir name).map fun item => ⟨item.ino, name, item.typ⟩

theorem scan_run (store : Store) (dir : StorageIno) :
    atomically (directoryScanForChildren dir maxTikvScanLimit) store = .ok (scannedChildren store dir, store) :=
  rfl

theorem dirEntry_of_scanned {item : DirectoryItem} (member : item ∈ scannedChildren store dir) :
    dirEntry store dir item.name = some ⟨item.ino, item.typ⟩ := by
  obtain ⟨name, _, isItem⟩ := List.mem_filterMap.mp member
  obtain ⟨entry, found, rfl⟩ := Option.map_eq_some_iff.mp isItem
  exact found

theorem mem_scanned_iff {item : DirectoryItem} : item ∈ scannedChildren store dir ↔
    dirEntry store dir item.name = some ⟨item.ino, item.typ⟩ ∧
      item.name ∈ ((childNames store dir).sort NameLe).take maxTikvScanLimit := by
  constructor
  · intro member
    refine ⟨dirEntry_of_scanned member, ?_⟩
    obtain ⟨name, listed, isItem⟩ := List.mem_filterMap.mp member
    obtain ⟨entry, _, rfl⟩ := Option.map_eq_some_iff.mp isItem
    exact listed
  · rintro ⟨found, listed⟩
    refine List.mem_filterMap.mpr ⟨item.name, listed, ?_⟩
    rw [found]
    rfl

theorem mem_scanned_of_small (small : (childNames store dir).card ≤ maxTikvScanLimit) {name : ByteString}
    {item : StorageDirItem} (found : dirEntry store dir name = some item) :
    (⟨item.ino, name, item.typ⟩ : DirectoryItem) ∈ scannedChildren store dir := by
  refine mem_scanned_iff.mpr ⟨found, ?_⟩
  rw [List.take_of_length_le (by rw [Finset.length_sort]; exact small), Finset.mem_sort, mem_childNames,
    found]
  exact Option.some_ne_none item

theorem names_filterMap_sublist (store : Store) (dir : StorageIno) (names : List ByteString) :
    ((names.filterMap fun name => (dirEntry store dir name).map fun item =>
      (⟨item.ino, name, item.typ⟩ : DirectoryItem)).map DirectoryItem.name).Sublist names := by
  induction names with
  | nil => exact List.Sublist.refl _
  | cons name rest ih =>
      cases found : dirEntry store dir name with
      | none =>
          rw [List.filterMap_cons_none (by rw [found]; rfl)]
          exact ih.cons name
      | some item =>
          rw [List.filterMap_cons_some (by rw [found]; rfl), List.map_cons]
          exact ih.cons_cons name

theorem scannedChildren_names (store : Store) (dir : StorageIno) :
    ((scannedChildren store dir).map DirectoryItem.name).Nodup :=
  (((childNames store dir).sort_nodup NameLe).sublist (List.take_sublist _ _)).sublist
    (names_filterMap_sublist store dir _)

end Scan

def numbered (base : StorageIno) (items : List DirectoryItem) : List (DirectoryItem × StorageIno) :=
  items.zipIdx.map fun child => (child.1, base + child.2)

section Numbered

variable {base : StorageIno} {items : List DirectoryItem}

theorem numbered_fst (base : StorageIno) (items : List DirectoryItem) :
    (numbered base items).map Prod.fst = items := by
  rw [numbered, List.map_map]
  exact List.zipIdx_map_fst 0 items

theorem numbered_snd (base : StorageIno) (items : List DirectoryItem) :
    (numbered base items).map Prod.snd = List.range' base items.length := by
  have snds : (numbered base items).map Prod.snd = (items.zipIdx.map Prod.snd).map (base + ·) := by
    rw [numbered, List.map_map, List.map_map]
    rfl
  rw [snds, List.zipIdx_map_snd, List.map_add_range']
  rfl

theorem numbered_bounds {child : DirectoryItem × StorageIno} (member : child ∈ numbered base items) :
    base ≤ child.2 ∧ child.2 < base + items.length := by
  have listed : child.2 ∈ (numbered base items).map Prod.snd := List.mem_map_of_mem member
  rw [numbered_snd, List.mem_range'_1] at listed
  exact listed

theorem numbered_names {store : Store} {dir : StorageIno} :
    ((numbered base (scannedChildren store dir)).map fun child => child.1.name).Nodup := by
  have names : ((numbered base (scannedChildren store dir)).map fun child => child.1.name) =
      ((numbered base (scannedChildren store dir)).map Prod.fst).map DirectoryItem.name := by
    rw [List.map_map]
    rfl
  rw [names, numbered_fst]
  exact scannedChildren_names store dir

theorem numbered_dsts : ((numbered base items).map Prod.snd).Nodup := by
  rw [numbered_snd]
  exact List.nodup_range' 1

end Numbered

structure Batch where
  origin : ParentStorageIno
  destination : ParentStorageIno
  base : StorageIno

def Batch.children (origin : Store) (batch : Batch) : List (DirectoryItem × StorageIno) :=
  numbered batch.base (scannedChildren origin batch.origin)

def copiedRecord (origin : Store) (front : List (DirectoryItem × StorageIno))
    (child : DirectoryItem × StorageIno) (kind : InoMetadata) : Option kind.Value :=
  if kind ∈ clonedKinds ∧ ¬ (kind ∈ removedKinds ∧ child.1.ino ∈ front.map fun other => other.1.ino) then
    (origin.lookup (.inodeX child.1.ino kind)).map (renumber child.2 kind)
  else none

def copiedMapping (cfg : TiFsConfig) (origin : Store) (item : DirectoryItem) (index : BlockIndex) :
    Option TiFsHash :=
  match item.typ, inoSize origin item.ino with
  | .file, some srcSize =>
      if index < (clonedBlockRange cfg srcSize).2 then scanned cfg origin item.ino index else none
  | _, _ => none

structure Batch.Linked (origin store : Store) (batch : Batch) : Prop where
  present : ∀ child ∈ batch.children origin,
    dirEntry store batch.destination child.1.name = some ⟨child.2, child.1.typ⟩
  absent : ∀ name ∉ (batch.children origin).map fun child => child.1.name,
    dirEntry store batch.destination name = none

def Batch.Recorded (origin store : Store) (batch : Batch) : Prop :=
  ∀ front child back, batch.children origin = front ++ child :: back → ∀ kind,
    store.lookup (.inodeX child.2 kind) = copiedRecord origin front child kind

structure Batch.Copied (cfg : TiFsConfig) (origin store : Store) (batch : Batch) : Prop where
  linked : batch.Linked origin store
  recorded : batch.Recorded origin store
  mapped : ∀ child ∈ batch.children origin, ∀ index,
    mapping store ⟨child.2, index⟩ = copiedMapping cfg origin child.1 index

section Frame

variable {cfg : TiFsConfig} {origin store after : Store} {batch : Batch}

theorem Batch.Linked.congr (linked : batch.Linked origin store)
    (same : ∀ name, dirEntry after batch.destination name = dirEntry store batch.destination name) :
    batch.Linked origin after where
  present := fun child member => (same child.1.name).trans (linked.present child member)
  absent := fun name outside => (same name).trans (linked.absent name outside)

theorem Batch.Recorded.congr (recorded : batch.Recorded origin store)
    (same : ∀ child ∈ batch.children origin, ∀ kind,
      after.lookup (.inodeX child.2 kind) = store.lookup (.inodeX child.2 kind)) :
    batch.Recorded origin after := by
  intro front child back split kind
  have member : child ∈ batch.children origin := by
    rw [split]
    exact List.mem_append_right _ List.mem_cons_self
  exact (same child member kind).trans (recorded front child back split kind)

theorem Batch.Copied.congr (copied : batch.Copied cfg origin store)
    (entries : ∀ name, dirEntry after batch.destination name = dirEntry store batch.destination name)
    (records : ∀ child ∈ batch.children origin, ∀ kind,
      after.lookup (.inodeX child.2 kind) = store.lookup (.inodeX child.2 kind))
    (mappings : ∀ child ∈ batch.children origin, ∀ index,
      mapping after ⟨child.2, index⟩ = mapping store ⟨child.2, index⟩) :
    batch.Copied cfg origin after where
  linked := copied.linked.congr entries
  recorded := copied.recorded.congr records
  mapped := fun child member index => (mappings child member index).trans (copied.mapped child member index)

end Frame

def pairs (done : List Batch) (current pending : List (ParentStorageIno × ParentStorageIno)) :
    List (ParentStorageIno × ParentStorageIno) :=
  done.map (fun batch => (batch.origin, batch.destination)) ++ (current ++ pending)

def UnusedFrom (low : StorageIno) (store : Store) : Prop :=
  ∀ key ino, Key.owner key = some ino → low ≤ ino → store.lookup key = none

/-- The directories that are copied, the one being copied and those still to copy, with
the copy of the root at `dir`; the copies have numbers from `start` on and below `low`. -/
structure Copies (cfg : TiFsConfig) (origin : Store) (start dir : StorageIno) (done : List Batch)
    (current pending : List (ParentStorageIno × ParentStorageIno)) (low : StorageIno) (store : Store) :
    Prop where
  copied : ∀ batch ∈ done, batch.Copied cfg origin store
  owned : ∀ batch ∈ done, ∀ child ∈ batch.children origin, start ≤ child.2 ∧ child.2 < low
  empty : ∀ job ∈ pending, ∀ name, dirEntry store job.2 name = none
  bounds : ∀ job ∈ pairs done current pending, start ≤ job.2 ∧ job.2 < low
  distinct : ((pairs done current pending).map Prod.snd).Nodup
  closed : ∀ batch ∈ done, ∀ child ∈ batch.children origin, child.1.typ = .directory →
    (child.1.ino, child.2) ∈ pairs done current pending
  rooted : (rootInode, dir) ∈ pairs done current pending

section Copies

variable {cfg : TiFsConfig} {origin store after : Store} {start dir low : StorageIno} {done : List Batch}
  {current pending : List (ParentStorageIno × ParentStorageIno)}

theorem Copies.congr (copies : Copies cfg origin start dir done current pending low store)
    (entries : ∀ job ∈ pairs done [] pending, ∀ name, dirEntry after job.2 name = dirEntry store job.2 name)
    (records : ∀ batch ∈ done, ∀ child ∈ batch.children origin, ∀ kind,
      after.lookup (.inodeX child.2 kind) = store.lookup (.inodeX child.2 kind))
    (mappings : ∀ batch ∈ done, ∀ child ∈ batch.children origin, ∀ index,
      mapping after ⟨child.2, index⟩ = mapping store ⟨child.2, index⟩) :
    Copies cfg origin start dir done current pending low after where
  copied := by
    intro batch member
    apply (copies.copied batch member).congr
    · have listed : (batch.origin, batch.destination) ∈ pairs done [] pending :=
        List.mem_append_left _ (List.mem_map_of_mem member)
      exact entries _ listed
    · exact records batch member
    · exact mappings batch member
  owned := copies.owned
  empty := by
    intro job member name
    rw [entries job (List.mem_append_right _ member)]
    exact copies.empty job member name
  bounds := copies.bounds
  distinct := copies.distinct
  closed := copies.closed
  rooted := copies.rooted

theorem Copies.congr_owned (copies : Copies cfg origin start dir done current pending low store)
    (same : ∀ key ino, Key.owner key = some ino → start ≤ ino → after.lookup key = store.lookup key) :
    Copies cfg origin start dir done current pending low after := by
  apply copies.congr
  · intro job member name
    apply same (.directoryChild job.2 name) job.2 rfl
    apply (copies.bounds job _).1
    rcases List.mem_append.mp member with inDone | inPending
    · exact List.mem_append_left _ inDone
    · exact List.mem_append_right _ (List.mem_append_right _ inPending)
  · intro batch member child isChild kind
    exact same (.inodeX child.2 kind) child.2 rfl (copies.owned batch member child isChild).1
  · intro batch member child isChild index
    exact same (.blockHash ⟨child.2, index⟩) child.2 rfl (copies.owned batch member child isChild).1

theorem Copies.mono (copies : Copies cfg origin start dir done current pending low store) {high : StorageIno}
    (above : low ≤ high) : Copies cfg origin start dir done current pending high store where
  copied := copies.copied
  owned := fun batch member child isChild =>
    ⟨(copies.owned batch member child isChild).1, (copies.owned batch member child isChild).2.trans_le above⟩
  empty := copies.empty
  bounds := fun job member => ⟨(copies.bounds job member).1, (copies.bounds job member).2.trans_le above⟩
  distinct := copies.distinct
  closed := copies.closed
  rooted := copies.rooted

theorem UnusedFrom.congr (unused : UnusedFrom low store)
    (same : ∀ key ino, Key.owner key = some ino → low ≤ ino → after.lookup key = store.lookup key) :
    UnusedFrom low after :=
  fun key ino isOwner above => (same key ino isOwner above).trans (unused key ino isOwner above)

theorem UnusedFrom.mono (unused : UnusedFrom low store) {high : StorageIno} (above : low ≤ high) :
    UnusedFrom high store :=
  fun key ino isOwner high => unused key ino isOwner (above.trans high)

theorem Copies.taken {job : ParentStorageIno × ParentStorageIno}
    (copies : Copies cfg origin start dir done [] (job :: pending) low store) :
    Copies cfg origin start dir done [job] pending low store where
  copied := copies.copied
  owned := copies.owned
  empty := fun other member => copies.empty other (List.mem_cons_of_mem _ member)
  bounds := copies.bounds
  distinct := copies.distinct
  closed := copies.closed
  rooted := copies.rooted

theorem Copies.finished {batch : Batch}
    (copies : Copies cfg origin start dir done [(batch.origin, batch.destination)] pending low store)
    (copied : batch.Copied cfg origin store)
    (owned : ∀ child ∈ batch.children origin, start ≤ child.2 ∧ child.2 < low)
    (closed : ∀ child ∈ batch.children origin, child.1.typ = .directory →
      (child.1.ino, child.2) ∈ pairs done [(batch.origin, batch.destination)] pending) :
    Copies cfg origin start dir (done ++ [batch]) [] pending low store := by
  have same : pairs (done ++ [batch]) [] pending =
      pairs done [(batch.origin, batch.destination)] pending := by
    simp [pairs]
  constructor
  · intro other member
    rcases List.mem_append.mp member with before | isBatch
    · exact copies.copied other before
    · rw [List.mem_singleton.mp isBatch]
      exact copied
  · intro other member
    rcases List.mem_append.mp member with before | isBatch
    · exact copies.owned other before
    · rw [List.mem_singleton.mp isBatch]
      exact owned
  · exact copies.empty
  · rw [same]
    exact copies.bounds
  · rw [same]
    exact copies.distinct
  · rw [same]
    intro other member
    rcases List.mem_append.mp member with before | isBatch
    · exact copies.closed other before
    · rw [List.mem_singleton.mp isBatch]
      exact closed
  · rw [same]
    exact copies.rooted

theorem Copies.pushed {job : ParentStorageIno × ParentStorageIno}
    (copies : Copies cfg origin start dir done current pending low store)
    (empty : ∀ name, dirEntry store job.2 name = none) (bounds : start ≤ job.2 ∧ job.2 < low)
    (new : job.2 ∉ (pairs done current pending).map Prod.snd) :
    Copies cfg origin start dir done current (pending ++ [job]) low store := by
  have same : pairs done current (pending ++ [job]) = pairs done current pending ++ [job] := by
    simp [pairs]
  constructor
  · exact copies.copied
  · exact copies.owned
  · intro other member
    rcases List.mem_append.mp member with before | isJob
    · exact copies.empty other before
    · rw [List.mem_singleton.mp isJob]
      exact empty
  · rw [same]
    intro other member
    rcases List.mem_append.mp member with before | isJob
    · exact copies.bounds other before
    · rw [List.mem_singleton.mp isJob]
      exact bounds
  · rw [same, List.map_append, List.nodup_append]
    refine ⟨copies.distinct, List.nodup_singleton _, ?_⟩
    intro old isOld number isJob isSame
    rw [List.mem_singleton.mp isJob] at isSame
    exact new (isSame ▸ isOld)
  · rw [same]
    exact fun batch member child isChild isDir =>
      List.mem_append_left _ (copies.closed batch member child isChild isDir)
  · rw [same]
    exact List.mem_append_left _ copies.rooted

end Copies

end TiFs
