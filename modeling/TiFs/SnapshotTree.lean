import TiFs.SnapshotRuns

namespace TiFs

open KeyValue Tables

def entryAt (store : Store) : StorageDirItem → List ByteString → Option StorageDirItem
  | item, [] => some item
  | item, name :: rest =>
      if item.typ = .directory then (dirEntry store item.ino name).bind fun child => entryAt store child rest
      else none

def rootItem : StorageDirItem := ⟨rootInode, .directory⟩

/-- Below a directory are the entries of the tree under the root, with their records and
their blocks. -/
structure SameTree (origin store : Store) (snapshotDir : StorageDirItem) : Prop where
  entries : ∀ path, (entryAt store snapshotDir path).map StorageDirItem.typ =
    (entryAt origin rootItem path).map StorageDirItem.typ
  records : ∀ path item copy, path ≠ [] → entryAt origin rootItem path = some item →
    entryAt store snapshotDir path = some copy → ∀ kind ∈ clonedKinds,
    store.lookup (.inodeX copy.ino kind) = (origin.lookup (.inodeX item.ino kind)).map (renumber copy.ino kind)
  mappings : ∀ path item copy, path ≠ [] → entryAt origin rootItem path = some item →
    entryAt store snapshotDir path = some copy → ∀ index,
    mapping store ⟨copy.ino, index⟩ = mapping origin ⟨item.ino, index⟩

/-- What a snapshot promises: a copy of the tree, the tree itself as before, and counters
that have grown by the new mappings. -/
structure SameAsSource (origin store : Store) (snapshotDir : StorageDirItem) : Prop
    extends SameTree origin store snapshotDir where
  source : ∀ path, entryAt store rootItem path = entryAt origin rootItem path
  sourceData : ∀ path item, entryAt origin rootItem path = some item →
    ∀ key, Key.owner key = some item.ino → store.lookup key = origin.lookup key
  counters : ∀ hash, counter store hash =
    counter origin hash + (mappedTo store hash \ mappedTo origin hash).card

structure CopyableDir (cfg : TiFsConfig) (origin : Store) (dir : StorageIno) : Prop where
  limit : (childNames origin dir).card ≤ maxTikvScanLimit
  single : ∀ name other item another, name ≠ other → dirEntry origin dir name = some item →
    dirEntry origin dir other = some another → item.ino = another.ino →
    ∀ kind ∈ removedKinds, origin.lookup (.inodeX item.ino kind) = none
  blocks : ∀ name item, dirEntry origin dir name = some item → ∀ index hash,
    mapping origin ⟨item.ino, index⟩ = some hash → item.typ = .file ∧ hash.length = cfg.hashLen ∧
      ∃ size, inoSize origin item.ino = some size ∧ index < (clonedBlockRange cfg size).2

/-- Every directory under the root has at most as many entries as a scan returns, leads to
no inode by two of its entries, and its files have no block behind the copied range. -/
def Copyable (cfg : TiFsConfig) (origin : Store) : Prop :=
  ∀ path dir, entryAt origin rootItem path = some ⟨dir, .directory⟩ → CopyableDir cfg origin dir

section Paths

variable {cfg : TiFsConfig} {origin store : Store} {start dir low : StorageIno} {done : List Batch}

theorem entryAt_cons {item child : StorageDirItem} {name : ByteString} (isDir : item.typ = .directory)
    (found : dirEntry store item.ino name = some child) (rest : List ByteString) :
    entryAt store item (name :: rest) = entryAt store child rest := by
  rw [entryAt, if_pos isDir, found, Option.bind_some]

theorem entryAt_cons_some {item last : StorageDirItem} {name : ByteString} {rest : List ByteString}
    (found : entryAt store item (name :: rest) = some last) :
    item.typ = .directory ∧ ∃ child, dirEntry store item.ino name = some child ∧
      entryAt store child rest = some last := by
  rw [entryAt] at found
  split at found
  · next isDir => exact ⟨isDir, Option.bind_eq_some_iff.mp found⟩
  · cases found

theorem entryAt_append (store : Store) (item : StorageDirItem) (front back : List ByteString) :
    entryAt store item (front ++ back) = (entryAt store item front).bind fun last => entryAt store last back := by
  induction front generalizing item with
  | nil => rfl
  | cons name rest ih =>
      rw [List.cons_append, entryAt, entryAt]
      split
      · cases found : dirEntry store item.ino name with
        | none => rfl
        | some child =>
            rw [Option.bind_some, Option.bind_some]
            exact ih child
      · rfl

theorem Batch.child_original {batch : Batch} {child : DirectoryItem × StorageIno}
    (member : child ∈ batch.children origin) :
    dirEntry origin batch.origin child.1.name = some ⟨child.1.ino, child.1.typ⟩ := by
  apply dirEntry_of_scanned
  rw [← numbered_fst batch.base (scannedChildren origin batch.origin)]
  exact List.mem_map_of_mem member

theorem entryAt_snoc {item : StorageDirItem} {path : List ByteString}
    (found : entryAt store item path = some ⟨dir, .directory⟩) (name : ByteString) :
    entryAt store item (path ++ [name]) = dirEntry store dir name := by
  rw [entryAt_append, found, Option.bind_some, entryAt, if_pos rfl]
  cases dirEntry store dir name with
  | none => rfl
  | some child => rfl

theorem entryAt_snoc_some {item last : StorageDirItem} {path : List ByteString} {name : ByteString}
    (found : entryAt store item (path ++ [name]) = some last) :
    ∃ dir, entryAt store item path = some ⟨dir, .directory⟩ ∧ dirEntry store dir name = some last := by
  rw [entryAt_append] at found
  obtain ⟨parent, isParent, isLast⟩ := Option.bind_eq_some_iff.mp found
  obtain ⟨isDir, child, isChild, isSame⟩ := entryAt_cons_some isLast
  obtain rfl := Option.some.inj isSame
  refine ⟨parent.ino, ?_, isChild⟩
  rw [isParent, ← isDir]

theorem Batch.Copied.child_of_entry {batch : Batch} (copied : batch.Copied cfg origin store) {name : ByteString}
    {copy : StorageDirItem} (found : dirEntry store batch.destination name = some copy) :
    ∃ child ∈ batch.children origin, child.1.name = name ∧ copy = ⟨child.2, child.1.typ⟩ ∧
      dirEntry origin batch.origin name = some ⟨child.1.ino, child.1.typ⟩ := by
  by_cases listed : name ∈ (batch.children origin).map fun child => child.1.name
  · obtain ⟨child, member, rfl⟩ := List.mem_map.mp listed
    rw [copied.linked.present child member] at found
    exact ⟨child, member, rfl, (Option.some.inj found).symm, Batch.child_original member⟩
  · rw [copied.linked.absent name listed] at found
    cases found

theorem Batch.child_of_scanned {batch : Batch} {item : DirectoryItem}
    (member : item ∈ scannedChildren origin batch.origin) :
    ∃ child ∈ batch.children origin, child.1 = item := by
  rw [← numbered_fst batch.base (scannedChildren origin batch.origin)] at member
  exact List.mem_map.mp member

theorem Copies.batch_of_pair (copies : Copies cfg origin start dir done [] [] low store)
    {source destination : ParentStorageIno} (isPair : (source, destination) ∈ pairs done [] []) :
    ∃ batch ∈ done, batch.origin = source ∧ batch.destination = destination ∧ batch.Copied cfg origin store := by
  rw [pairs, List.append_nil, List.append_nil] at isPair
  obtain ⟨batch, member, isBatch⟩ := List.mem_map.mp isPair
  obtain ⟨rfl, rfl⟩ := Prod.mk.inj isBatch
  exact ⟨batch, member, rfl, rfl, copies.copied batch member⟩

theorem Copies.original (copies : Copies cfg origin start dir done [] [] low store) (path : List ByteString)
    {source destination copy : ParentStorageIno} (isPair : (source, destination) ∈ pairs done [] [])
    (found : entryAt store ⟨destination, .directory⟩ path = some ⟨copy, .directory⟩) :
    ∃ original, (original, copy) ∈ pairs done [] [] ∧
      entryAt origin ⟨source, .directory⟩ path = some ⟨original, .directory⟩ := by
  induction path generalizing source destination with
  | nil =>
      obtain rfl := (StorageDirItem.mk.inj (Option.some.inj found)).1
      exact ⟨source, isPair, rfl⟩
  | cons name rest ih =>
      obtain ⟨_, entry, isEntry, later⟩ := entryAt_cons_some found
      obtain ⟨batch, member, rfl, rfl, copied⟩ := copies.batch_of_pair isPair
      obtain ⟨child, isChild, rfl, rfl, original⟩ := copied.child_of_entry isEntry
      have isDir : child.1.typ = .directory := by
        cases rest with
        | nil => exact (StorageDirItem.mk.inj (Option.some.inj later)).2
        | cons next rest => exact (entryAt_cons_some later).1
      have nextPair := copies.closed batch member child isChild isDir
      rw [isDir] at later original
      obtain ⟨last, lastPair, isLast⟩ := ih nextPair later
      refine ⟨last, lastPair, ?_⟩
      rw [entryAt_cons rfl original]
      exact isLast

/-- Where no scan is cut short, every directory has its copy at the same path. -/
theorem Copies.copy (copies : Copies cfg origin start dir done [] [] low store) (path : List ByteString)
    {source destination original : ParentStorageIno} (isPair : (source, destination) ∈ pairs done [] [])
    (small : ∀ path dir, entryAt origin ⟨source, .directory⟩ path = some ⟨dir, .directory⟩ →
      (childNames origin dir).card ≤ maxTikvScanLimit)
    (found : entryAt origin ⟨source, .directory⟩ path = some ⟨original, .directory⟩) :
    ∃ copy, (original, copy) ∈ pairs done [] [] ∧
      entryAt store ⟨destination, .directory⟩ path = some ⟨copy, .directory⟩ := by
  induction path generalizing source destination with
  | nil =>
      obtain rfl := (StorageDirItem.mk.inj (Option.some.inj found)).1
      exact ⟨destination, isPair, rfl⟩
  | cons name rest ih =>
      obtain ⟨_, entry, isEntry, later⟩ := entryAt_cons_some found
      obtain ⟨batch, member, rfl, rfl, copied⟩ := copies.batch_of_pair isPair
      have isScanned := mem_scanned_of_small (small [] batch.origin rfl) isEntry
      obtain ⟨child, isChild, isItem⟩ := Batch.child_of_scanned isScanned
      have isDir : entry.typ = .directory := by
        cases rest with
        | nil =>
            have isLast : entry = ⟨original, .directory⟩ := Option.some.inj later
            rw [isLast]
        | cons next rest => exact (entryAt_cons_some later).1
      have isCopy := copied.linked.present child isChild
      have nextPair := copies.closed batch member child isChild (by rw [isItem]; exact isDir)
      rw [isItem] at isCopy nextPair
      have isEntryDir : entry = ⟨entry.ino, .directory⟩ := by
        rw [← isDir]
      rw [isDir] at isCopy
      rw [isEntryDir] at later
      have smallNext : ∀ path dir, entryAt origin ⟨entry.ino, .directory⟩ path = some ⟨dir, .directory⟩ →
          (childNames origin dir).card ≤ maxTikvScanLimit := by
        intro path dir found
        apply small (name :: path) dir
        rw [entryAt_cons rfl isEntry, isEntryDir]
        exact found
      obtain ⟨last, lastPair, isLast⟩ := ih nextPair smallNext later
      refine ⟨last, lastPair, ?_⟩
      rw [entryAt_cons rfl isCopy]
      exact isLast

end Paths

structure Batch.Same (origin store : Store) (batch : Batch) : Prop where
  entries : ∀ name, (dirEntry store batch.destination name).map StorageDirItem.typ =
    (dirEntry origin batch.origin name).map StorageDirItem.typ
  records : ∀ name item copy, dirEntry origin batch.origin name = some item →
    dirEntry store batch.destination name = some copy → ∀ kind ∈ clonedKinds,
    store.lookup (.inodeX copy.ino kind) = (origin.lookup (.inodeX item.ino kind)).map (renumber copy.ino kind)
  mappings : ∀ name item copy, dirEntry origin batch.origin name = some item →
    dirEntry store batch.destination name = some copy → ∀ index,
    mapping store ⟨copy.ino, index⟩ = mapping origin ⟨item.ino, index⟩

section Same

variable {cfg : TiFsConfig} {origin store : Store} {batch : Batch}

theorem Batch.Same.child (same : batch.Same origin store) (copied : batch.Copied cfg origin store)
    {name : ByteString} {item : StorageDirItem} (found : dirEntry origin batch.origin name = some item) :
    ∃ child ∈ batch.children origin, child.1 = ⟨item.ino, name, item.typ⟩ := by
  have entry := same.entries name
  rw [found] at entry
  obtain ⟨copy, isCopy, _⟩ := Option.map_eq_some_iff.mp entry
  obtain ⟨child, member, isName, _, isOriginal⟩ := copied.child_of_entry isCopy
  rw [found] at isOriginal
  obtain rfl := Option.some.inj isOriginal
  exact ⟨child, member, by rw [← isName]⟩

theorem split_of_two {A : Type} {items : List A} {first second : A} (inFirst : first ∈ items)
    (inSecond : second ∈ items) (different : first ≠ second) :
    (∃ front back, items = front ++ second :: back ∧ first ∈ front) ∨
      ∃ front back, items = front ++ first :: back ∧ second ∈ front := by
  obtain ⟨front, back, rfl⟩ := List.append_of_mem inSecond
  rcases List.mem_append.mp inFirst with before | behind
  · exact Or.inl ⟨front, back, rfl, before⟩
  · rcases List.mem_cons.mp behind with same | later
    · exact absurd same different
    · obtain ⟨middle, rest, rfl⟩ := List.append_of_mem later
      exact Or.inr ⟨front ++ second :: middle, rest, by simp, by simp⟩

/-- An inode that is met again in a directory has nothing that its second copy lacks. -/
theorem Batch.Same.record_of_front (same : batch.Same origin store) (copied : batch.Copied cfg origin store)
    {front back : List (DirectoryItem × StorageIno)} {child : DirectoryItem × StorageIno}
    (split : batch.children origin = front ++ child :: back)
    (again : child.1.ino ∈ front.map fun other => other.1.ino) {kind : InoMetadata} (isRemoved : kind ∈ removedKinds) :
    origin.lookup (.inodeX child.1.ino kind) = none := by
  have member : child ∈ batch.children origin := by
    rw [split]
    exact List.mem_append_right _ List.mem_cons_self
  have written := same.records child.1.name _ _ (Batch.child_original member)
    (copied.linked.present child member) kind (mem_clonedKinds.mpr (Or.inl isRemoved))
  rw [copied.recorded front child back split kind, copiedRecord,
    if_neg (fun both => both.2 ⟨isRemoved, again⟩)] at written
  exact Option.map_eq_none_iff.mp written.symm

theorem Batch.Same.limit (same : batch.Same origin store) (copied : batch.Copied cfg origin store) :
    (childNames origin batch.origin).card ≤ maxTikvScanLimit := by
  have all : childNames origin batch.origin ⊆
      (((childNames origin batch.origin).sort NameLe).take maxTikvScanLimit).toFinset := by
    intro name listed
    obtain ⟨item, found⟩ := Option.ne_none_iff_exists'.mp ((mem_childNames _ _ _).mp listed)
    obtain ⟨child, member, isItem⟩ := same.child copied found
    have isScanned : child.1 ∈ scannedChildren origin batch.origin := by
      rw [← numbered_fst batch.base (scannedChildren origin batch.origin)]
      exact List.mem_map_of_mem member
    have within := (mem_scanned_iff.mp isScanned).2
    rw [isItem] at within
    exact List.mem_toFinset.mpr within
  calc (childNames origin batch.origin).card
      ≤ (((childNames origin batch.origin).sort NameLe).take maxTikvScanLimit).toFinset.card :=
        Finset.card_le_card all
    _ ≤ (((childNames origin batch.origin).sort NameLe).take maxTikvScanLimit).length :=
        List.toFinset_card_le _
    _ ≤ maxTikvScanLimit := List.length_take_le _ _

theorem copiedMapping_eq_some {item : DirectoryItem} {index : BlockIndex} {hash : TiFsHash} :
    copiedMapping cfg origin item index = some hash ↔
      mapping origin ⟨item.ino, index⟩ = some hash ∧ item.typ = .file ∧ hash.length = cfg.hashLen ∧
        ∃ size, inoSize origin item.ino = some size ∧ index < (clonedBlockRange cfg size).2 := by
  unfold copiedMapping
  split
  · next size isFile sized =>
      rw [isFile, sized]
      by_cases inside : index < (clonedBlockRange cfg size).2
      · simp [inside, scanned, Option.filter_eq_some_iff]
      · simp [inside]
  · next notFile =>
      constructor
      · intro absurd
        cases absurd
      · rintro ⟨_, isFile, _, size, sized, _⟩
        exact (notFile size isFile sized).elim

theorem Batch.Copied.copyable (copied : batch.Copied cfg origin store) (same : batch.Same origin store) :
    CopyableDir cfg origin batch.origin := by
  refine ⟨same.limit copied, ?_, ?_⟩
  · intro name other item another different found foundOther sameIno kind isRemoved
    obtain ⟨first, isFirst, firstItem⟩ := same.child copied found
    obtain ⟨second, isSecond, secondItem⟩ := same.child copied foundOther
    have apart : first ≠ second := by
      intro equal
      rw [← equal, firstItem] at secondItem
      exact different (DirectoryItem.mk.inj secondItem).2.1
    have firstIno : first.1.ino = item.ino := by rw [firstItem]
    have secondIno : second.1.ino = item.ino := by rw [secondItem, sameIno]
    rcases split_of_two isFirst isSecond apart with ⟨front, back, split, before⟩ | ⟨front, back, split, before⟩
    · rw [← secondIno]
      apply same.record_of_front copied split _ isRemoved
      rw [secondIno, ← firstIno]
      exact List.mem_map_of_mem before
    · rw [← firstIno]
      apply same.record_of_front copied split _ isRemoved
      rw [firstIno, ← secondIno]
      exact List.mem_map_of_mem before
  · intro name item found index hash isMapped
    obtain ⟨child, member, isItem⟩ := same.child copied found
    have isCopy := copied.linked.present child member
    rw [isItem] at isCopy
    have mapped := same.mappings name item _ found isCopy index
    rw [copied.mapped child member index, isMapped, copiedMapping_eq_some, isItem] at mapped
    exact mapped.2

theorem Batch.Copied.same (copied : batch.Copied cfg origin store)
    (copyable : CopyableDir cfg origin batch.origin) : batch.Same origin store := by
  refine ⟨?_, ?_, ?_⟩
  · intro name
    cases found : dirEntry origin batch.origin name with
    | none =>
        cases isCopy : dirEntry store batch.destination name with
        | none => rfl
        | some copy =>
            obtain ⟨_, _, _, _, isOriginal⟩ := copied.child_of_entry isCopy
            rw [found] at isOriginal
            cases isOriginal
    | some item =>
        obtain ⟨child, member, isItem⟩ := Batch.child_of_scanned (mem_scanned_of_small copyable.limit found)
        have isCopy := copied.linked.present child member
        rw [isItem] at isCopy
        rw [isCopy]
        rfl
  · intro name item copy found isCopy kind isCloned
    obtain ⟨child, member, rfl, rfl, isOriginal⟩ := copied.child_of_entry isCopy
    obtain rfl := Option.some.inj (found.symm.trans isOriginal)
    obtain ⟨front, back, split⟩ := List.append_of_mem member
    rw [copied.recorded front child back split kind, copiedRecord]
    by_cases again : kind ∈ removedKinds ∧ child.1.ino ∈ front.map fun other => other.1.ino
    · obtain ⟨other, inFront, sameIno⟩ := List.mem_map.mp again.2
      have isOther : other ∈ batch.children origin := by
        rw [split]
        exact List.mem_append_left _ inFront
      have different : child.1.name ≠ other.1.name := by
        intro sameName
        have names : ((batch.children origin).map fun child => child.1.name).Nodup := numbered_names
        rw [split, List.map_append, List.map_cons] at names
        exact (List.nodup_append.mp names).2.2 _ (List.mem_map_of_mem inFront) _ List.mem_cons_self sameName.symm
      have nothing := copyable.single _ _ _ _ different isOriginal (Batch.child_original isOther) sameIno.symm
        kind again.1
      rw [if_neg (fun both => both.2 again), nothing]
      rfl
    · rw [if_pos ⟨isCloned, again⟩]
  · intro name item copy found isCopy index
    obtain ⟨child, member, rfl, rfl, isOriginal⟩ := copied.child_of_entry isCopy
    obtain rfl := Option.some.inj (found.symm.trans isOriginal)
    rw [copied.mapped child member index]
    apply Option.ext
    intro hash
    rw [copiedMapping_eq_some]
    constructor
    · exact fun known => known.1
    · exact fun isMapped => ⟨isMapped, copyable.blocks _ _ isOriginal index hash isMapped⟩

end Same

section Tree

variable {cfg : TiFsConfig} {origin store : Store} {start low : StorageIno} {snapshotDir : StorageDirItem}
  {done : List Batch}

theorem Copies.copyable (copies : Copies cfg origin start snapshotDir.ino done [] [] low store)
    (isDir : snapshotDir.typ = .directory) (same : SameTree origin store snapshotDir) : Copyable cfg origin := by
  have isRoot : snapshotDir = ⟨snapshotDir.ino, .directory⟩ := by rw [← isDir]
  intro path dir found
  have entry := same.entries path
  rw [found] at entry
  obtain ⟨copy, isCopy, copyTyp⟩ := Option.map_eq_some_iff.mp entry
  have copyDir : copy = ⟨copy.ino, .directory⟩ := by
    have isTyp : copy.typ = .directory := copyTyp
    rw [← isTyp]
  have below := isCopy
  rw [isRoot, copyDir] at below
  obtain ⟨original, isPair, isOriginal⟩ := copies.original path copies.rooted below
  obtain rfl : dir = original := (StorageDirItem.mk.inj (Option.some.inj (found.symm.trans isOriginal))).1
  obtain ⟨batch, _, rfl, isDestination, copied⟩ := copies.batch_of_pair isPair
  rw [copyDir, ← isDestination] at isCopy
  apply copied.copyable
  refine ⟨?_, ?_, ?_⟩
  · intro name
    rw [← entryAt_snoc isCopy, ← entryAt_snoc found]
    exact same.entries (path ++ [name])
  · intro name item later isItem isLater
    rw [← entryAt_snoc found] at isItem
    rw [← entryAt_snoc isCopy] at isLater
    exact same.records (path ++ [name]) item later (by simp) isItem isLater
  · intro name item later isItem isLater
    rw [← entryAt_snoc found] at isItem
    rw [← entryAt_snoc isCopy] at isLater
    exact same.mappings (path ++ [name]) item later (by simp) isItem isLater

theorem Copies.same_of_original (copies : Copies cfg origin start snapshotDir.ino done [] [] low store)
    (isDir : snapshotDir.typ = .directory) (copyable : Copyable cfg origin) {path : List ByteString} {dir : StorageIno}
    (found : entryAt origin rootItem path = some ⟨dir, .directory⟩) :
    ∃ batch : Batch, batch.origin = dir ∧ batch.Same origin store ∧
      entryAt store snapshotDir path = some ⟨batch.destination, .directory⟩ := by
  have isRoot : snapshotDir = ⟨snapshotDir.ino, .directory⟩ := by rw [← isDir]
  obtain ⟨copy, isPair, isCopy⟩ := copies.copy path copies.rooted
    (fun path dir found => (copyable path dir found).limit) found
  obtain ⟨batch, _, rfl, rfl, copied⟩ := copies.batch_of_pair isPair
  refine ⟨batch, rfl, copied.same (copyable path _ found), ?_⟩
  rw [isRoot]
  exact isCopy

theorem Copies.sameTree (copies : Copies cfg origin start snapshotDir.ino done [] [] low store)
    (isDir : snapshotDir.typ = .directory) (copyable : Copyable cfg origin) : SameTree origin store snapshotDir := by
  have isRoot : snapshotDir = ⟨snapshotDir.ino, .directory⟩ := by rw [← isDir]
  refine ⟨?_, ?_, ?_⟩
  · intro path
    rcases List.eq_nil_or_concat path with rfl | ⟨front, name, rfl⟩
    · rw [entryAt, entryAt, Option.map_some, Option.map_some, isDir]
      rfl
    · rw [List.concat_eq_append]
      by_cases original : ∃ dir, entryAt origin rootItem front = some ⟨dir, .directory⟩
      · obtain ⟨dir, found⟩ := original
        obtain ⟨batch, rfl, same, isCopy⟩ := copies.same_of_original isDir copyable found
        rw [entryAt_snoc isCopy, entryAt_snoc found]
        exact same.entries name
      · have noOriginal : entryAt origin rootItem (front ++ [name]) = none := by
          by_contra some
          obtain ⟨item, isItem⟩ := Option.ne_none_iff_exists'.mp some
          obtain ⟨dir, isParent, _⟩ := entryAt_snoc_some isItem
          exact original ⟨dir, isParent⟩
        have noCopy : entryAt store snapshotDir (front ++ [name]) = none := by
          by_contra some
          obtain ⟨item, isItem⟩ := Option.ne_none_iff_exists'.mp some
          obtain ⟨dir, isParent, _⟩ := entryAt_snoc_some isItem
          rw [isRoot] at isParent
          obtain ⟨parent, _, isOriginal⟩ := copies.original front copies.rooted isParent
          exact original ⟨parent, isOriginal⟩
        rw [noOriginal, noCopy]
  · intro path item copy notEmpty isItem isCopy
    rcases List.eq_nil_or_concat path with rfl | ⟨front, name, rfl⟩
    · exact absurd rfl notEmpty
    · rw [List.concat_eq_append] at isItem isCopy
      obtain ⟨dir, found, isEntry⟩ := entryAt_snoc_some isItem
      obtain ⟨batch, rfl, same, isDirCopy⟩ := copies.same_of_original isDir copyable found
      rw [entryAt_snoc isDirCopy] at isCopy
      exact same.records name item copy isEntry isCopy
  · intro path item copy notEmpty isItem isCopy
    rcases List.eq_nil_or_concat path with rfl | ⟨front, name, rfl⟩
    · exact absurd rfl notEmpty
    · rw [List.concat_eq_append] at isItem isCopy
      obtain ⟨dir, found, isEntry⟩ := entryAt_snoc_some isItem
      obtain ⟨batch, rfl, same, isDirCopy⟩ := copies.same_of_original isDir copyable found
      rw [entryAt_snoc isDirCopy] at isCopy
      exact same.mappings name item copy isEntry isCopy

end Tree

namespace SnapshotSystem

variable {cfg : TiFsConfig} {origin : Store} {start : StorageIno}

def Alone (_ : SnapshotSystem cfg) : SnapshotEvent cfg → Prop
  | .snapshot _ => True
  | _ => False

instance (state : SnapshotSystem cfg) : ∀ event, Decidable (state.Alone event)
  | .snapshot _ => isTrue trivial
  | .other _ => isFalse id
  | .unlink _ _ => isFalse id

/-- What a call that runs alone keeps: the source, and counters that match the mappings. -/
structure Kept (origin : Store) (start : StorageIno) (state : SnapshotSystem cfg) : Prop where
  advancing : state.Advancing origin start
  clones : ∀ op ∈ state.blocks.ops, ∃ task, op = .clone task ∧ start ≤ task.dst
  source : ∀ key ino, Key.owner key = some ino → ino < start →
    (∀ name, key ≠ .directoryChild snapshotParentInode name) → state.blocks.store.lookup key = origin.lookup key
  counted : ∀ hash, counter origin hash + mapped state.blocks.store hash +
    (state.blocks.ops.map fun op => op.owed hash).sum = counter state.blocks.store hash + mapped origin hash

theorem kept_of_metaMove {state next : SnapshotSystem cfg} (kept : state.Kept origin start)
    (advancing : next.Advancing origin start) (move : MetaMove start state next) : next.Kept origin start := by
  refine ⟨advancing, ?_, ?_, ?_⟩
  · rcases move.ops with same | ⟨task, above, _, isNext⟩
    · rw [same]
      exact kept.clones
    · rw [isNext]
      intro op member
      rcases List.mem_append.mp member with old | new
      · exact kept.clones op old
      · exact ⟨task, List.mem_singleton.mp new, above⟩
  · intro key ino isOwner older notListed
    rw [move.source key ino isOwner older notListed]
    exact kept.source key ino isOwner older notListed
  · intro hash
    have all := kept.counted hash
    rw [move.owed_sum hash, mapped_congr move.mappings, counter_congr move.counters]
    exact all

theorem kept_of_clone {state next : SnapshotSystem cfg} {ambient : Ambient} {i : Nat}
    (kept : state.Kept origin start) (advancing : next.Advancing origin start) (isOp : state.phase.op = some i)
    (taken : state.blocks.Step (.advance i ambient) next.blocks) : next.Kept origin start := by
  obtain ⟨task, later, after, present, ran, move, isNext⟩ :=
    exists_cloneMove kept.advancing.progress isOp taken
  obtain ⟨above, gentle⟩ := not_overwrites_of_progress kept.advancing.progress isOp present
  have sameDst : later.dst = task.dst := (Op.clone_addresses ran).1
  refine ⟨advancing, ?_, ?_, ?_⟩
  · rw [isNext]
    intro op member
    rcases List.mem_or_eq_of_mem_set member with old | rfl
    · exact kept.clones op old
    · exact ⟨later, rfl, by rw [sameDst]; exact above⟩
  · intro key ino isOwner older notListed
    rw [isNext, ← kept.source key ino isOwner older notListed]
    apply move.frame
    · rintro hash rfl
      cases isOwner
    · rintro index rfl
      exact absurd older (Nat.not_lt.mpr (Option.some.inj isOwner ▸ above))
  · intro hash
    have all := kept.counted hash
    have changed := sum_map_set (fun op : Op cfg => op.owed hash) present (.clone later)
    have balanced := (CloneTask.balanced ran hash).2 gentle
    rw [isNext]
    simp only at changed ⊢
    omega

theorem kept_of_run (allocated : Allocated start origin) {name : ByteString} {last : SnapshotSystem cfg}
    (run : Run (Step origin) Alone ⟨⟨origin, []⟩, .fetchRoot name⟩ last) : last.Kept origin start := by
  have below : snapshotParentInode < start := Nat.lt_of_lt_of_le (by decide) allocated.reserved
  apply Run.invariant (Kept origin start) _ _ run
  · intro before event after kept taken alone
    cases event with
    | snapshot ambient =>
        have advancing := advancing_step below kept.advancing taken trivial
        obtain rfl := Option.some.inj taken
        rcases metaMove_of_move kept.advancing (move_of_advance before) with move | ⟨i, isOp, stepped, _⟩
        · exact kept_of_metaMove kept advancing move
        · exact kept_of_clone kept advancing isOp stepped
    | other event => exact alone.elim
    | unlink stage now => exact alone.elim
  · refine ⟨⟨by simp, by simp, ⟨allocated.next, allocated.unused⟩, by simp [SnapshotPhase.snapshotDir]⟩,
      by simp, fun _ _ _ _ _ => rfl, fun hash => ?_⟩
    simp

/-- Nothing that a call writes is seen from the root. -/
theorem Kept.entryAt_source {state : SnapshotSystem cfg} (kept : state.Kept origin start)
    (allocated : Allocated start origin) (path : List ByteString) {item : StorageDirItem} (older : item.ino < start)
    (apart : item.ino ≠ snapshotParentInode) :
    entryAt state.blocks.store item path = entryAt origin item path := by
  induction path generalizing item with
  | nil => rfl
  | cons name rest ih =>
      have same : dirEntry state.blocks.store item.ino name = dirEntry origin item.ino name := by
        apply kept.source (.directoryChild item.ino name) item.ino rfl older
        intro other isListed
        exact apart (Key.directoryChild.inj isListed).1
      rw [entryAt, entryAt, same]
      split
      · cases found : dirEntry origin item.ino name with
        | none => rfl
        | some child =>
            obtain ⟨isOlder, isApart⟩ := allocated.entries item.ino name child found
            exact ih isOlder isApart
      · rfl

theorem Kept.counters {state : SnapshotSystem cfg} (kept : state.Kept origin start)
    (allocated : Allocated start origin) (isDone : state.phase.op = none) (hash : TiFsHash) :
    counter state.blocks.store hash =
      counter origin hash + (mappedTo state.blocks.store hash \ mappedTo origin hash).card := by
  have free : ∀ op ∈ state.blocks.ops, op.owed hash = 0 := by
    intro op member
    obtain ⟨task, rfl, above⟩ := kept.clones op member
    obtain ⟨i, present⟩ := List.mem_iff_getElem?.mp member
    have finished : task.phase = .done := by
      by_contra running
      have older := kept.advancing.below i _ present (by rw [isDone]; simp) task.dst ⟨rfl, running⟩
      exact absurd older (Nat.not_lt.mpr above)
    simp [Op.owed, Op.owedIncrements, Op.owedDecrements, CloneTask.owedIncrements, finished]
  have noDebt : (state.blocks.ops.map fun op => op.owed hash).sum = 0 := by
    apply List.sum_eq_zero
    intro debt member
    obtain ⟨op, isOp, rfl⟩ := List.mem_map.mp member
    exact free op isOp
  have older : mappedTo origin hash ⊆ mappedTo state.blocks.store hash := by
    intro addr listed
    have found : mapping origin addr = some hash := (mem_mappedTo _ _ _).mp listed
    have below : addr.ino < start := by
      by_contra above
      have unused : mapping origin addr = none :=
        allocated.unused (.blockHash addr) addr.ino rfl (Nat.not_lt.mp above)
      rw [found] at unused
      cases unused
    apply (mem_mappedTo _ _ _).mpr
    rw [← found]
    exact kept.source (.blockHash addr) addr.ino rfl below (by simp)
  have counted := kept.counted hash
  have size : (mappedTo origin hash).card ≤ (mappedTo state.blocks.store hash).card := Finset.card_le_card older
  rw [noDebt, mapped, mapped] at counted
  rw [Finset.card_sdiff_of_subset older]
  omega

end SnapshotSystem

theorem Allocated.entryAt_bounds {origin : Store} {start : StorageIno} (allocated : Allocated start origin) (path : List ByteString)
    {item last : StorageDirItem} (older : item.ino < start ∧ item.ino ≠ snapshotParentInode)
    (found : entryAt origin item path = some last) : last.ino < start ∧ last.ino ≠ snapshotParentInode := by
  induction path generalizing item with
  | nil =>
      obtain rfl := Option.some.inj found
      exact older
  | cons name rest ih =>
      obtain ⟨_, child, isChild, later⟩ := entryAt_cons_some found
      exact ih (allocated.entries _ _ child isChild) later

/-- A snapshot that is created while nothing else runs is the same as its source exactly
if every directory of the tree can be copied as it is. The counter that it takes its inodes
from is the one of the source as long as it stays below `2 ^ 64` (`reserveU64_eq`). -/
theorem snapshot_same_as_source (cfg : TiFsConfig) (origin : Store) (start : StorageIno)
    (allocated : Allocated start origin) (name : ByteString) (last : SnapshotSystem cfg)
    (run : Run (SnapshotSystem.Step origin) SnapshotSystem.Alone ⟨⟨origin, []⟩, .fetchRoot name⟩ last)
    (snapshotDir : StorageDirItem) (returned : last.phase = .returned (.ok (.newlyCreated snapshotDir))) :
    SameAsSource origin last.blocks.store snapshotDir ↔ Copyable cfg origin := by
  have kept := SnapshotSystem.kept_of_run allocated run
  have progress := kept.advancing.progress
  rw [returned] at progress
  obtain ⟨done, low, copies⟩ := progress
  have isDir : snapshotDir.typ = .directory := kept.advancing.isDir snapshotDir (by rw [returned]; rfl)
  have isOlder : rootItem.ino < start ∧ rootItem.ino ≠ snapshotParentInode :=
    ⟨Nat.lt_of_lt_of_le (by decide) allocated.reserved, by decide⟩
  constructor
  · exact fun same => copies.copyable isDir same.toSameTree
  · intro copyable
    refine ⟨copies.sameTree isDir copyable, ?_, ?_, ?_⟩
    · exact fun path => kept.entryAt_source allocated path isOlder.1 isOlder.2
    · intro path item found key isOwner
      obtain ⟨older, apart⟩ := allocated.entryAt_bounds path isOlder found
      apply kept.source key item.ino isOwner older
      rintro entry rfl
      exact apart (Option.some.inj isOwner).symm
    · exact kept.counters allocated (by rw [returned]; rfl)

def fileWrites : List Write :=
  [.put .metaMutable ⟨11⟩, .put (.inodeX rootInode .unixAttributes) ⟨7, 0, 0, 0, 0, 0⟩,
   .put (.directoryChild rootInode [97]) ⟨10, .file⟩, .put (.inodeX 10 .description) ⟨10, .file, 0⟩,
   .put (.inodeX 10 .size) ⟨2, 1, 0⟩, .put (.blockHash ⟨10, 0⟩) (padHash 3 [7, 7]),
   .put (.hashedBlock (padHash 3 [7, 7])) [7, 7], .put (.countedNamedUsages (padHash 3 [7, 7])) 1]

def oneFile : Store := applyAll ∅ fileWrites

def linkedTwice : Store := applyAll ∅ (.put (.directoryChild rootInode [98]) ⟨10, .file⟩ :: fileWrites)

def afterRoot (origin : Store) : SnapshotSystem (paddingConfig 2 Nat.two_pos) :=
  (((⟨⟨origin, []⟩, .fetchRoot [115]⟩ : SnapshotSystem (paddingConfig 2 (by decide))).advance origin
    ⟨5, 1⟩).advance origin ⟨5, 1⟩).advance origin ⟨5, 1⟩

def SnapshotPhase.returnedDir : SnapshotPhase → Option StorageDirItem
  | .returned (.ok (.newlyCreated snapshotDir)) => some snapshotDir
  | _ => none

theorem SnapshotPhase.eq_of_returnedDir {phase : SnapshotPhase} {snapshotDir : StorageDirItem}
    (isReturned : phase.returnedDir = some snapshotDir) : phase = .returned (.ok (.newlyCreated snapshotDir)) := by
  unfold SnapshotPhase.returnedDir at isReturned
  split at isReturned
  · rw [Option.some.inj isReturned]
  · cases isReturned

theorem exists_run_of_scan {origin : Store} {items : List DirectoryItem}
    (allowed : SnapshotSystem (paddingConfig 2 (by decide)) → SnapshotEvent (paddingConfig 2 (by decide)) → Prop)
    [∀ state event, Decidable (allowed state event)]
    (first : runAll (restrict allowed (SnapshotSystem.step origin)) ⟨⟨origin, []⟩, .fetchRoot [115]⟩
      (List.replicate 3 (.snapshot ⟨5, 1⟩)) = some (afterRoot origin))
    (isRoot : (afterRoot origin).phase = .nextJob ⟨⟨11, .directory⟩, [(rootInode, 11)]⟩)
    (isScan : scannedChildren origin rootInode = items) (notEmpty : items.length ≠ 0)
    (permitted : allowed (afterRoot origin) (.snapshot ⟨5, 1⟩))
    (events : List (SnapshotEvent (paddingConfig 2 (by decide))))
    (check : SnapshotSystem (paddingConfig 2 (by decide)) → Bool)
    (ran : (runAll (restrict allowed (SnapshotSystem.step origin))
      ⟨(afterRoot origin).blocks, .reserve ⟨⟨11, .directory⟩, []⟩ 11 items⟩ events).any check = true) :
    ∃ last, Run (SnapshotSystem.Step origin) allowed ⟨⟨origin, []⟩, .fetchRoot [115]⟩ last ∧
      check last = true := by
  have scanned : (afterRoot origin).advance origin ⟨5, 1⟩ =
      ⟨(afterRoot origin).blocks, .reserve ⟨⟨11, .directory⟩, []⟩ 11 items⟩ := by
    rw [SnapshotSystem.advance, isRoot]
    simp only [SnapshotSystem.readSource, scan_run, isScan, if_neg notEmpty]
  obtain ⟨last, later, checked⟩ := Run.of_restrict (fun _ _ _ taken => taken) events check ran
  have earlier : Run (SnapshotSystem.Step origin) allowed ⟨⟨origin, []⟩, .fetchRoot [115]⟩ (afterRoot origin) := by
    refine Run.of_runAll ?_ first
    intro before event after taken
    exact restrict_eq_some taken
  rw [← scanned] at later
  exact ⟨last, (earlier.snoc (.snapshot ⟨5, 1⟩) rfl permitted).trans later, checked⟩

theorem unusedFrom_applyAll {low : StorageIno} {writes : List Write}
    (small : ∀ write ∈ writes, (write.key.owner.all fun ino => decide (ino < low)) = true) :
    UnusedFrom low (applyAll ∅ writes) := by
  intro key ino isOwner above
  by_contra present
  obtain ⟨value, found⟩ := Option.ne_none_iff_exists'.mp present
  rcases lookup_applyAll_eq_some found with none | listed
  · cases none
  · have bounded := small _ listed
    have isKey : (Mutation.put key value).key.owner = some ino := isOwner
    rw [isKey, Option.all_some] at bounded
    exact absurd (of_decide_eq_true bounded) (Nat.not_lt.mpr above)

theorem entry_linkedTwice {dir : StorageIno} {name : ByteString} {item : StorageDirItem}
    (found : dirEntry linkedTwice dir name = some item) : item = ⟨10, .file⟩ := by
  rcases lookup_applyAll_eq_some found with none | listed
  · cases none
  · simp only [fileWrites, List.mem_cons, List.not_mem_nil, or_false] at listed
    rcases listed with entry | other | other | entry | other | other | other | other | other
    · cases entry; rfl
    · cases other
    · cases other
    · cases entry; rfl
    · cases other
    · cases other
    · cases other
    · cases other
    · cases other

theorem entry_oneFile {dir : StorageIno} {name : ByteString} {item : StorageDirItem}
    (found : dirEntry oneFile dir name = some item) : dir = rootInode ∧ name = [97] ∧ item = ⟨10, .file⟩ := by
  rcases lookup_applyAll_eq_some found with none | listed
  · cases none
  · simp only [fileWrites, List.mem_cons, List.not_mem_nil, or_false] at listed
    rcases listed with other | other | entry | other | other | other | other | other
    · cases other
    · cases other
    · cases entry; exact ⟨rfl, rfl, rfl⟩
    · cases other
    · cases other
    · cases other
    · cases other
    · cases other

theorem mapping_oneFile {addr : BlockAddress} {hash : TiFsHash} (found : mapping oneFile addr = some hash) :
    addr = ⟨10, 0⟩ ∧ hash = padHash 3 [7, 7] := by
  rcases lookup_applyAll_eq_some found with none | listed
  · cases none
  · simp only [fileWrites, List.mem_cons, List.not_mem_nil, or_false] at listed
    rcases listed with other | other | other | other | other | block | other | other
    · cases other
    · cases other
    · cases other
    · cases other
    · cases other
    · cases block; exact ⟨rfl, rfl⟩
    · cases other
    · cases other

theorem allocated_oneFile : Allocated 11 oneFile where
  next := rfl
  reserved := by decide
  unused := unusedFrom_applyAll (by decide)
  entries := by
    intro dir name item found
    obtain ⟨_, _, rfl⟩ := entry_oneFile found
    decide

theorem allocated_linkedTwice : Allocated 11 linkedTwice where
  next := rfl
  reserved := by decide
  unused := unusedFrom_applyAll (by decide)
  entries := by
    intro dir name item found
    rw [entry_linkedTwice found]
    decide

theorem scanned_oneFile : scannedChildren oneFile rootInode = [⟨10, [97], .file⟩] := by
  have names : childNames oneFile rootInode = {[97]} := by decide +kernel
  rw [scannedChildren, names, Finset.sort_singleton]
  rfl

theorem scanned_linkedTwice :
    scannedChildren linkedTwice rootInode = [⟨10, [97], .file⟩, ⟨10, [98], .file⟩] := by
  have names : childNames linkedTwice rootInode = insert [97] {[98]} := by decide +kernel
  have sorted : (insert [97] {[98]} : Finset ByteString).sort NameLe = [[97], [98]] := by
    rw [Finset.sort_insert NameLe (by decide) (by decide), Finset.sort_singleton]
  rw [scannedChildren, names, sorted]
  rfl

theorem copyable_oneFile : Copyable (paddingConfig 2 (by decide)) oneFile := by
  intro path dir found
  cases path with
  | nil =>
      obtain rfl := (StorageDirItem.mk.inj (Option.some.inj found)).1
      refine ⟨by decide +kernel, ?_, ?_⟩
      · intro name other item another different isItem isAnother
        exact absurd ((entry_oneFile isItem).2.1.trans (entry_oneFile isAnother).2.1.symm) different
      · intro name item isItem index hash isMapped
        obtain ⟨_, _, rfl⟩ := entry_oneFile isItem
        obtain ⟨isAddr, rfl⟩ := mapping_oneFile isMapped
        obtain rfl := (BlockAddress.mk.inj isAddr).2
        exact ⟨rfl, rfl, ⟨2, 1, 0⟩, rfl, by decide⟩
  | cons name rest =>
      obtain ⟨_, child, isChild, later⟩ := entryAt_cons_some found
      obtain ⟨_, _, rfl⟩ := entry_oneFile isChild
      cases rest with
      | nil => cases later
      | cons next rest => cases (entryAt_cons_some later).1

/-- A file and its snapshot share a block that is counted twice. -/
theorem snapshot_same_as_source_one_file :
    Allocated 11 oneFile ∧ ∃ last : SnapshotSystem (paddingConfig 2 (by decide)),
      Run (SnapshotSystem.Step oneFile) SnapshotSystem.Alone ⟨⟨oneFile, []⟩, .fetchRoot [115]⟩ last ∧
      last.phase = .returned (.ok (.newlyCreated ⟨11, .directory⟩)) ∧
      counter last.blocks.store (padHash 3 [7, 7]) = 2 ∧
      SameAsSource oneFile last.blocks.store ⟨11, .directory⟩ := by
  obtain ⟨last, run, checked⟩ := exists_run_of_scan SnapshotSystem.Alone rfl rfl scanned_oneFile (by decide)
    trivial (List.replicate 9 (.snapshot ⟨5, 1⟩)) (fun last =>
      last.phase.returnedDir = some ⟨11, .directory⟩ ∧ counter last.blocks.store (padHash 3 [7, 7]) = 2)
    (by decide +kernel)
  obtain ⟨isReturned, isCounted⟩ := of_decide_eq_true checked
  have returned := SnapshotPhase.eq_of_returnedDir isReturned
  refine ⟨allocated_oneFile, last, run, returned, isCounted, ?_⟩
  exact (snapshot_same_as_source _ oneFile 11 allocated_oneFile [115] last run _ returned).mpr copyable_oneFile

/-- The copy under the second name of a file has no description. -/
theorem snapshot_drops_description :
    Allocated 11 linkedTwice ∧ ∃ last : SnapshotSystem (paddingConfig 2 (by decide)),
      Run (SnapshotSystem.Step linkedTwice) SnapshotSystem.Alone ⟨⟨linkedTwice, []⟩, .fetchRoot [115]⟩ last ∧
      last.phase = .returned (.ok (.newlyCreated ⟨11, .directory⟩)) ∧
      ¬ SameAsSource linkedTwice last.blocks.store ⟨11, .directory⟩ := by
  obtain ⟨last, run, checked⟩ := exists_run_of_scan SnapshotSystem.Alone rfl rfl scanned_linkedTwice (by decide)
    trivial (List.replicate 13 (.snapshot ⟨5, 1⟩)) (fun last =>
      last.phase.returnedDir = some ⟨11, .directory⟩ ∧
        entryAt last.blocks.store ⟨11, .directory⟩ [[98]] = some ⟨13, .file⟩ ∧
        (last.blocks.store.lookup (.inodeX 13 .description)).isNone) (by decide +kernel)
  obtain ⟨isReturned, isEntry, noDescription⟩ := of_decide_eq_true checked
  have returned := SnapshotPhase.eq_of_returnedDir isReturned
  refine ⟨allocated_linkedTwice, last, run, returned, ?_⟩
  intro same
  have described := same.records [[98]] ⟨10, .file⟩ ⟨13, .file⟩ (by simp) rfl isEntry
    .description (by decide)
  rw [Option.isNone_iff_eq_none.mp noDescription] at described
  cases described

end TiFs
