import TiFs.Links
import TiFs.Snapshot

namespace TiFs

open KeyValue Tables

section Links

variable {destination : ParentStorageIno} {srcDstMapping : List (DirectoryItem × StorageIno)}

def linkWrites (destination : ParentStorageIno) (srcDstMapping : List (DirectoryItem × StorageIno)) :
    List Write :=
  srcDstMapping.flatMap fun child => addedLinks destination child.1.name ⟨child.2, child.1.typ⟩

theorem linkChildren_run (txn : Txn Key.Value) :
    linkChildren destination srcDstMapping txn = .ok ((), txn.mutate (linkWrites destination srcDstMapping)) := by
  induction srcDstMapping generalizing txn with
  | nil =>
      simp only [linkWrites, List.flatMap_nil, Txn.mutate, List.append_nil]
      rfl
  | cons child rest ih =>
      have first : directoryAddChildLinkUnchecked destination child.1.name ⟨child.2, child.1.typ⟩ txn =
          .ok ((), txn.mutate (addedLinks destination child.1.name ⟨child.2, child.1.typ⟩)) :=
        addLink_run _
      simp only [linkChildren, List.foldlM_cons]
      rw [bind_ok first]
      rw [linkWrites, List.flatMap_cons, ← Txn.mutate_mutate]
      exact ih _

theorem dirEntry_linked_of_mem (store : Store) (distinct : (srcDstMapping.map fun child => child.1.name).Nodup)
    {child : DirectoryItem × StorageIno} (member : child ∈ srcDstMapping) :
    dirEntry (applyAll store (linkWrites destination srcDstMapping)) destination child.1.name =
      some ⟨child.2, child.1.typ⟩ := by
  induction srcDstMapping using List.reverseRecOn with
  | nil => cases member
  | append_singleton front last ih =>
      rw [linkWrites, List.flatMap_append, applyAll_append, List.flatMap_singleton, dirEntry_addedLinks]
      rw [List.map_append, List.map_singleton] at distinct
      rcases List.mem_append.mp member with inFront | isLast
      · have different : child.1.name ≠ last.1.name := by
          intro same
          have disjoint := (List.nodup_append.mp distinct).2.2
          exact disjoint _ (List.mem_map_of_mem inFront) _ (List.mem_singleton_self _) same
        rw [if_neg (by simpa using different)]
        exact ih (List.nodup_append.mp distinct).1 inFront
      · rw [List.mem_singleton.mp isLast, if_pos rfl]

theorem dirEntry_linked_of_notMem (store : Store) {parent : ParentStorageIno} {name : ByteString}
    (other : parent ≠ destination ∨ name ∉ srcDstMapping.map fun child => child.1.name) :
    dirEntry (applyAll store (linkWrites destination srcDstMapping)) parent name =
      dirEntry store parent name := by
  apply lookup_applyAll_of_notMem
  intro listed
  obtain ⟨write, member, isKey⟩ := List.mem_map.mp listed
  obtain ⟨child, inMapping, inLinks⟩ := List.mem_flatMap.mp member
  rcases List.mem_cons.mp inLinks with rfl | isEntry
  · cases isKey
  · rw [List.mem_singleton.mp isEntry] at isKey
    obtain ⟨rfl, rfl⟩ := Key.directoryChild.inj isKey
    rcases other with different | absent
    · exact different rfl
    · exact absent (List.mem_map_of_mem inMapping)

theorem lookup_linked (store : Store) {key : Key} (noEntry : ∀ name, key ≠ .directoryChild destination name)
    (noLink : ∀ ino name, key ≠ .parentLink ino destination name) :
    (applyAll store (linkWrites destination srcDstMapping)).lookup key = store.lookup key := by
  apply lookup_applyAll_of_notMem
  intro listed
  obtain ⟨write, member, isKey⟩ := List.mem_map.mp listed
  obtain ⟨child, _, inLinks⟩ := List.mem_flatMap.mp member
  rcases List.mem_cons.mp inLinks with rfl | isEntry
  · exact noLink _ _ isKey.symm
  · rw [List.mem_singleton.mp isEntry] at isKey
    exact noEntry _ isKey.symm

end Links

section Records

variable {src dst : StorageIno} {maps : AttrMaps} {txn : Txn Key.Value}

structure Moved (kinds : List InoMetadata) (src dst : StorageIno) (maps rest : AttrMaps)
    (txn after : Txn Key.Value) : Prop where
  taken : ∀ kind ino, (rest kind).lookup ino =
    if kind ∈ kinds ∧ ino = src then none else (maps kind).lookup ino
  written : ∀ kind ∈ kinds, after.view.lookup (.inodeX dst kind) =
    (((maps kind).lookup src).map (renumber dst kind)).or (txn.view.lookup (.inodeX dst kind))
  frame : ∀ key, (∀ kind ∈ kinds, key ≠ .inodeX dst kind) → after.view.lookup key = txn.view.lookup key

theorem cloneRemoved_spec (src dst : StorageIno) (maps : AttrMaps) (kind : InoMetadata)
    (txn : Txn Key.Value) : ∃ rest after, cloneRemoved src dst maps kind txn = .ok (rest, after) ∧
      Moved [kind] src dst maps rest txn after := by
  cases found : (maps kind).lookup src with
  | none =>
      refine ⟨maps, txn, ?_, ?_, ?_, ?_⟩
      · simp only [cloneRemoved, found]
        rfl
      · intro other ino
        split
        · next same =>
            obtain ⟨isKind, rfl⟩ := same
            rw [List.mem_singleton.mp isKind, found]
        · rfl
      · intro other isKind
        rw [List.mem_singleton.mp isKind, found]
        rfl
      · exact fun _ _ => rfl
  | some value =>
      refine ⟨Function.update maps kind ((maps kind).erase src),
        txn.mutate [Mutation.put (.inodeX dst kind) (renumber dst kind value)], ?_, ?_, ?_, ?_⟩
      · simp only [cloneRemoved, found]
        rfl
      · intro other ino
        by_cases same : other = kind
        · subst same
          rw [Function.update_self]
          by_cases isSrc : ino = src
          · rw [isSrc, if_pos ⟨List.mem_singleton_self _, rfl⟩, AList.lookup_erase]
          · rw [if_neg (fun both => isSrc both.2), AList.lookup_erase_ne isSrc]
        · rw [Function.update_of_ne same, if_neg (fun both => same (List.mem_singleton.mp both.1))]
      · intro other isKind
        obtain rfl := List.mem_singleton.mp isKind
        rw [Txn.view_mutate, found]
        exact lookup_put_self txn.view _ _
      · intro key different
        rw [Txn.view_mutate]
        exact lookup_put_of_ne txn.view _ key _ (different kind (List.mem_singleton_self _))

theorem Moved.trans {kind : InoMetadata} {kinds : List InoMetadata} {between rest : AttrMaps}
    {middle after : Txn Key.Value} (first : Moved [kind] src dst maps between txn middle)
    (second : Moved kinds src dst between rest middle after) (new : kind ∉ kinds) :
    Moved (kind :: kinds) src dst maps rest txn after where
  taken := by
    intro other ino
    rw [second.taken, first.taken]
    by_cases isSrc : ino = src
    · by_cases inRest : other ∈ kinds
      · rw [if_pos ⟨inRest, isSrc⟩, if_pos ⟨List.mem_cons_of_mem _ inRest, isSrc⟩]
      · rw [if_neg (fun both => inRest both.1)]
        by_cases isKind : other = kind
        · rw [if_pos ⟨by simp [isKind], isSrc⟩, if_pos ⟨by simp [isKind], isSrc⟩]
        · rw [if_neg (fun both => isKind (List.mem_singleton.mp both.1)),
            if_neg (fun both => (List.mem_cons.mp both.1).elim isKind inRest)]
    · rw [if_neg (fun both => isSrc both.2), if_neg (fun both => isSrc both.2),
        if_neg (fun both => isSrc both.2)]
  written := by
    intro other listed
    rcases List.mem_cons.mp listed with isKind | inRest
    · rw [isKind, second.frame]
      · exact first.written kind (List.mem_singleton_self _)
      · intro later inLater same
        obtain ⟨_, rfl⟩ := Key.inodeX.inj same
        exact new inLater
    · have different : other ≠ kind := fun same => new (same ▸ inRest)
      rw [second.written other inRest, first.taken, first.frame]
      · rw [if_neg (fun both => different (List.mem_singleton.mp both.1))]
      · intro later inLater same
        rw [List.mem_singleton.mp inLater] at same
        exact different (Key.inodeX.inj same).2
  frame := by
    intro key outside
    rw [second.frame key (fun later inLater => outside later (List.mem_cons_of_mem _ inLater)),
      first.frame key (fun later inLater => outside later (by simp [List.mem_singleton.mp inLater]))]

theorem cloneRemoved_all (src dst : StorageIno) (kinds : List InoMetadata) (distinct : kinds.Nodup)
    (maps : AttrMaps) (txn : Txn Key.Value) :
    ∃ rest after, kinds.foldlM (cloneRemoved src dst) maps txn = .ok (rest, after) ∧
      Moved kinds src dst maps rest txn after := by
  induction kinds generalizing maps txn with
  | nil =>
      refine ⟨maps, txn, rfl, ?_, ?_, ?_⟩
      · exact fun _ _ => rfl
      · exact fun _ listed => absurd listed List.not_mem_nil
      · exact fun _ _ => rfl
  | cons kind kinds ih =>
      obtain ⟨new, restDistinct⟩ := List.nodup_cons.mp distinct
      obtain ⟨between, middle, first, moved⟩ := cloneRemoved_spec src dst maps kind txn
      obtain ⟨rest, after, later, movedLater⟩ := ih restDistinct between middle
      refine ⟨rest, after, ?_, moved.trans movedLater new⟩
      rw [List.foldlM_cons, bind_ok first]
      exact later

structure Cloned (src dst : StorageIno) (maps rest : AttrMaps) (txn after : Txn Key.Value) : Prop where
  taken : ∀ kind ino, (rest kind).lookup ino =
    if kind ∈ removedKinds ∧ ino = src then none else (maps kind).lookup ino
  written : ∀ kind ∈ clonedKinds, after.view.lookup (.inodeX dst kind) =
    (((maps kind).lookup src).map (renumber dst kind)).or (txn.view.lookup (.inodeX dst kind))
  frame : ∀ key, (∀ kind, key ≠ .inodeX dst kind) → after.view.lookup key = txn.view.lookup key
  fresh : ∀ kind ∉ clonedKinds, after.view.lookup (.inodeX dst kind) = txn.view.lookup (.inodeX dst kind)

theorem mem_clonedKinds {kind : InoMetadata} : kind ∈ clonedKinds ↔ kind ∈ removedKinds ∨ kind = .size := by
  cases kind <;> decide

theorem cloneInode_spec (maps : AttrMaps) (child : DirectoryItem × StorageIno) (txn : Txn Key.Value) :
    ∃ rest after, cloneInode maps child txn = .ok (rest, after) ∧
      Cloned child.1.ino child.2 maps rest txn after := by
  obtain ⟨rest, middle, removed, moved⟩ := cloneRemoved_all child.1.ino child.2
    removedKinds (by decide) maps txn
  have sizeKept : (rest .size).lookup child.1.ino = (maps .size).lookup child.1.ino := by
    rw [moved.taken, if_neg (fun both => absurd both.1 (by decide))]
  have sizeThere : middle.view.lookup (.inodeX child.2 .size) = txn.view.lookup (.inodeX child.2 .size) := by
    apply moved.frame
    intro kind isKind same
    rw [← (Key.inodeX.inj same).2] at isKind
    exact absurd isKind (by decide)
  have isOther : ∀ kind ∉ clonedKinds, middle.view.lookup (.inodeX child.2 kind) =
      txn.view.lookup (.inodeX child.2 kind) := by
    intro kind notCloned
    apply moved.frame
    intro other isKind same
    rw [← (Key.inodeX.inj same).2] at isKind
    exact notCloned (mem_clonedKinds.mpr (Or.inl isKind))
  cases found : (maps .size).lookup child.1.ino with
  | none =>
      refine ⟨rest, middle, ?_, moved.taken, ?_, ?_, isOther⟩
      · rw [cloneInode, bind_ok removed]
        simp only [sizeKept, found]
        rfl
      · intro kind isCloned
        rcases mem_clonedKinds.mp isCloned with isRemoved | rfl
        · exact moved.written kind isRemoved
        · rw [found, sizeThere]
          rfl
      · exact fun key outside => moved.frame key fun kind _ => outside kind
  | some value =>
      refine ⟨rest, middle.mutate [Mutation.put (.inodeX child.2 .size) value], ?_, moved.taken, ?_, ?_, ?_⟩
      · rw [cloneInode, bind_ok removed]
        simp only [sizeKept, found]
        rfl
      · intro kind isCloned
        rw [Txn.view_mutate]
        rcases mem_clonedKinds.mp isCloned with isRemoved | rfl
        · rw [← moved.written kind isRemoved]
          apply lookup_put_of_ne
          intro same
          rw [(Key.inodeX.inj same).2] at isRemoved
          exact absurd isRemoved (by decide)
        · rw [found]
          exact lookup_put_self _ _ _
      · intro key outside
        rw [Txn.view_mutate, ← moved.frame key fun kind _ => outside kind]
        exact lookup_put_of_ne _ _ _ _ (outside .size)
      · intro kind notCloned
        rw [Txn.view_mutate, ← isOther kind notCloned]
        apply lookup_put_of_ne
        intro same
        rw [(Key.inodeX.inj same).2] at notCloned
        exact notCloned (by decide)

def clonedRecord (maps : AttrMaps) (before : List StorageIno) (src dst : StorageIno) (kind : InoMetadata) :
    Option kind.Value :=
  if kind ∈ removedKinds ∧ src ∈ before then none
  else ((maps kind).lookup src).map (renumber dst kind)

theorem Cloned.record_cons {rest : AttrMaps} {after : Txn Key.Value}
    (cloned : Cloned src dst maps rest txn after) (before : List StorageIno) (ino other : StorageIno)
    (kind : InoMetadata) : clonedRecord rest before ino other kind = clonedRecord maps (src :: before) ino other kind := by
  unfold clonedRecord
  rw [cloned.taken]
  by_cases removed : kind ∈ removedKinds
  · by_cases earlier : ino ∈ before
    · rw [if_pos ⟨removed, earlier⟩, if_pos ⟨removed, List.mem_cons_of_mem _ earlier⟩]
    · rw [if_neg (fun both => earlier both.2)]
      by_cases same : ino = src
      · rw [if_pos ⟨removed, same⟩, if_pos ⟨removed, by simp [same]⟩]
        rfl
      · rw [if_neg (fun both => same both.2),
          if_neg (fun both => (List.mem_cons.mp both.2).elim same earlier)]
  · rw [if_neg (fun both => removed both.1), if_neg (fun both => removed both.1),
      if_neg (fun both => removed both.1)]

theorem inodeCloneAttrs_spec (maps : AttrMaps) (srcDstMapping : List (DirectoryItem × StorageIno))
    (distinct : (srcDstMapping.map Prod.snd).Nodup) (txn : Txn Key.Value) :
    ∃ rest after, inodeCloneAttrs maps srcDstMapping txn = .ok (rest, after) ∧
      (∀ ino, (rest .size).lookup ino = (maps .size).lookup ino) ∧
      (∀ front child back, srcDstMapping = front ++ child :: back → ∀ kind ∈ clonedKinds,
        after.view.lookup (.inodeX child.2 kind) =
          (clonedRecord maps (front.map fun other => other.1.ino) child.1.ino child.2 kind).or
            (txn.view.lookup (.inodeX child.2 kind))) ∧
      (∀ key, (∀ child ∈ srcDstMapping, ∀ kind ∈ clonedKinds, key ≠ .inodeX child.2 kind) →
        after.view.lookup key = txn.view.lookup key) := by
  induction srcDstMapping generalizing maps txn with
  | nil =>
      refine ⟨maps, txn, rfl, fun _ => rfl, ?_, fun _ _ => rfl⟩
      intro front child back split
      cases front <;> cases split
  | cons head tail ih =>
      rw [List.map_cons, List.nodup_cons] at distinct
      obtain ⟨between, middle, first, cloned⟩ := cloneInode_spec maps head txn
      obtain ⟨rest, after, later, sizes, records, frame⟩ := ih between distinct.2 middle
      refine ⟨rest, after, ?_, ?_, ?_, ?_⟩
      · rw [inodeCloneAttrs, List.foldlM_cons, bind_ok first]
        exact later
      · intro ino
        rw [sizes ino, cloned.taken, if_neg (fun both => absurd both.1 (by decide))]
      · intro front child back split kind isCloned
        cases front with
        | nil =>
            obtain ⟨rfl, rfl⟩ := List.cons.inj split
            rw [frame, cloned.written kind isCloned]
            · simp [clonedRecord]
            · intro other member otherKind _ same
              exact distinct.1 ((Key.inodeX.inj same).1 ▸ List.mem_map_of_mem member)
        | cons second front =>
            obtain ⟨rfl, rfl⟩ := List.cons.inj split
            have different : child.2 ≠ head.2 := by
              intro same
              exact distinct.1 (same ▸ List.mem_map_of_mem (by simp))
            rw [records front child back rfl kind isCloned, cloned.frame]
            · rw [cloned.record_cons]
              rfl
            · intro otherKind same
              exact different (Key.inodeX.inj same).1
      · intro key outside
        rw [frame key fun child member => outside child (List.mem_cons_of_mem _ member)]
        by_cases isHead : ∃ kind, key = .inodeX head.2 kind
        · obtain ⟨kind, rfl⟩ := isHead
          apply cloned.fresh
          intro isCloned
          exact outside head List.mem_cons_self kind isCloned rfl
        · exact cloned.frame key fun kind same => isHead ⟨kind, same⟩

end Records

theorem lookup_parseInodeAttrs (src : Store) {inos : List StorageIno} {ino : StorageIno} (listed : ino ∈ inos)
    {kind : InoMetadata} (isCloned : kind ∈ clonedKinds) :
    (parseInodeAttrsKvPairs src inos kind).lookup ino = src.lookup (.inodeX ino kind) := by
  rw [parseInodeAttrsKvPairs, if_pos isCloned]
  exact (lookup_collect_graph inos (fun ino => src.lookup (.inodeX ino kind)) ino).trans (if_pos listed)

theorem reserve_many (cfg : TiFsConfig) (count : Nat) {store : Store} {dynMeta : MetaMutable}
    (stored : store.lookup .metaMutable = some dynMeta) :
    atomically (metaMutableReserveNewInos cfg count) store =
      .ok (dynMeta.inodeNext, applyAll store [Mutation.put .metaMutable ⟨dynMeta.inodeNext + count⟩]) := by
  have read : fetchTry .metaMutable ⟨store, []⟩ = .ok (some dynMeta, ⟨store, []⟩) := by
    rw [← stored]
    rfl
  rw [atomically, metaMutableReserveNewInos, bind_ok read]
  rfl

end TiFs
