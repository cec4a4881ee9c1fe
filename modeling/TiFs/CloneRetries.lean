import TiFs.SnapshotRecords

/-! `inode_clone_attrs` when commits fail. The records of the originals are read once, and
an attempt takes all but the sizes out of the maps that hold them; the next attempt starts
from what is left. -/

namespace TiFs

open KeyValue Tables

/-- The attempts of a call. A commit that fails loses its writes and leaves the maps as they
are; `failed` are the stores that such attempts find, `store` is the one of the last. -/
def inodeCloneAttrsRetried (srcDstMapping : List (DirectoryItem × StorageIno)) :
    List Store → Store → AttrMaps → Except FsError (AttrMaps × List Write)
  | [], store, maps =>
      match inodeCloneAttrs maps srcDstMapping ⟨store, []⟩ with
      | .ok (rest, txn) => .ok (rest, txn.buffer)
      | .error issue => .error issue
  | seen :: failed, store, maps =>
      match inodeCloneAttrs maps srcDstMapping ⟨seen, []⟩ with
      | .ok (rest, _) => inodeCloneAttrsRetried srcDstMapping failed store rest
      | .error issue => .error issue

def inodeCloneAttrsCommitted (origin : Store) (srcDstMapping : List (DirectoryItem × StorageIno))
    (failed : List Store) (store : Store) : Except FsError (AttrMaps × List Write) :=
  inodeCloneAttrsRetried srcDstMapping failed store
    (parseInodeAttrsKvPairs origin (srcDstMapping.map fun child => child.1.ino))

/-- What is committed is a copy of every record that an original has, and nothing else. -/
structure RecordsCommitted (origin : Store) (srcDstMapping : List (DirectoryItem × StorageIno))
    (committed : Store) : Prop where
  copied : ∀ child ∈ srcDstMapping, ∀ kind ∈ clonedKinds, committed.lookup (.inodeX child.2 kind) =
    (origin.lookup (.inodeX child.1.ino kind)).map (renumber child.2 kind)
  only : ∀ key, (∀ child ∈ srcDstMapping, ∀ kind ∈ clonedKinds, key ≠ .inodeX child.2 kind) →
    committed.lookup key = none

section Attempt

variable {srcDstMapping : List (DirectoryItem × StorageIno)}

theorem cloneRemoved_writes (src dst : StorageIno) (maps : AttrMaps) (kind : InoMetadata) :
    ∃ rest writes, ∀ txn, cloneRemoved src dst maps kind txn = .ok (rest, txn.mutate writes) := by
  cases found : (maps kind).lookup src with
  | none =>
      refine ⟨maps, [], ?_⟩
      intro txn
      simp only [cloneRemoved, found, Txn.mutate, List.append_nil]
      rfl
  | some value =>
      refine ⟨Function.update maps kind ((maps kind).erase src),
        [Mutation.put (.inodeX dst kind) (renumber dst kind value)], ?_⟩
      intro txn
      simp only [cloneRemoved, found]
      rfl

theorem foldlM_writes {A B : Type} {body : A → B → Mini A} {items : List B}
    (each : ∀ value, ∀ item ∈ items, ∃ rest writes, ∀ txn, body value item txn = .ok (rest, txn.mutate writes))
    (value : A) : ∃ rest writes, ∀ txn, items.foldlM body value txn = .ok (rest, txn.mutate writes) := by
  induction items generalizing value with
  | nil =>
      refine ⟨value, [], ?_⟩
      intro txn
      rw [Txn.mutate, List.append_nil]
      rfl
  | cons head tail ih =>
      obtain ⟨between, first, ran⟩ := each value head List.mem_cons_self
      obtain ⟨rest, second, later⟩ := ih (fun value item member => each value item (List.mem_cons_of_mem _ member))
        between
      refine ⟨rest, first ++ second, ?_⟩
      intro txn
      rw [List.foldlM_cons, bind_ok (ran txn), later, Txn.mutate_mutate]

theorem cloneInode_writes (maps : AttrMaps) (child : DirectoryItem × StorageIno) :
    ∃ rest writes, ∀ txn, cloneInode maps child txn = .ok (rest, txn.mutate writes) := by
  obtain ⟨rest, first, removed⟩ : ∃ rest first, ∀ txn, removedKinds.foldlM (cloneRemoved child.1.ino child.2)
      maps txn = .ok (rest, txn.mutate first) :=
    foldlM_writes (fun maps kind _ => cloneRemoved_writes _ _ maps kind) maps
  cases found : (rest .size).lookup child.1.ino with
  | none =>
      refine ⟨rest, first, ?_⟩
      intro txn
      rw [cloneInode, bind_ok (removed txn)]
      simp only [found]
      rfl
  | some value =>
      refine ⟨rest, first ++ [Mutation.put (.inodeX child.2 .size) value], ?_⟩
      intro txn
      rw [cloneInode, bind_ok (removed txn)]
      simp only [found]
      rw [← Txn.mutate_mutate]
      rfl

theorem inodeCloneAttrs_writes (maps : AttrMaps) :
    ∃ rest writes, ∀ txn, inodeCloneAttrs maps srcDstMapping txn = .ok (rest, txn.mutate writes) :=
  foldlM_writes (fun maps child _ => cloneInode_writes maps child) maps

/-- After an attempt only the sizes are left of the records of the originals. -/
theorem inodeCloneAttrs_taken {maps rest : AttrMaps} {txn after : Txn Key.Value}
    (ran : inodeCloneAttrs maps srcDstMapping txn = .ok (rest, after)) (kind : InoMetadata) (ino : StorageIno) :
    (rest kind).lookup ino =
      if kind ∈ removedKinds ∧ ino ∈ srcDstMapping.map (fun child => child.1.ino) then none
      else (maps kind).lookup ino := by
  induction srcDstMapping generalizing maps txn with
  | nil =>
      obtain ⟨rfl, _⟩ := Prod.mk.inj (Except.ok.inj ran)
      rw [if_neg (fun both => absurd both.2 List.not_mem_nil)]
  | cons head tail ih =>
      obtain ⟨between, middle, first, cloned⟩ := cloneInode_spec maps head txn
      rw [inodeCloneAttrs, List.foldlM_cons, bind_ok first] at ran
      rw [ih ran, cloned.taken]
      by_cases removed : kind ∈ removedKinds
      · by_cases later : ino ∈ tail.map fun child => child.1.ino
        · rw [if_pos ⟨removed, later⟩, if_pos ⟨removed, List.mem_cons_of_mem _ later⟩]
        · rw [if_neg (fun both => later both.2)]
          by_cases isHead : ino = head.1.ino
          · rw [if_pos ⟨removed, isHead⟩, if_pos ⟨removed, by simp [isHead]⟩]
          · rw [if_neg (fun both => isHead both.2),
              if_neg (fun both => (List.mem_cons.mp both.2).elim isHead later)]
      · rw [if_neg (fun both => removed both.1), if_neg (fun both => removed both.1),
          if_neg (fun both => removed both.1)]

end Attempt

section Call

variable {origin : Store} {srcDstMapping : List (DirectoryItem × StorageIno)}

structure MapsCommitted (maps : AttrMaps) (srcDstMapping : List (DirectoryItem × StorageIno))
    (committed : Store) : Prop where
  copied : ∀ child ∈ srcDstMapping, ∀ kind ∈ clonedKinds, committed.lookup (.inodeX child.2 kind) =
    ((maps kind).lookup child.1.ino).map (renumber child.2 kind)
  only : ∀ key, (∀ child ∈ srcDstMapping, ∀ kind ∈ clonedKinds, key ≠ .inodeX child.2 kind) →
    committed.lookup key = none

theorem committed_last (distinct : (srcDstMapping.map fun child => child.1.ino).Nodup)
    (fresh : (srcDstMapping.map Prod.snd).Nodup) (store : Store) (maps : AttrMaps) :
    ∃ rest writes, inodeCloneAttrsRetried srcDstMapping [] store maps = .ok (rest, writes) ∧
      MapsCommitted maps srcDstMapping (applyAll ∅ writes) := by
  obtain ⟨rest, writes, ran⟩ := @inodeCloneAttrs_writes srcDstMapping maps
  obtain ⟨_, after, alone, _, records, frame⟩ := inodeCloneAttrs_spec maps srcDstMapping fresh ⟨∅, []⟩
  rw [ran] at alone
  have isView : after.view = applyAll ∅ writes := by
    rw [← (Prod.mk.inj (Except.ok.inj alone)).2, Txn.view_mutate]
    rfl
  rw [isView] at records frame
  refine ⟨rest, writes, ?_, ?_, fun key outside => frame key outside⟩
  · simp only [inodeCloneAttrsRetried, ran]
    rfl
  · intro child member kind isCloned
    obtain ⟨front, back, isSplit⟩ := List.append_of_mem member
    have notBefore : child.1.ino ∉ front.map fun other => other.1.ino := by
      rw [isSplit, List.map_append, List.map_cons] at distinct
      intro earlier
      exact (List.nodup_append.mp distinct).2.2 _ earlier _ List.mem_cons_self rfl
    rw [records front child back isSplit kind isCloned, clonedRecord, if_neg fun both => notBefore both.2]
    exact Option.or_none

/-- The maps that the last attempt finds: as they were read, or with the sizes only. -/
theorem retried_maps (failed : List Store) (store : Store) (maps : AttrMaps) :
    ∃ found, inodeCloneAttrsRetried srcDstMapping failed store maps =
        inodeCloneAttrsRetried srcDstMapping [] store found ∧
      ∀ kind ino, ino ∈ srcDstMapping.map (fun child => child.1.ino) → (found kind).lookup ino =
        if kind ∈ removedKinds ∧ failed ≠ [] then none else (maps kind).lookup ino := by
  induction failed generalizing maps with
  | nil =>
      refine ⟨maps, rfl, ?_⟩
      intro kind ino _
      rw [if_neg fun both => both.2 rfl]
  | cons seen failed ih =>
      obtain ⟨rest, writes, ran⟩ := @inodeCloneAttrs_writes srcDstMapping maps
      obtain ⟨found, later, left⟩ := ih rest
      refine ⟨found, ?_, ?_⟩
      · rw [← later, inodeCloneAttrsRetried, ran]
      · intro kind ino isSource
        have taken := inodeCloneAttrs_taken (ran ⟨seen, []⟩) kind ino
        by_cases removed : kind ∈ removedKinds
        · rw [if_pos ⟨removed, isSource⟩] at taken
          rw [left kind ino isSource, taken, ite_self, if_pos ⟨removed, List.cons_ne_nil _ _⟩]
        · rw [if_neg fun both => removed both.1] at taken
          rw [left kind ino isSource, taken, if_neg fun both => removed both.1, if_neg fun both => removed both.1]

/-- The attempts commit what one attempt would have committed exactly if no commit failed,
or no original has a record that an attempt takes out of its map. -/
theorem clone_retried_iff (origin : Store) (srcDstMapping : List (DirectoryItem × StorageIno))
    (failed : List Store) (store : Store) (distinct : (srcDstMapping.map fun child => child.1.ino).Nodup)
    (fresh : (srcDstMapping.map Prod.snd).Nodup) :
    ∃ rest writes restAtOnce writesAtOnce,
      inodeCloneAttrsCommitted origin srcDstMapping failed store = .ok (rest, writes) ∧
      inodeCloneAttrsCommitted origin srcDstMapping [] store = .ok (restAtOnce, writesAtOnce) ∧
      RecordsCommitted origin srcDstMapping (applyAll ∅ writesAtOnce) ∧
      (applyAll ∅ writes = applyAll ∅ writesAtOnce ↔
        failed = [] ∨ ∀ child ∈ srcDstMapping, ∀ kind ∈ removedKinds,
          origin.lookup (.inodeX child.1.ino kind) = none) := by
  obtain ⟨found, isFound, left⟩ := @retried_maps srcDstMapping failed store
    (parseInodeAttrsKvPairs origin (srcDstMapping.map fun child => child.1.ino))
  obtain ⟨rest, writes, ran, committed⟩ := committed_last distinct fresh store found
  obtain ⟨restAtOnce, writesAtOnce, ranAtOnce, atOnce⟩ := committed_last distinct fresh store
    (parseInodeAttrsKvPairs origin (srcDstMapping.map fun child => child.1.ino))
  have isSource : ∀ child ∈ srcDstMapping, child.1.ino ∈ srcDstMapping.map fun child => child.1.ino :=
    fun child member => List.mem_map_of_mem member
  have copied : RecordsCommitted origin srcDstMapping (applyAll ∅ writesAtOnce) := by
    refine ⟨?_, atOnce.only⟩
    intro child member kind isCloned
    rw [atOnce.copied child member kind isCloned, lookup_parseInodeAttrs origin (isSource child member) isCloned]
  refine ⟨rest, writes, restAtOnce, writesAtOnce, isFound.trans ran, ranAtOnce, copied, ?_⟩
  have later : ∀ child ∈ srcDstMapping, ∀ kind ∈ clonedKinds,
      (applyAll ∅ writes).lookup (.inodeX child.2 kind) = if kind ∈ removedKinds ∧ failed ≠ [] then none
        else (origin.lookup (.inodeX child.1.ino kind)).map (renumber child.2 kind) := by
    intro child member kind isCloned
    rw [committed.copied child member kind isCloned, left kind _ (isSource child member),
      lookup_parseInodeAttrs origin (isSource child member) isCloned]
    split
    · rfl
    · rfl
  constructor
  · intro same
    by_cases none : failed = []
    · exact Or.inl none
    · refine Or.inr ?_
      intro child member kind removed
      have isCloned : kind ∈ clonedKinds := mem_clonedKinds.mpr (Or.inl removed)
      have lost := later child member kind isCloned
      rw [if_pos ⟨removed, none⟩, same, copied.copied child member kind isCloned] at lost
      exact Option.map_eq_none_iff.mp lost
  · intro condition
    apply Finmap.ext_lookup
    intro key
    by_cases isRecord : ∃ child ∈ srcDstMapping, ∃ kind ∈ clonedKinds, key = .inodeX child.2 kind
    · obtain ⟨child, member, kind, isCloned, rfl⟩ := isRecord
      rw [later child member kind isCloned, copied.copied child member kind isCloned]
      split
      · next lost =>
          rw [condition.resolve_left lost.2 child member kind lost.1]
          rfl
      · rfl
    · have outside : ∀ child ∈ srcDstMapping, ∀ kind ∈ clonedKinds, key ≠ .inodeX child.2 kind :=
        fun child member kind isCloned same => isRecord ⟨child, member, kind, isCloned, same⟩
      rw [committed.only key outside, copied.only key outside]

end Call

def sizeOnly : Store := applyAll ∅ [Mutation.put (.inodeX 10 .size) ⟨2, 1, 0⟩]

/-- One commit fails, and the size is committed all the same. -/
theorem clone_retried_size : ∃ rest writes,
    inodeCloneAttrsCommitted sizeOnly [(⟨10, [97], .file⟩, 20)] [∅] ∅ = .ok (rest, writes) ∧
      RecordsCommitted sizeOnly [(⟨10, [97], .file⟩, 20)] (applyAll ∅ writes) := by
  obtain ⟨rest, writes, restAtOnce, writesAtOnce, ran, _, committed, same⟩ :=
    clone_retried_iff sizeOnly [(⟨10, [97], .file⟩, 20)] [∅] ∅ (by decide) (by decide)
  refine ⟨rest, writes, ran, ?_⟩
  rw [same.mpr (Or.inr (by decide +kernel))]
  exact committed

def describedFile : Store := applyAll ∅
  [Mutation.put (.inodeX 10 .description) ⟨10, .file, 0⟩, Mutation.put (.inodeX 10 .size) ⟨2, 1, 0⟩]

/-- One commit fails, and the copy has no description. -/
theorem description_lost :
    ¬ ∀ (origin : Store) (srcDstMapping : List (DirectoryItem × StorageIno)) (failed : List Store) (store : Store),
      (srcDstMapping.map fun child => child.1.ino).Nodup → (srcDstMapping.map Prod.snd).Nodup →
      ∀ rest writes restAtOnce writesAtOnce,
        inodeCloneAttrsCommitted origin srcDstMapping failed store = .ok (rest, writes) →
        inodeCloneAttrsCommitted origin srcDstMapping [] store = .ok (restAtOnce, writesAtOnce) →
        applyAll ∅ writes = applyAll ∅ writesAtOnce := by
  intro claim
  have ran : ∃ rest writes restAtOnce writesAtOnce,
      inodeCloneAttrsCommitted describedFile [(⟨10, [97], .file⟩, 20)] [∅] ∅ = .ok (rest, writes) ∧
      inodeCloneAttrsCommitted describedFile [(⟨10, [97], .file⟩, 20)] [] ∅ = .ok (restAtOnce, writesAtOnce) ∧
      inoDescription (applyAll ∅ writes) 20 = none ∧
      inoDescription (applyAll ∅ writesAtOnce) 20 = some ⟨20, .file, 0⟩ :=
    ⟨_, _, _, _, rfl, rfl, by decide +kernel, by decide +kernel⟩
  obtain ⟨rest, writes, restAtOnce, writesAtOnce, retried, atOnce, lost, described⟩ := ran
  rw [claim _ _ _ _ (by decide) (by decide) _ _ _ _ retried atOnce, described] at lost
  cases lost

end TiFs
