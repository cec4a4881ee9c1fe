import TiFs.CallRefinement

namespace TiFs

open KeyValue Tables

def storedFile (store : Store) (ino : StorageIno) : FileMap where
  content index := (mapping store ⟨ino, index⟩).bind (blockData store)
  size := ((inoSize store ino).map InoSize.size).getD 0

/-- A store in order, as far as one inode needs it. -/
structure Consistent (cfg : TiFsConfig) (ino : StorageIno) (store : Store) : Prop where
  covered : ∀ hash, mapped store hash ≤ counter store hash
  counted : ∀ hash, 0 < counter store hash → (blockData store hash).isSome
  addressed : ∀ hash data, blockData store hash = some data → cfg.calculateHash data = hash
  sized : (inoSize store ino).isSome
  bounded : (storedFile store ino).WellFormed cfg.blockSize

def SoundCaches (cfg : TiFsConfig) (caches : Nat → BlocksData) : Prop :=
  ∀ client hash data, (caches client).lookup hash = some data → cfg.calculateHash data = hash

def presentBlocks (store : Store) (caches : Nat → BlocksData) : Set Bytes :=
  {data | (∃ hash, blockData store hash = some data) ∨
    ∃ client hash, (caches client).lookup hash = some data}

section Mapping

variable {cfg : TiFsConfig} {ino : StorageIno} {store : Store}

theorem mapping_of_stored (stored : ∀ index hash, mapping store ⟨ino, index⟩ = some hash →
      ∃ data, blockData store hash = some data ∧ cfg.calculateHash data = hash) (index : Nat) :
    mapping store ⟨ino, index⟩ = ((storedFile store ino).content index).map cfg.calculateHash := by
  simp only [storedFile]
  cases found : mapping store ⟨ino, index⟩ with
  | none => rfl
  | some hash =>
      obtain ⟨data, isData, isHash⟩ := stored index hash found
      rw [Option.bind_some, isData, Option.map_some, isHash]

theorem Consistent.stored (consistent : Consistent cfg ino store) {addr : BlockAddress} {hash : TiFsHash}
    (found : mapping store addr = some hash) :
    ∃ data, blockData store hash = some data ∧ cfg.calculateHash data = hash := by
  have some := mapped_pos_of_mapping found
  have enough := consistent.covered hash
  obtain ⟨data, isData⟩ := Option.isSome_iff_exists.mp (consistent.counted hash (by omega))
  exact ⟨data, isData, consistent.addressed hash data isData⟩

theorem Consistent.mapping_eq (consistent : Consistent cfg ino store) (index : Nat) :
    mapping store ⟨ino, index⟩ = ((storedFile store ino).content index).map cfg.calculateHash :=
  mapping_of_stored (fun _ _ => consistent.stored) index

end Mapping

theorem content_stored {store : Store} {ino : StorageIno} {index : Nat} {data : Bytes}
    (isContent : (storedFile store ino).content index = some data) :
    ∃ hash, mapping store ⟨ino, index⟩ = some hash ∧ blockData store hash = some data :=
  Option.bind_eq_some_iff.mp isContent

def WriteSystem.begin (cfg : TiFsConfig) (store : Store) (caches : Nat → BlocksData)
    (calls : List WriteCall) : WriteSystem cfg :=
  ⟨⟨store, []⟩, caches, calls⟩

section Begin

variable {cfg : TiFsConfig} {ino : StorageIno} {store : Store} {caches : Nat → BlocksData}
  {involved : Set Bytes}

theorem callsRefine_begin_nil (consistent : Consistent cfg ino store)
    (sound : SoundCaches cfg caches) (present : presentBlocks store caches ⊆ involved) :
    CallsRefine ino involved (storedFile store ino) (WriteSystem.begin cfg store caches []) := by
  have noOps : ∀ op : Op cfg, op ∉ (WriteSystem.begin cfg store caches []).blocks.ops :=
    fun op => List.not_mem_nil
  obtain ⟨size, stored⟩ := Option.isSome_iff_exists.mp consistent.sized
  constructor
  · constructor
    · exact ⟨fun op member => absurd member (noOps op), consistent.covered⟩
    · exact fun op member => absurd member (noOps op)
    · exact fun hash data found =>
        ⟨present (Or.inl ⟨hash, found⟩), consistent.addressed hash data found⟩
    · exact fun hash counted => Or.inl (consistent.counted hash counted)
    · exact fun op member => absurd member (noOps op)
    · exact fun index _ => consistent.mapping_eq index
    · refine ⟨size, stored, ?_, Or.inl ?_⟩
      · simp [storedFile, stored]
      · simp [storedFile, stored]
    · exact fun task member => absurd member (noOps _)
  · exact consistent.bounded
  · intro index data isContent
    obtain ⟨hash, _, found⟩ := content_stored isContent
    exact present (Or.inl ⟨hash, found⟩)
  · exact fun client hash data found =>
      ⟨present (Or.inr ⟨client, hash, found⟩), sound client hash data found⟩
  · exact fun call member => absurd member List.not_mem_nil
  · intro i j first second isFirst
    cases isFirst
  · intro k op found
    cases found
  · exact fun call member => absurd member List.not_mem_nil
  · exact fun call member => absurd member List.not_mem_nil
  · exact fun call member => absurd member List.not_mem_nil

structure CallsAllowed (cfg : TiFsConfig) (ino : StorageIno) (involved : Set Bytes) (file : FileMap)
    (calls : List (Nat × List WriteTaskData)) : Prop where
  nonempty : ∀ call ∈ calls, ∀ job ∈ call.2, 0 < job.data.length
  apart : calls.Pairwise fun first second => ∀ index,
    lastPart cfg.blockSize first.2 index = none ∨ lastPart cfg.blockSize second.2 index = none
  new : ∀ call ∈ calls, ∀ part ∈ writeParts cfg.blockSize call.2, file.patched part ∈ involved

theorem callsRefine_begin (consistent : Consistent cfg ino store) (sound : SoundCaches cfg caches)
    (present : presentBlocks store caches ⊆ involved) {calls : List (Nat × List WriteTaskData)}
    (allowed : CallsAllowed cfg ino involved (storedFile store ino) calls) :
    CallsRefine ino involved (storedFile store ino) (WriteSystem.begin cfg store caches
      (calls.map fun call => WriteCall.start cfg call.1 ino call.2)) := by
  induction calls using List.reverseRecOn with
  | nil => exact callsRefine_begin_nil consistent sound present
  | append_singleton front last ih =>
      obtain ⟨frontApart, _, between⟩ := List.pairwise_append.mp allowed.apart
      have refines := ih ⟨fun call member => allowed.nonempty call (List.mem_append_left _ member),
        frontApart, fun call member => allowed.new call (List.mem_append_left _ member)⟩
      rw [List.map_append]
      refine refines.start last.1 ⟨allowed.nonempty last (by simp), ?_, ?_, allowed.new last (by simp)⟩
      · intro call member _ index touched
        obtain ⟨other, inFront, rfl⟩ := List.mem_map.mp member
        rcases between other inFront last (by simp) index with none | none
        · exact absurd none touched
        · exact none
      · intro index data _ isContent
        obtain ⟨hash, _, found⟩ := content_stored isContent
        rw [consistent.addressed hash data found]
        exact Option.isSome_iff_exists.mpr ⟨data, found⟩

end Begin

/-- When all calls have returned the store holds the file and is in order. -/
theorem CallsRefine.settled {cfg : TiFsConfig} {ino : StorageIno} {involved : Set Bytes}
    {file : FileMap} {state : WriteSystem cfg} (refines : CallsRefine ino involved file state)
    (injective : Set.InjOn cfg.calculateHash involved)
    (returned : ∀ call ∈ state.calls, call.phase.isActive = false) :
    storedFile state.blocks.store ino = file ∧ Consistent cfg ino state.blocks.store ∧
      SoundCaches cfg state.caches ∧ presentBlocks state.blocks.store state.caches ⊆ involved := by
  have ended : ∀ op ∈ state.blocks.ops, op.outcome.isSome := by
    intro op member
    obtain ⟨k, found⟩ := List.mem_iff_getElem?.mp member
    cases running : op.outcome with
    | some outcome => rfl
    | none =>
        obtain ⟨j, owner, ops, wasModified, isOwner, isWriting, _⟩ := refines.owners k op found running
        have inactive := returned owner (List.mem_of_getElem? isOwner)
        rw [isWriting] at inactive
        cases inactive
  obtain ⟨contents, size, stored, isSize⟩ := refines.blocks.settled injective refines.contents ended
  have isFile : storedFile state.blocks.store ino = file := by
    apply FileMap.ext
    · funext index
      exact contents index
    · simp [storedFile, stored, isSize]
  refine ⟨isFile, ⟨?_, ?_, ?_, ?_, ?_⟩, ?_, ?_⟩
  · intro hash
    have all := refines.blocks.covered.counters hash
    omega
  · intro hash counted
    refine refines.blocks.stored_of_counted ?_ counted
    intro op member
    obtain ⟨task, rfl, _⟩ := refines.blocks.tasks op member
    exact (idle_of_ended (ended _ member)).2.2
  · exact fun hash data found => (refines.blocks.addressed hash data found).2
  · rw [stored]
    rfl
  · rw [isFile]
    exact refines.wellFormed
  · exact fun client hash data found => (refines.caches client hash data found).2
  · rintro data (⟨hash, found⟩ | ⟨client, hash, found⟩)
    · exact (refines.blocks.addressed hash data found).1
    · exact (refines.caches client hash data found).1

end TiFs
