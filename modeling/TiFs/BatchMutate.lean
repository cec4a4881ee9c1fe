import TiFs.KeyCodec

/-! `FlexibleTransaction::batch_mutate`. A transaction applies the mutations in their order; a
raw client has no call for a mixed list, so the puts go out before the deletes. -/

namespace TiFs

open KeyValue

abbrev RawContent := Finmap fun _ : KeyBuffer => Bytes

abbrev RawMutation := Mutation fun _ : KeyBuffer => Bytes

inductive FlexibleTransactionKind where
  | useExistingTxn
  | useRawClient
  | spawnMiniTransactions
  deriving DecidableEq, Repr

def rawBatchPut (store : RawContent) (pairs : List (KeyBuffer × Bytes)) : RawContent :=
  pairs.foldl (fun store pair => store.insert pair.1 pair.2) store

def rawBatchDelete (store : RawContent) (keys : List KeyBuffer) : RawContent :=
  keys.foldl (fun store key => store.erase key) store

def sortMutations (mutations : List RawMutation) : List KeyBuffer × List (KeyBuffer × Bytes) :=
  mutations.foldl (fun (deletes, putPairs) entry =>
    match entry.value with
    | none => (deletes ++ [entry.key], putPairs)
    | some value => (deletes, putPairs ++ [(entry.key, value)])) ([], [])

/-- What is stored when the call is through and the transaction that took it, if there is
one, has committed. -/
def FlexibleTransactionKind.batchMutate (kind : FlexibleTransactionKind) (mutations : List RawMutation)
    (store : RawContent) : RawContent :=
  match kind with
  | .useExistingTxn => ((Txn.mk store []).mutate mutations).view
  | .spawnMiniTransactions => ((Txn.mk store []).mutate mutations).view
  | .useRawClient =>
      let (deletes, putPairs) := sortMutations mutations
      let store := if putPairs.length > 0 then rawBatchPut store putPairs else store
      if deletes.length > 0 then rawBatchDelete store deletes else store

/-- All kinds leave what the mutations make one after the other. -/
structure BatchesAgree (mutations : List RawMutation) (store : RawContent) : Prop where
  existing : FlexibleTransactionKind.useRawClient.batchMutate mutations store =
    FlexibleTransactionKind.useExistingTxn.batchMutate mutations store
  spawned : FlexibleTransactionKind.useRawClient.batchMutate mutations store =
    FlexibleTransactionKind.spawnMiniTransactions.batchMutate mutations store
  inOrder : FlexibleTransactionKind.useRawClient.batchMutate mutations store = applyAll store mutations

def DeletedLast (mutations : List RawMutation) : Prop :=
  ∀ mutation ∈ mutations, mutation.value = none →
    (lastOf mutations mutation.key).map Mutation.value = some none

section Raw

variable {store : RawContent} {mutations : List RawMutation} {key : KeyBuffer}

theorem sortMutations_eq (mutations : List RawMutation) :
    sortMutations mutations =
      ((mutations.filter (·.value = none)).map Mutation.key,
        mutations.filterMap fun entry => entry.value.map fun value => (entry.key, value)) := by
  induction mutations using List.reverseRecOn with
  | nil => rfl
  | append_singleton front last ih =>
      rw [sortMutations] at ih
      rw [sortMutations, List.foldl_append, ih, List.filter_append, List.filterMap_append]
      cases isValue : last.value with
      | none => simp [isValue]
      | some value => simp [isValue]

theorem rawBatchPut_puts (store : RawContent) (mutations : List RawMutation) :
    rawBatchPut store (mutations.filterMap fun entry => entry.value.map fun value => (entry.key, value)) =
      applyAll store (mutations.filter (·.value ≠ none)) := by
  induction mutations generalizing store with
  | nil => rfl
  | cons head tail ih =>
      obtain ⟨key, value⟩ := head
      cases value with
      | none => simpa using ih store
      | some value => simpa [rawBatchPut, Mutation.apply] using ih (store.insert key value)

theorem rawBatchDelete_deletes (store : RawContent) (mutations : List RawMutation) :
    rawBatchDelete store ((mutations.filter (·.value = none)).map Mutation.key) =
      applyAll store (mutations.filter (·.value = none)) := by
  induction mutations generalizing store with
  | nil => rfl
  | cons head tail ih =>
      obtain ⟨key, value⟩ := head
      cases value with
      | none => simpa [rawBatchDelete, Mutation.apply] using ih (store.erase key)
      | some value => simpa using ih store

/-- A raw client applies the puts and then the deletes. -/
theorem raw_batchMutate (mutations : List RawMutation) (store : RawContent) :
    FlexibleTransactionKind.useRawClient.batchMutate mutations store =
      applyAll (applyAll store (mutations.filter (·.value ≠ none))) (mutations.filter (·.value = none)) := by
  have put : ∀ pairs : List (KeyBuffer × Bytes),
      (if pairs.length > 0 then rawBatchPut store pairs else store) = rawBatchPut store pairs := by
    intro pairs
    cases pairs <;> rfl
  have deleted : ∀ (store : RawContent) (keys : List KeyBuffer),
      (if keys.length > 0 then rawBatchDelete store keys else store) = rawBatchDelete store keys := by
    intro store keys
    cases keys <;> rfl
  simp only [FlexibleTransactionKind.batchMutate, sortMutations_eq]
  rw [put, deleted, rawBatchPut_puts, rawBatchDelete_deletes]

theorem lookup_raw_of_deleted {mutation : RawMutation} (listed : mutation ∈ mutations)
    (deletes : mutation.value = none) :
    (FlexibleTransactionKind.useRawClient.batchMutate mutations store).lookup mutation.key = none := by
  have inDeletes : mutation ∈ mutations.filter (·.value = none) := by simpa [deletes] using listed
  obtain ⟨last, isLast⟩ := lastOf_of_mem inDeletes
  have gone : last.value = none := by
    simpa using (List.mem_filter.mp (lastOf_some isLast).1).2
  have found := lookup_applyAll_last (applyAll store (mutations.filter (·.value ≠ none)))
    (mutations.filter (·.value = none)) mutation.key
  rw [raw_batchMutate, found, isLast]
  exact gone

theorem lookup_raw_of_kept (notDeleted : ∀ mutation ∈ mutations, mutation.key = key → mutation.value ≠ none) :
    (FlexibleTransactionKind.useRawClient.batchMutate mutations store).lookup key =
      (applyAll store mutations).lookup key := by
  have untouched : key ∉ (mutations.filter (·.value = none)).map Mutation.key := by
    intro named
    obtain ⟨mutation, listed, isKey⟩ := List.mem_map.mp named
    have both := List.mem_filter.mp listed
    exact notDeleted mutation both.1 isKey (by simpa using both.2)
  have puts : lastOf (mutations.filter (·.value ≠ none)) key = lastOf mutations key :=
    lastOf_filter _ fun mutation listed isKey => by simpa using notDeleted mutation listed isKey
  rw [raw_batchMutate, lookup_applyAll_of_notMem _ _ _ untouched, lookup_applyAll_last,
    lookup_applyAll_last store mutations, puts]

/-- The kinds agree exactly if no key is deleted and put behind that. -/
theorem batches_agree_iff (mutations : List RawMutation) (store : RawContent) :
    BatchesAgree mutations store ↔ DeletedLast mutations := by
  have sameAsOrder : BatchesAgree mutations store ↔
      FlexibleTransactionKind.useRawClient.batchMutate mutations store = applyAll store mutations :=
    ⟨BatchesAgree.inOrder, fun same => ⟨same, same, same⟩⟩
  rw [sameAsOrder]
  constructor
  · intro same mutation listed deletes
    have gone : (FlexibleTransactionKind.useRawClient.batchMutate mutations store).lookup mutation.key = none :=
      lookup_raw_of_deleted listed deletes
    obtain ⟨last, isLast⟩ := lastOf_of_mem listed
    rw [same, lookup_applyAll_last, isLast] at gone
    rw [isLast, Option.map_some]
    exact congrArg some gone
  · intro deletedLast
    refine Finmap.ext_lookup fun key => ?_
    by_cases deleted : ∃ mutation ∈ mutations, mutation.key = key ∧ mutation.value = none
    · obtain ⟨mutation, listed, rfl, deletes⟩ := deleted
      obtain ⟨last, isLast, gone⟩ := Option.map_eq_some_iff.mp (deletedLast mutation listed deletes)
      rw [lookup_raw_of_deleted listed deletes, lookup_applyAll_last, isLast]
      exact gone.symm
    · apply lookup_raw_of_kept
      intro mutation listed isKey deletes
      exact deleted ⟨mutation, listed, isKey, deletes⟩

end Raw

/-- A key that is put again behind its delete is gone. -/
theorem put_lost_in_raw_batch :
    ¬ ∀ (mutations : List RawMutation) (store : RawContent), BatchesAgree mutations store := by
  intro claim
  have same := (claim [.delete [1], .put [1] [5]] ∅).inOrder
  have gone : (FlexibleTransactionKind.useRawClient.batchMutate
      [.delete [1], .put [1] [5]] ∅).lookup [1] = none := by decide +kernel
  have kept : (applyAll ∅ [.delete [1], .put [1] [5]] : RawContent).lookup [1] = some [5] := by decide +kernel
  rw [same, kept] at gone
  cases gone

end TiFs
