import TiFs.Library.Table
import TiFs.Library.Transaction

/-! The log of the transactions that committed under snapshot isolation. A body that writes
every key its outcome depends on has the same outcome as one step on the store that its
commit found. -/

namespace KeyValue

open Tables

variable {K : Type} [DecidableEq K] {V : K → Type} {E A B : Type}

/-- The body writes nothing, or every store that agrees with its snapshot on the keys it
writes leads to the same result and the same writes. -/
def OwnReads (body : TxnM V E A) : Prop :=
  ∀ start result txn, body ⟨start, []⟩ = .ok (result, txn) →
    txn.snapshot = start ∧ (txn.buffer = [] ∨ ∀ current : Finmap V,
      (∀ key ∈ txn.buffer.map Mutation.key, current.lookup key = start.lookup key) →
        body ⟨current, []⟩ = .ok (result, ⟨current, txn.buffer⟩))

omit [DecidableEq K] in
theorem map_ok (f : A → B) {body : TxnM V E A} {txn after : Txn V} {result : A}
    (ran : body txn = .ok (result, after)) : (f <$> body) txn = .ok (f result, after) := by
  simp only [Functor.map, StateT.map, ran, bind, Except.bind, pure, Except.pure]

omit [DecidableEq K] in
theorem map_eq_ok {f : A → B} {body : TxnM V E A} {txn after : Txn V} {result : B}
    (ran : (f <$> body) txn = .ok (result, after)) :
    ∃ middle, body txn = .ok (middle, after) ∧ f middle = result := by
  rw [map_eq_pure_bind] at ran
  obtain ⟨middle, between, first, same⟩ := bind_eq_ok ran
  obtain ⟨isResult, rfl⟩ := Prod.mk.inj (Except.ok.inj same)
  exact ⟨middle, first, isResult⟩

theorem OwnReads.map {body : TxnM V E A} (own : OwnReads body) (f : A → B) : OwnReads (f <$> body) := by
  intro start result txn ran
  obtain ⟨middle, inner, rfl⟩ := map_eq_ok ran
  obtain ⟨snapshot, writes⟩ := own start middle txn inner
  refine ⟨snapshot, writes.imp_right fun replays => ?_⟩
  intro current same
  exact map_ok f (replays current same)

theorem ownReads_of_readOnly {body : TxnM V E A}
    (readOnly : ∀ start result txn, body ⟨start, []⟩ = .ok (result, txn) → txn = ⟨start, []⟩) :
    OwnReads body := by
  intro start result txn ran
  rw [readOnly start result txn ran]
  exact ⟨rfl, Or.inl rfl⟩

theorem ownReads_view (read : Finmap V → B) (next : B → TxnM V E A)
    (outcome : ∀ start, (∃ issue, ∀ txn, next (read start) txn = .error issue) ∨
      ∃ result writes, (∀ txn, next (read start) txn = .ok (result, txn.mutate writes)) ∧
        ∀ current : Finmap V, (∀ key ∈ writes.map Mutation.key, current.lookup key = start.lookup key) →
          read current = read start) :
    OwnReads fun txn => next (read txn.view) txn := by
  intro start result txn ran
  have rest : next (read start) ⟨start, []⟩ = .ok (result, txn) := ran
  rcases outcome start with ⟨issue, fails⟩ | ⟨value, writes, returns, decided⟩
  · rw [fails] at rest
    cases rest
  · rw [returns] at rest
    obtain ⟨rfl, rfl⟩ := Prod.mk.inj (Except.ok.inj rest)
    refine ⟨rfl, Or.inr fun current same => ?_⟩
    have again : next (read (Txn.mk current []).view) ⟨current, []⟩ = next (read start) ⟨current, []⟩ :=
      congrArg (fun value => next value ⟨current, []⟩) (decided current same)
    exact again.trans (returns ⟨current, []⟩)

/-- What is done after a key was read, if it depends on no other key. -/
inductive AfterRead (key : K) (body : TxnM V E A) : Prop
  | refused (issue : E) (fails : ∀ txn, body txn = .error issue)
  | kept (result : A) (returns : ∀ txn, body txn = .ok (result, txn))
  | written (result : A) (writes : List (Mutation V)) (own : key ∈ writes.map Mutation.key)
      (returns : ∀ txn, body txn = .ok (result, txn.mutate writes))

theorem ownReads_readKey {key : K} {next : Option (V key) → TxnM V E A}
    (after : ∀ found, AfterRead key (next found)) : OwnReads (readKey key >>= next) := by
  intro start result txn ran
  have rest : next (start.lookup key) ⟨start, []⟩ = .ok (result, txn) := ran
  cases after (start.lookup key) with
  | refused issue fails =>
      rw [fails] at rest
      cases rest
  | kept value returns =>
      rw [returns] at rest
      obtain ⟨rfl, rfl⟩ := Prod.mk.inj (Except.ok.inj rest)
      exact ⟨rfl, Or.inl rfl⟩
  | written value writes own returns =>
      rw [returns] at rest
      obtain ⟨rfl, rfl⟩ := Prod.mk.inj (Except.ok.inj rest)
      refine ⟨rfl, Or.inr fun current same => ?_⟩
      have again : (readKey key >>= next) ⟨current, []⟩ = next (current.lookup key) ⟨current, []⟩ := rfl
      rw [again, same key own, returns]
      rfl

/-- A committed transaction: whose it is, what it ran with which reply, at which position of
the log it began and what it wrote. -/
structure Commit (V : K → Type) (Id Op Reply : Type) where
  id : Id
  op : Op
  reply : Reply
  begun : ℕ
  writes : List (Mutation V)

variable {Id Op Reply : Type}

def storeAt (first : Finmap V) (log : List (Commit V Id Op Reply)) (n : ℕ) : Finmap V :=
  applyAll first ((log.take n).flatMap Commit.writes)

@[simp] theorem storeAt_append_of_le {first : Finmap V} {log : List (Commit V Id Op Reply)} {n : ℕ}
    (more : List (Commit V Id Op Reply)) (earlier : n ≤ log.length) :
    storeAt first (log ++ more) n = storeAt first log n := by
  rw [storeAt, storeAt, List.take_append_of_le_length earlier]

theorem storeAt_length (first : Finmap V) (log : List (Commit V Id Op Reply)) :
    storeAt first log log.length = applyAll first (log.flatMap Commit.writes) := by
  rw [storeAt, List.take_length]

theorem storeAt_snoc (first : Finmap V) (log : List (Commit V Id Op Reply)) (commit : Commit V Id Op Reply) :
    storeAt first (log ++ [commit]) (log.length + 1) =
      applyAll (storeAt first log log.length) commit.writes := by
  have whole : (log ++ [commit]).length = log.length + 1 := List.length_append
  rw [← whole, storeAt_length, storeAt_length, List.flatMap_append, applyAll_append, List.flatMap_singleton]

theorem storeAt_succ {first : Finmap V} {log : List (Commit V Id Op Reply)} {n : ℕ}
    {commit : Commit V Id Op Reply} (listed : log[n]? = some commit) :
    storeAt first log (n + 1) = applyAll (storeAt first log n) commit.writes := by
  rw [storeAt, List.take_add_one, listed, Option.toList_some, List.flatMap_append, applyAll_append,
    List.flatMap_singleton, storeAt]

/-- What holds at one position of the log and not at a later one ends with a commit between. -/
theorem exists_commit_between (holds : Finmap V → Prop) {first : Finmap V} {log : List (Commit V Id Op Reply)}
    {m l : ℕ} (begins : holds (storeAt first log m)) (ends : ¬ holds (storeAt first log l)) (order : m ≤ l)
    (within : l ≤ log.length) :
    ∃ n commit, m ≤ n ∧ n < l ∧ log[n]? = some commit ∧ holds (storeAt first log n) ∧
      ¬ holds (storeAt first log (n + 1)) := by
  induction l, order using Nat.le_induction with
  | base => exact absurd begins ends
  | succ l order ih =>
      by_cases still : holds (storeAt first log l)
      · exact ⟨l, log[l], order, Nat.lt_succ_self l, List.getElem?_eq_getElem within, still, ends⟩
      · obtain ⟨n, commit, behind, before, found⟩ := ih still (Nat.le_of_succ_le within)
        exact ⟨n, commit, behind, Nat.lt_succ_of_lt before, found⟩

theorem exists_write_of_changed {first : Finmap V} {log : List (Commit V Id Op Reply)} {n : ℕ}
    {commit : Commit V Id Op Reply} (listed : log[n]? = some commit) {key : K}
    (changed : (storeAt first log (n + 1)).lookup key ≠ (storeAt first log n).lookup key) :
    (⟨key, (storeAt first log (n + 1)).lookup key⟩ : Mutation V) ∈ commit.writes := by
  rw [storeAt_succ listed] at changed ⊢
  have written : key ∈ commit.writes.map Mutation.key := by
    by_contra outside
    exact changed (lookup_applyAll_of_notMem _ _ _ outside)
  obtain ⟨value, inWrites, isValue⟩ := exists_mem_of_written (storeAt first log n) written
  rw [isValue]
  exact inWrites

/-- The committed state is what the transactions of the log wrote, each of which ran on the
store as of its begin and was not overtaken on a key it wrote. -/
inductive Logged (body : Op → TxnM V E Reply) (first : Finmap V) : List (Commit V Id Op Reply) → Db V → Prop
  | nil (db : Db V) (isFirst : db.data = first) : Logged body first [] db
  | snoc {log : List (Commit V Id Op Reply)} {db : Db V} (logged : Logged body first log db)
      (commit : Commit V Id Op Reply) (start : Db V) (txn : Txn V)
      (begun : commit.begun ≤ log.length) (isStart : start.data = storeAt first log commit.begun)
      (ran : body commit.op ⟨start.data, []⟩ = .ok (commit.reply, txn)) (wrote : txn.buffer = commit.writes)
      (extended : start.Extends db) (may : start.MayCommit db commit.writes) :
      Logged body first (log ++ [commit]) (db.commit commit.writes)

namespace Logged

variable {body : Op → TxnM V E Reply} {first : Finmap V} {log : List (Commit V Id Op Reply)} {db : Db V}

theorem data (logged : Logged body first log db) : db.data = storeAt first log log.length := by
  induction logged with
  | nil db isFirst => exact isFirst
  | snoc logged commit start txn begun isStart ran wrote extended may ih =>
      rw [List.length_append, List.length_singleton, storeAt_snoc, ← ih]
      rfl

/-- What is in the log is what its body did on the store it began with. -/
theorem ran (logged : Logged body first log db) {n : ℕ} {commit : Commit V Id Op Reply}
    (listed : log[n]? = some commit) :
    commit.begun ≤ n ∧ ∃ txn, body commit.op ⟨storeAt first log commit.begun, []⟩ = .ok (commit.reply, txn) ∧
      txn.buffer = commit.writes := by
  induction logged with
  | nil db isFirst => cases listed
  | @snoc log db logged last start txn begun isStart ran wrote extended may ih =>
      rcases getElem?_concat_cases listed with ⟨rfl, rfl⟩ | earlier
      · rw [storeAt_append_of_le [commit] begun, ← isStart]
        exact ⟨begun, txn, ran, wrote⟩
      · have inside : n < log.length := (List.getElem?_eq_some_iff.mp earlier).1
        rw [storeAt_append_of_le [last] ((ih earlier).1.trans inside.le)]
        exact ih earlier

/-- Between its begin and its commit a transaction is not overtaken on a key that it writes. -/
theorem unchanged (logged : Logged body first log db) {n : ℕ} {commit : Commit V Id Op Reply}
    (listed : log[n]? = some commit) {key : K} (written : key ∈ commit.writes.map Mutation.key) :
    (storeAt first log n).lookup key = (storeAt first log commit.begun).lookup key := by
  induction logged with
  | nil db isFirst => cases listed
  | @snoc log db logged last start txn begun isStart ran wrote extended may ih =>
      rcases getElem?_concat_cases listed with ⟨rfl, rfl⟩ | earlier
      · rw [storeAt_append_of_le [commit] le_rfl, storeAt_append_of_le [commit] begun, ← logged.data, ← isStart]
        exact extended.read_current may written
      · have inside : n < log.length := (List.getElem?_eq_some_iff.mp earlier).1
        have before : commit.begun ≤ log.length := (logged.ran earlier).1.trans inside.le
        rw [storeAt_append_of_le [last] inside.le, storeAt_append_of_le [last] before]
        exact ih earlier

/-- A transaction of the log that writes what it reads is one step on the store it committed
to; one that wrote nothing is one on the store it began with. -/
theorem atomic (logged : Logged body first log db) {n : ℕ} {commit : Commit V Id Op Reply}
    (listed : log[n]? = some commit) (own : OwnReads (body commit.op)) :
    atomically (body commit.op) (storeAt first log n) = .ok (commit.reply, storeAt first log (n + 1)) ∨
      commit.writes = [] ∧ atomically (body commit.op) (storeAt first log commit.begun) =
        .ok (commit.reply, storeAt first log commit.begun) := by
  obtain ⟨_, txn, ran, wrote⟩ := logged.ran listed
  obtain ⟨snapshot, writes⟩ := own _ _ _ ran
  rcases writes with nothing | replays
  · right
    refine ⟨wrote.symm.trans nothing, ?_⟩
    rw [atomically_eq_ok ran, Txn.view, snapshot, nothing, applyAll_nil]
  · left
    have current : ∀ key ∈ txn.buffer.map Mutation.key,
        (storeAt first log n).lookup key = (storeAt first log commit.begun).lookup key := by
      rw [wrote]
      exact fun key written => logged.unchanged listed written
    rw [atomically_eq_ok (replays _ current), Txn.view, wrote, storeAt_succ listed]

end Logged

end KeyValue
