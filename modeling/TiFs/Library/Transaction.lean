import Mathlib.Logic.Relation
import TiFs.Library.KeyValue

/-! Transactions over a key-value map: the buffered view a transaction body
reads, its execution as one atomic step, its execution under snapshot isolation,
and runs of labelled steps. -/

namespace KeyValue

universe u v

/-- Runs of a labelled step relation in which every step is allowed in the
state it starts from. -/
def Run {State : Type u} {Label : Type v} (Step : State → Label → State → Prop)
    (allowed : State → Label → Prop) : State → State → Prop :=
  Relation.ReflTransGen fun before after => ∃ label, Step before label after ∧ allowed before label

theorem Run.invariant {State : Type u} {Label : Type v} {Step : State → Label → State → Prop}
    {allowed : State → Label → Prop} (holds : State → Prop)
    (preserved : ∀ before label after, holds before → Step before label after →
      allowed before label → holds after)
    {first last : State} (initial : holds first) (run : Run Step allowed first last) :
    holds last := by
  induction run with
  | refl => exact initial
  | tail earlier step ih =>
      obtain ⟨label, taken, permitted⟩ := step
      exact preserved _ label _ ih taken permitted

theorem Run.single {State : Type u} {Label : Type v} {Step : State → Label → State → Prop}
    {allowed : State → Label → Prop} {before after : State} (label : Label)
    (step : Step before label after) (permitted : allowed before label) :
    Run Step allowed before after :=
  Relation.ReflTransGen.single ⟨label, step, permitted⟩

theorem Run.snoc {State : Type u} {Label : Type v} {Step : State → Label → State → Prop}
    {allowed : State → Label → Prop} {first before after : State}
    (run : Run Step allowed first before) (label : Label)
    (step : Step before label after) (permitted : allowed before label) :
    Run Step allowed first after :=
  Relation.ReflTransGen.tail run ⟨label, step, permitted⟩

theorem Run.weaken {State : Type u} {Label : Type v} {Step : State → Label → State → Prop}
    {allowed weaker : State → Label → Prop} (implied : ∀ state label, allowed state label → weaker state label)
    {first last : State} (run : Run Step allowed first last) : Run Step weaker first last := by
  induction run with
  | refl => exact Relation.ReflTransGen.refl
  | tail earlier step ih =>
      obtain ⟨label, taken, permitted⟩ := step
      exact ih.snoc label taken (implied _ label permitted)

/-- A function that maps steps to steps maps runs to runs. -/
theorem Run.map {State Image : Type u} {Label Other : Type v} {Step : State → Label → State → Prop}
    {allowed : State → Label → Prop} {ImageStep : Image → Other → Image → Prop}
    {imageAllowed : Image → Other → Prop} (image : State → Image)
    (steps : ∀ before label after, Step before label after → allowed before label →
      ∃ other, ImageStep (image before) other (image after) ∧ imageAllowed (image before) other)
    {first last : State} (run : Run Step allowed first last) :
    Run ImageStep imageAllowed (image first) (image last) := by
  induction run with
  | refl => exact Relation.ReflTransGen.refl
  | tail earlier step ih =>
      obtain ⟨label, taken, permitted⟩ := step
      obtain ⟨other, imageTaken, imagePermitted⟩ := steps _ label _ taken permitted
      exact ih.snoc other imageTaken imagePermitted

/-- The run of a given list of labels. -/
def runAll {State : Type u} {Label : Type v} (step : State → Label → Option State) :
    State → List Label → Option State
  | state, [] => some state
  | state, label :: rest =>
      match step state label with
      | some next => runAll step next rest
      | none => none

theorem Run.of_runAll {State : Type u} {Label : Type v} {step : State → Label → Option State}
    {Step : State → Label → State → Prop} {allowed : State → Label → Prop}
    (sound : ∀ before label after, step before label = some after →
      Step before label after ∧ allowed before label)
    {first last : State} {labels : List Label} (ran : runAll step first labels = some last) :
    Run Step allowed first last := by
  induction labels generalizing first with
  | nil =>
      obtain rfl := Option.some.inj ran
      exact Relation.ReflTransGen.refl
  | cons label rest ih =>
      simp only [runAll] at ran
      split at ran
      · next middle taken => exact Relation.ReflTransGen.head ⟨label, sound _ _ _ taken⟩ (ih ran)
      · cases ran

/-- A step function that refuses what is not allowed. -/
def restrict {State : Type u} {Label : Type v} (allowed : State → Label → Prop)
    [∀ state label, Decidable (allowed state label)] (step : State → Label → Option State)
    (state : State) (label : Label) : Option State :=
  if allowed state label then step state label else none

theorem restrict_eq_some {State : Type u} {Label : Type v} {allowed : State → Label → Prop}
    [∀ state label, Decidable (allowed state label)] {step : State → Label → Option State}
    {before after : State} {label : Label} (taken : restrict allowed step before label = some after) :
    step before label = some after ∧ allowed before label := by
  unfold restrict at taken
  split at taken
  · next permitted => exact ⟨taken, permitted⟩
  · cases taken

/-- A run that can be executed and checked at its end. -/
theorem Run.of_restrict {State : Type u} {Label : Type v} {step : State → Label → Option State}
    {Step : State → Label → State → Prop} {allowed : State → Label → Prop}
    [∀ state label, Decidable (allowed state label)]
    (sound : ∀ before label after, step before label = some after → Step before label after)
    {first : State} (labels : List Label) (check : State → Bool)
    (ran : (runAll (restrict allowed step) first labels).any check = true) :
    ∃ last, Run Step allowed first last ∧ check last = true := by
  obtain ⟨last, reached, checked⟩ := (Option.any_eq_true _ _).mp ran
  refine ⟨last, Run.of_runAll ?_ reached, checked⟩
  intro before label after taken
  exact ⟨sound before label after (restrict_eq_some taken).1, (restrict_eq_some taken).2⟩

variable {K : Type} [DecidableEq K] {V : K → Type} {E A B : Type}

/-- A started transaction: the store as of its start and what it has buffered. -/
structure Txn (V : K → Type) where
  snapshot : Finmap V
  buffer : List (Mutation V)

/-- Reads see the transaction's own earlier writes. -/
def Txn.view (txn : Txn V) : Finmap V := applyAll txn.snapshot txn.buffer

def Txn.mutate (txn : Txn V) (mutations : List (Mutation V)) : Txn V :=
  { txn with buffer := txn.buffer ++ mutations }

@[simp] theorem Txn.view_start (store : Finmap V) : (Txn.mk store []).view = store := rfl

@[simp] theorem Txn.view_mutate (txn : Txn V) (mutations : List (Mutation V)) :
    (txn.mutate mutations).view = applyAll txn.view mutations := by
  simp only [Txn.view, Txn.mutate, applyAll_append]

omit [DecidableEq K] in
@[simp] theorem Txn.mutate_mutate (txn : Txn V) (first second : List (Mutation V)) :
    (txn.mutate first).mutate second = txn.mutate (first ++ second) := by
  simp only [Txn.mutate, List.append_assoc]

abbrev TxnM (V : K → Type) (E : Type) := StateT (Txn V) (Except E)

def readKey (key : K) : TxnM V E (Option (V key)) := fun txn => .ok (txn.view.lookup key, txn)

def batchMutate (mutations : List (Mutation V)) : TxnM V E Unit :=
  fun txn => .ok ((), txn.mutate mutations)

/-- A body whose transaction commits without a conflict: all of its writes or,
when it ends in an error and is rolled back, none of them. -/
def atomically (body : TxnM V E A) (store : Finmap V) : Except E (A × Finmap V) :=
  match body ⟨store, []⟩ with
  | .ok (result, txn) => .ok (result, txn.view)
  | .error issue => .error issue

theorem atomically_eq_ok {body : TxnM V E A} {store : Finmap V} {result : A} {txn : Txn V}
    (ran : body ⟨store, []⟩ = .ok (result, txn)) :
    atomically body store = .ok (result, txn.view) := by
  simp only [atomically, ran]

omit [DecidableEq K] in
theorem bind_ok {body : TxnM V E A} {next : A → TxnM V E B} {txn after : Txn V}
    {result : A} (ran : body txn = .ok (result, after)) :
    (body >>= next) txn = next result after := by
  simp only [bind, StateT.bind, ran, Except.bind]

omit [DecidableEq K] in
theorem bind_error {body : TxnM V E A} {next : A → TxnM V E B} {txn : Txn V}
    {issue : E} (ran : body txn = .error issue) :
    (body >>= next) txn = .error issue := by
  simp only [bind, StateT.bind, ran, Except.bind]

omit [DecidableEq K] in
/-- What a sequence returned came from its parts. -/
theorem bind_eq_ok {body : TxnM V E A} {next : A → TxnM V E B} {txn after : Txn V}
    {result : B} (ran : (body >>= next) txn = .ok (result, after)) :
    ∃ middle between, body txn = .ok (middle, between) ∧ next middle between = .ok (result, after) := by
  cases first : body txn with
  | error issue =>
      rw [bind_error first] at ran
      cases ran
  | ok pair =>
      obtain ⟨middle, between⟩ := pair
      rw [bind_ok first] at ran
      exact ⟨middle, between, rfl, ran⟩

/-- The committed state with the number of commits that wrote each key. -/
structure Db (V : K → Type) where
  data : Finmap V
  version : K → Nat

def Db.commit (db : Db V) (writes : List (Mutation V)) : Db V where
  data := applyAll db.data writes
  version key := if key ∈ writes.map Mutation.key then db.version key + 1 else db.version key

/-- A commit succeeds only if no key it writes was written since its start. -/
def Db.MayCommit (start db : Db V) (writes : List (Mutation V)) : Prop :=
  ∀ mutation ∈ writes, db.version mutation.key = start.version mutation.key

/-- How the committed state relates to an earlier state of itself. -/
structure Db.Extends (start db : Db V) : Prop where
  later : ∀ key, start.version key ≤ db.version key
  same : ∀ key, db.version key = start.version key →
    db.data.lookup key = start.data.lookup key

theorem Db.extends_self (db : Db V) : Db.Extends db db := ⟨fun _ => le_rfl, fun _ _ => rfl⟩

theorem Db.Extends.commit {start db : Db V} (extended : Db.Extends start db)
    (writes : List (Mutation V)) : Db.Extends start (db.commit writes) := by
  constructor
  · intro key
    have earlier := extended.later key
    simp only [Db.commit]
    split <;> omega
  · intro key equal
    have earlier := extended.later key
    by_cases written : key ∈ writes.map Mutation.key
    · simp only [Db.commit, if_pos written] at equal
      omega
    · simp only [Db.commit, if_neg written] at equal ⊢
      rw [lookup_applyAll_of_notMem db.data writes key written]
      exact extended.same key equal

/-- First committer wins: a key that a committing transaction writes still holds
what the transaction read at its start. -/
theorem Db.Extends.read_current {start db : Db V} (extended : Db.Extends start db)
    {writes : List (Mutation V)} (may : Db.MayCommit start db writes) {key : K}
    (written : key ∈ writes.map Mutation.key) :
    db.data.lookup key = start.data.lookup key := by
  obtain ⟨mutation, present, rfl⟩ := List.mem_map.mp written
  exact extended.same mutation.key (may mutation present)

end KeyValue
