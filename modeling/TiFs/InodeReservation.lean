import Mathlib.Order.CompletePartialOrder
import TiFs.Directory
import TiFs.Library.Table

/-! Clients that reserve inode numbers at the same time, one number for a new entry or
many at once for a snapshot. Each reservation is an optimistic transaction on the
counter of the file system, tried again after a conflict. -/

namespace TiFs

open KeyValue Tables

/-- `meta_mutable_reserve_new_inos` with the counter as the `u64` it is: a release build
wraps it around. -/
def metaMutableReserveNewInosU64 (cfg : TiFsConfig) (count : UInt64) : Mini StorageIno := do
  match ← fetchTry .metaMutable with
  | none =>
      metaStaticMutableInit cfg
      return rootInode
  | some dynMeta =>
      put .metaMutable ⟨(dynMeta.inodeNext + count.toNat) % 2 ^ 64⟩
      return dynMeta.inodeNext

section Body

variable {cfg : TiFsConfig} {count : UInt64} {store : Store}

theorem reserveU64_blank (blank : store.lookup .metaMutable = none) :
    metaMutableReserveNewInosU64 cfg count ⟨store, []⟩ = .ok (rootInode, ⟨store, initWrites cfg⟩) := by
  have read : fetchTry .metaMutable (Txn.mk store []) = .ok (none, ⟨store, []⟩) := by
    rw [← blank]
    rfl
  rw [metaMutableReserveNewInosU64, bind_ok read]
  rfl

theorem reserveU64_next {dynMeta : MetaMutable} (stored : store.lookup .metaMutable = some dynMeta) :
    metaMutableReserveNewInosU64 cfg count ⟨store, []⟩ = .ok (dynMeta.inodeNext,
      ⟨store, [Mutation.put .metaMutable ⟨(dynMeta.inodeNext + count.toNat) % 2 ^ 64⟩]⟩) := by
  have read : fetchTry .metaMutable (Txn.mk store []) = .ok (some dynMeta, ⟨store, []⟩) := by
    rw [← stored]
    rfl
  rw [metaMutableReserveNewInosU64, bind_ok read]
  rfl

/-- Below the end of the `u64` numbers this is the reservation the other calls are
modelled with. -/
theorem reserveU64_eq (small : ∀ dynMeta ∈ store.lookup .metaMutable,
      dynMeta.inodeNext + count.toNat < 2 ^ 64) :
    metaMutableReserveNewInosU64 cfg count ⟨store, []⟩ =
      metaMutableReserveNewInos cfg count.toNat ⟨store, []⟩ := by
  cases stored : store.lookup .metaMutable with
  | none =>
      have read : fetchTry .metaMutable (Txn.mk store []) = .ok (none, ⟨store, []⟩) := by
        rw [← stored]
        rfl
      rw [reserveU64_blank stored, metaMutableReserveNewInos, bind_ok read]
      rfl
  | some dynMeta =>
      have read : fetchTry .metaMutable (Txn.mk store []) = .ok (some dynMeta, ⟨store, []⟩) := by
        rw [← stored]
        rfl
      rw [reserveU64_next stored, Nat.mod_eq_of_lt (small dynMeta stored),
        metaMutableReserveNewInos, bind_ok read]
      rfl

end Body

structure ReserveAttempt where
  start : Db Key.Value
  writes : List Write
  ino : StorageIno

inductive ReservePhase where
  | waiting
  | started (attempt : ReserveAttempt)
  | ended

structure ReserveCall where
  count : UInt64
  phase : ReservePhase

structure Reserved where
  ino : StorageIno
  count : Nat
  deriving DecidableEq, Repr

def Reserved.numbers (reserved : Reserved) : Set StorageIno :=
  Set.Ico reserved.ino (reserved.ino + reserved.count)

/-- `returned` has the committed calls in the order of their commits. -/
structure ReserveSystem where
  db : Db Key.Value
  calls : List ReserveCall
  returned : List Reserved

/-- `conflict` is a commit that was refused and is tried again, `other` a transaction
that leaves the counter alone. -/
inductive ReserveEvent where
  | call (count : UInt64)
  | begin (client : Nat)
  | commit (client : Nat)
  | conflict (client : Nat)
  | abandon (client : Nat)
  | other (writes : List Write)

namespace ReserveSystem

def blank : ReserveSystem := ⟨⟨∅, fun _ => 0⟩, [], []⟩

def setPhase (state : ReserveSystem) (client : Nat) (call : ReserveCall) (phase : ReservePhase) :
    ReserveSystem :=
  { state with calls := state.calls.set client { call with phase := phase } }

def step (cfg : TiFsConfig) (state : ReserveSystem) : ReserveEvent → Option ReserveSystem
  | .call count => some { state with calls := state.calls ++ [⟨count, .waiting⟩] }
  | .begin client =>
      match state.calls[client]? with
      | some ⟨count, .waiting⟩ =>
          match metaMutableReserveNewInosU64 cfg count ⟨state.db.data, []⟩ with
          | .ok (ino, txn) =>
              some (state.setPhase client ⟨count, .waiting⟩ (.started ⟨state.db, txn.buffer, ino⟩))
          | .error _ => some (state.setPhase client ⟨count, .waiting⟩ .ended)
      | _ => none
  | .commit client =>
      match state.calls[client]? with
      | some ⟨count, .started attempt⟩ =>
          if ∀ write ∈ attempt.writes, state.db.version write.key = attempt.start.version write.key then
            some (setPhase
              ⟨state.db.commit attempt.writes, state.calls, state.returned ++ [⟨attempt.ino, count.toNat⟩]⟩
              client ⟨count, .started attempt⟩ .ended)
          else none
      | _ => none
  | .conflict client =>
      match state.calls[client]? with
      | some ⟨count, .started attempt⟩ =>
          some (state.setPhase client ⟨count, .started attempt⟩ .waiting)
      | _ => none
  | .abandon client => (state.calls[client]?).map fun call => state.setPhase client call .ended
  | .other writes =>
      if Key.metaMutable ∈ writes.map Mutation.key then none
      else some { state with db := state.db.commit writes }

def Step (cfg : TiFsConfig) (before : ReserveSystem) (event : ReserveEvent) (after : ReserveSystem) :
    Prop :=
  before.step cfg event = some after

def AsksForSome (_ : ReserveSystem) : ReserveEvent → Prop
  | .call count => 0 < count.toNat
  | _ => True

instance (state : ReserveSystem) : (event : ReserveEvent) → Decidable (state.AsksForSome event)
  | .call count => inferInstanceAs (Decidable (0 < count.toNat))
  | .begin _ => isTrue trivial
  | .commit _ => isTrue trivial
  | .conflict _ => isTrue trivial
  | .abandon _ => isTrue trivial
  | .other _ => isTrue trivial

def total (state : ReserveSystem) : Nat := (state.returned.map Reserved.count).sum

end ReserveSystem

/-- Reservations one after the other, the counter wrapped around: each begins where the
ones before it end. -/
def LaidOut : Nat → List Reserved → Prop
  | _, [] => True
  | next, reserved :: rest =>
      reserved.ino = next % 2 ^ 64 ∧ LaidOut (next + reserved.count) rest

theorem laidOut_append_singleton {next : Nat} {list : List Reserved} {reserved : Reserved} :
    LaidOut next (list ++ [reserved]) ↔
      LaidOut next list ∧ reserved.ino = (next + (list.map Reserved.count).sum) % 2 ^ 64 := by
  induction list generalizing next with
  | nil => simp [LaidOut]
  | cons first rest ih => simp [LaidOut, ih, and_assoc, Nat.add_assoc]

theorem LaidOut.between {next : Nat} {list : List Reserved} (laid : LaidOut next list)
    (small : next + (list.map Reserved.count).sum ≤ 2 ^ 64)
    (positive : ∀ reserved ∈ list, 0 < reserved.count) :
    ∀ reserved ∈ list, next ≤ reserved.ino := by
  induction list generalizing next with
  | nil => exact fun _ listed => absurd listed List.not_mem_nil
  | cons first rest ih =>
      have firstPositive := positive first List.mem_cons_self
      simp only [List.map_cons, List.sum_cons] at small
      intro reserved listed
      rcases List.mem_cons.mp listed with rfl | later
      · rw [laid.1, Nat.mod_eq_of_lt (by omega)]
      · have above := ih laid.2 (by omega)
          (fun other member => positive other (List.mem_cons_of_mem _ member)) reserved later
        exact le_trans (Nat.le_add_right _ _) above

theorem LaidOut.disjoint {next : Nat} {list : List Reserved} (laid : LaidOut next list)
    (small : next + (list.map Reserved.count).sum ≤ 2 ^ 64)
    (positive : ∀ reserved ∈ list, 0 < reserved.count) :
    list.Pairwise fun left right => Disjoint left.numbers right.numbers := by
  induction list generalizing next with
  | nil => exact List.Pairwise.nil
  | cons first rest ih =>
      have firstPositive := positive first List.mem_cons_self
      have restPositive : ∀ reserved ∈ rest, 0 < reserved.count :=
        fun other member => positive other (List.mem_cons_of_mem _ member)
      simp only [List.map_cons, List.sum_cons] at small
      have firstIno : first.ino = next := by
        rw [laid.1, Nat.mod_eq_of_lt (by omega)]
      apply List.Pairwise.cons
      · intro reserved later
        have above := laid.2.between (by omega) restPositive reserved later
        apply Set.disjoint_left.mpr
        intro number inFirst inLater
        rw [Reserved.numbers, Set.mem_Ico, firstIno] at inFirst
        exact absurd (lt_of_lt_of_le inFirst.2 above) (Nat.not_lt.mpr inLater.1)
      · exact ih laid.2 (by omega) restPositive

namespace ReserveSystem

inductive Sound (cfg : TiFsConfig) (db : Db Key.Value) (count : UInt64) : ReservePhase → Prop
  | waiting : Sound cfg db count .waiting
  | ended : Sound cfg db count .ended
  | first (start : Db Key.Value) (extended : start.Extends db)
      (blank : start.data.lookup .metaMutable = none) :
      Sound cfg db count (.started ⟨start, initWrites cfg, rootInode⟩)
  | next (start : Db Key.Value) (extended : start.Extends db) (dynMeta : MetaMutable)
      (stored : start.data.lookup .metaMutable = some dynMeta) :
      Sound cfg db count (.started ⟨start,
        [Mutation.put .metaMutable ⟨(dynMeta.inodeNext + count.toNat) % 2 ^ 64⟩], dynMeta.inodeNext⟩)

inductive Counted (data : Store) : List Reserved → Prop
  | unused (blank : data.lookup .metaMutable = none) : Counted data []
  | used (first : Reserved) (rest : List Reserved) (isRoot : first.ino = rootInode)
      (laid : LaidOut firstDataInode rest)
      (stored : data.lookup .metaMutable =
        some ⟨(firstDataInode + (rest.map Reserved.count).sum) % 2 ^ 64⟩) :
      Counted data (first :: rest)

structure Valid (cfg : TiFsConfig) (state : ReserveSystem) : Prop where
  sound : ∀ call ∈ state.calls, Sound cfg state.db call.count call.phase
  counted : Counted state.db.data state.returned
  asked : ∀ call ∈ state.calls, 0 < call.count.toNat
  positive : ∀ reserved ∈ state.returned, 0 < reserved.count

variable {cfg : TiFsConfig}

theorem valid_blank : Valid cfg blank where
  sound := fun _ listed => absurd listed List.not_mem_nil
  counted := .unused rfl
  asked := fun _ listed => absurd listed List.not_mem_nil
  positive := fun _ listed => absurd listed List.not_mem_nil

theorem Sound.commit {db : Db Key.Value} {count : UInt64} {phase : ReservePhase}
    (sound : Sound cfg db count phase) (writes : List Write) :
    Sound cfg (db.commit writes) count phase := by
  cases sound with
  | waiting => exact .waiting
  | ended => exact .ended
  | first start extended blank => exact .first start (extended.commit writes) blank
  | next start extended dynMeta stored => exact .next start (extended.commit writes) dynMeta stored

theorem Valid.setPhase {state : ReserveSystem} (valid : Valid cfg state) {client : Nat}
    {call : ReserveCall} (present : state.calls[client]? = some call) {phase : ReservePhase}
    (sound : Sound cfg state.db call.count phase) : Valid cfg (state.setPhase client call phase) where
  sound := by
    intro other member
    rcases List.mem_or_eq_of_mem_set member with earlier | rfl
    · exact valid.sound other earlier
    · exact sound
  counted := valid.counted
  asked := by
    intro other member
    rcases List.mem_or_eq_of_mem_set member with earlier | rfl
    · exact valid.asked other earlier
    · exact valid.asked call (List.mem_of_getElem? present)
  positive := valid.positive

/-- What a committing transaction read is still there, so its numbers follow the ones
returned before. -/
theorem Counted.commit {db : Db Key.Value} {returned : List Reserved} {count : UInt64}
    {attempt : ReserveAttempt} (counted : Counted db.data returned)
    (sound : Sound cfg db count (.started attempt))
    (may : Db.MayCommit attempt.start db attempt.writes) :
    Counted (db.commit attempt.writes).data (returned ++ [⟨attempt.ino, count.toNat⟩]) := by
  cases sound with
  | first start extended blank =>
      have isBlank : db.data.lookup .metaMutable = none := by
        rw [extended.read_current may (by simp [initWrites]), blank]
      have written : (db.commit (initWrites cfg)).data.lookup .metaMutable = some ⟨firstDataInode⟩ :=
        lookup_applyAll_put (by simp [initWrites]) (by simp [initWrites])
      cases counted with
      | unused _ => exact .used _ [] rfl trivial written
      | used first rest _ _ stored =>
          rw [isBlank] at stored
          cases stored
  | next start extended dynMeta stored =>
      have current : db.data.lookup .metaMutable = some dynMeta := by
        rw [extended.read_current may (by simp), stored]
      have written : (db.commit [Mutation.put .metaMutable
          (⟨(dynMeta.inodeNext + count.toNat) % 2 ^ 64⟩ : MetaMutable)]).data.lookup .metaMutable =
          some ⟨(dynMeta.inodeNext + count.toNat) % 2 ^ 64⟩ :=
        lookup_applyAll_put (by simp) (by simp)
      cases counted with
      | unused blank =>
          rw [blank] at current
          cases current
      | used first rest isRoot laid isNext =>
          rw [isNext] at current
          obtain rfl := Option.some.inj current
          refine .used first (rest ++ [⟨_, count.toNat⟩]) isRoot
            (laidOut_append_singleton.mpr ⟨laid, rfl⟩) ?_
          rw [written, List.map_append, List.sum_append, List.map_singleton, List.sum_singleton,
            ← Nat.add_assoc, Nat.mod_add_mod]

theorem Counted.other {db : Db Key.Value} {returned : List Reserved}
    (counted : Counted db.data returned) {writes : List Write}
    (outside : Key.metaMutable ∉ writes.map Mutation.key) :
    Counted (db.commit writes).data returned := by
  have same : (db.commit writes).data.lookup .metaMutable = db.data.lookup .metaMutable :=
    lookup_applyAll_of_notMem db.data writes _ outside
  cases counted with
  | unused blank => exact .unused (same.trans blank)
  | used first rest isRoot laid stored => exact .used first rest isRoot laid (same.trans stored)

theorem Valid.step {before after : ReserveSystem} {event : ReserveEvent} (valid : Valid cfg before)
    (taken : Step cfg before event after) (asks : before.AsksForSome event) : Valid cfg after := by
  unfold Step ReserveSystem.step at taken
  cases event with
  | call count =>
      obtain rfl := Option.some.inj taken
      refine ⟨?_, valid.counted, ?_, valid.positive⟩
      · intro call member
        rcases List.mem_append.mp member with earlier | new
        · exact valid.sound call earlier
        · rw [List.mem_singleton.mp new]
          exact .waiting
      · intro call member
        rcases List.mem_append.mp member with earlier | new
        · exact valid.asked call earlier
        · rw [List.mem_singleton.mp new]
          exact asks
  | begin client =>
      simp only at taken
      split at taken
      · next count present =>
          cases stored : before.db.data.lookup .metaMutable with
          | none =>
              rw [reserveU64_blank stored] at taken
              obtain rfl := Option.some.inj taken
              exact valid.setPhase present (.first before.db before.db.extends_self stored)
          | some dynMeta =>
              rw [reserveU64_next stored] at taken
              obtain rfl := Option.some.inj taken
              exact valid.setPhase present (.next before.db before.db.extends_self dynMeta stored)
      · cases taken
  | commit client =>
      simp only at taken
      split at taken
      · next count attempt present =>
          split at taken
          · next may =>
              obtain rfl := Option.some.inj taken
              have member := List.mem_of_getElem? present
              have committed : Valid cfg ⟨before.db.commit attempt.writes, before.calls,
                  before.returned ++ [⟨attempt.ino, count.toNat⟩]⟩ := by
                refine ⟨?_, valid.counted.commit (valid.sound _ member) may, valid.asked, ?_⟩
                · intro call listed
                  exact (valid.sound call listed).commit attempt.writes
                · intro reserved listed
                  rcases List.mem_append.mp listed with earlier | new
                  · exact valid.positive reserved earlier
                  · rw [List.mem_singleton.mp new]
                    exact valid.asked _ member
              exact committed.setPhase present .ended
          · cases taken
      · cases taken
  | conflict client =>
      simp only at taken
      split at taken
      · next count attempt present =>
          obtain rfl := Option.some.inj taken
          exact valid.setPhase present .waiting
      · cases taken
  | abandon client =>
      obtain ⟨call, present, rfl⟩ := Option.map_eq_some_iff.mp taken
      exact valid.setPhase present .ended
  | other writes =>
      simp only at taken
      split at taken
      · cases taken
      · next outside =>
          obtain rfl := Option.some.inj taken
          refine ⟨?_, valid.counted.other outside, valid.asked, valid.positive⟩
          intro call listed
          exact (valid.sound call listed).commit writes

/-- The returned numbers are disjoint, the root's come first and all others are data
inodes. -/
structure Apart (returned : List Reserved) : Prop where
  disjoint : returned.Pairwise fun left right => Disjoint left.numbers right.numbers
  root : ∀ first ∈ returned.head?, first.numbers = {rootInode}
  data : ∀ reserved ∈ returned.tail, ∀ number ∈ reserved.numbers, firstDataInode ≤ number

theorem numbers_root {first : Reserved} (isRoot : first.ino = rootInode) (single : first.count = 1) :
    first.numbers = {rootInode} := by
  rw [Reserved.numbers, isRoot, single]
  ext number
  rw [Set.mem_Ico, Set.mem_singleton_iff]
  constructor
  · intro inside
    exact le_antisymm (Nat.lt_succ_iff.mp inside.2) inside.1
  · intro same
    rw [same]
    exact ⟨le_rfl, Nat.lt_succ_self _⟩

theorem Valid.apart {state : ReserveSystem} (valid : Valid cfg state)
    (single : ∀ first ∈ state.returned.head?, first.count = 1)
    (bounded : state.total ≤ 2 ^ 64 - firstDataInode + 1) : Apart state.returned := by
  obtain ⟨db, calls, returned⟩ := state
  have positive := valid.positive
  cases valid.counted with
  | unused blank =>
      constructor
      · exact List.Pairwise.nil
      · exact fun _ isFirst => absurd isFirst (by simp)
      · exact fun _ listed => absurd listed List.not_mem_nil
  | used first rest isRoot laid stored =>
      have firstSingle : first.count = 1 := single first rfl
      have restPositive : ∀ reserved ∈ rest, 0 < reserved.count :=
        fun reserved listed => positive reserved (List.mem_cons_of_mem _ listed)
      have small : firstDataInode + (rest.map Reserved.count).sum ≤ 2 ^ 64 := by
        rw [total, List.map_cons, List.sum_cons, firstSingle] at bounded
        change 1 + (rest.map Reserved.count).sum ≤ 2 ^ 64 - 10 + 1 at bounded
        change 10 + (rest.map Reserved.count).sum ≤ 2 ^ 64
        omega
      have isData : ∀ reserved ∈ rest, ∀ number ∈ reserved.numbers, firstDataInode ≤ number :=
        fun reserved listed number inside =>
          le_trans (laid.between small restPositive reserved listed) inside.1
      refine ⟨?_, ?_, isData⟩
      · apply List.Pairwise.cons
        · intro reserved listed
          rw [numbers_root isRoot firstSingle]
          apply Set.disjoint_singleton_left.mpr
          intro inside
          exact absurd (isData reserved listed rootInode inside) (by decide)
        · exact laid.disjoint small restPositive
      · intro other isFirst
        obtain rfl := Option.some.inj isFirst
        exact numbers_root isRoot firstSingle

/-- No inode number is handed out twice while the counter stays within the `u64` numbers:
it begins at the first data inode, so the root's number and the ones from there on may
be reserved. -/
theorem reservations_apart (cfg : TiFsConfig) (state : ReserveSystem)
    (run : Run (Step cfg) AsksForSome blank state)
    (single : ∀ first ∈ state.returned.head?, first.count = 1)
    (bounded : state.total ≤ 2 ^ 64 - firstDataInode + 1) : Apart state.returned := by
  have valid : Valid cfg state := by
    refine run.invariant (Valid cfg) ?_ valid_blank
    intro before event after valid taken asks
    exact valid.step taken asks
  exact valid.apart single bounded

theorem exists_run (cfg : TiFsConfig) (events : List ReserveEvent) (check : ReserveSystem → Bool)
    (ran : (runAll (restrict AsksForSome (step cfg)) blank events).any check = true) :
    ∃ last, Run (Step cfg) AsksForSome blank last ∧ check last = true :=
  Run.of_restrict (fun _ _ _ taken => taken) events check ran

/-- Three clients begin on the blank store; the two that lose try again. -/
theorem reservations_apart_conflict :
    ∃ state, Run (Step (paddingConfig 2 (by decide))) AsksForSome blank state ∧
      state.returned = [⟨1, 1⟩, ⟨10, 7⟩, ⟨17, 1⟩] ∧ Apart state.returned := by
  obtain ⟨state, run, isReturned⟩ := exists_run (paddingConfig 2 (by decide))
    [.call 1, .call 7, .call 1, .begin 0, .begin 1, .begin 2, .commit 0, .conflict 1, .begin 1,
     .conflict 2, .begin 2, .commit 1, .conflict 2, .begin 2, .commit 2]
    (fun state => decide (state.returned = [⟨1, 1⟩, ⟨10, 7⟩, ⟨17, 1⟩])) (by decide +kernel)
  rw [decide_eq_true_eq] at isReturned
  refine ⟨state, run, isReturned, reservations_apart _ state run ?_ ?_⟩
  · rw [isReturned]
    decide
  · rw [total, isReturned]
    decide

/-- With fewer than `2 ^ 64` numbers in total the counter may still wrap around, as it
begins at 10: the number after it is 5. -/
theorem reservation_wraps :
    ¬ ∀ (cfg : TiFsConfig) (state : ReserveSystem), Run (Step cfg) AsksForSome blank state →
      (∀ first ∈ state.returned.head?, first.count = 1) → state.total < 2 ^ 64 →
      Apart state.returned := by
  intro holds
  obtain ⟨state, run, isReturned⟩ := exists_run (paddingConfig 2 (by decide))
    [.call 1, .begin 0, .commit 0, .call (UInt64.ofNat (2 ^ 64 - 5)), .begin 1, .commit 1,
     .call 1, .begin 2, .commit 2]
    (fun state => decide (state.returned = [⟨1, 1⟩, ⟨10, 2 ^ 64 - 5⟩, ⟨5, 1⟩])) (by decide +kernel)
  rw [decide_eq_true_eq] at isReturned
  have apart := holds _ state run (by rw [isReturned]; decide) (by rw [total, isReturned]; decide)
  rw [isReturned] at apart
  have isData : firstDataInode ≤ 5 :=
    apart.data ⟨5, 1⟩ (by simp) 5 ⟨le_rfl, Nat.lt_succ_self 5⟩
  exact absurd isData (by decide)

end ReserveSystem

end TiFs
