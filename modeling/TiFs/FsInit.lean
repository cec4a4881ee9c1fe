import TiFs.Directory

/-! Clients that call `init` on a store at the same time. A call reserves an inode
number in one transaction and adds the root entry in another, and the number of the
root goes to whoever finds the metadata missing. -/

namespace TiFs

open KeyValue

inductive InitPhase where
  | reserve
  | addRoot (newIno : StorageIno)
  | returned (item : StorageDirItem)
  | abandoned
  deriving DecidableEq, Repr

def InitPhase.reserved : InitPhase → Option StorageIno
  | .addRoot newIno => some newIno
  | _ => none

structure InitCall where
  gid : Nat
  uid : Nat
  phase : InitPhase
  deriving DecidableEq, Repr

structure InitSystem where
  store : Store
  calls : List InitCall

inductive InitEvent where
  | call (gid uid : Nat)
  | reserved (client : Nat)
  | added (client : Nat) (now : SystemTime)
  | abandon (client : Nat)

/-- The arguments of `get_or_make_dir` in `init`. -/
def InitCall.args (call : InitCall) : NewInode :=
  ⟨parentOfRootInode, [], .directory, 0o777, call.gid, call.uid, 0, none⟩

def GotOrMade.value {R : Type} : GotOrMade R → R
  | .existedAlready value => value
  | .newlyCreated value => value

namespace InitSystem

def blank : InitSystem := ⟨∅, []⟩

def setPhase (state : InitSystem) (client : Nat) (call : InitCall) (phase : InitPhase) : InitSystem :=
  { state with calls := state.calls.set client { call with phase := phase } }

def step (cfg : TiFsConfig) (state : InitSystem) : InitEvent → Option InitSystem
  | .call gid uid => some { state with calls := state.calls ++ [⟨gid, uid, .reserve⟩] }
  | .reserved client =>
      match state.calls[client]? with
      | some call =>
          match call.phase, atomically (metaMutableReserveNewIno cfg) state.store with
          | .reserve, .ok (newIno, store) =>
              some { state.setPhase client call (.addRoot newIno) with store := store }
          | _, _ => none
      | none => none
  | .added client now =>
      match state.calls[client]? with
      | some call =>
          match call.phase with
          | .addRoot newIno =>
              match atomically (directoryAddChildCheckedNewInode call.args newIno now) state.store with
              | .ok (item, store) =>
                  some { state.setPhase client call (.returned item.value) with store := store }
              | .error _ => none
          | _ => none
      | none => none
  | .abandon client => (state.calls[client]?).map fun call => state.setPhase client call .abandoned

def Step (cfg : TiFsConfig) (before : InitSystem) (event : InitEvent) (after : InitSystem) : Prop :=
  before.step cfg event = some after

def isReady (state : InitSystem) : Bool :=
  state.calls.any fun call => match call.phase with
    | .returned _ => true
    | _ => false

/-- The root entry leads to the root inode, and its records are there. -/
structure HasRoot (store : Store) : Prop where
  entry : ∃ typ, dirEntry store parentOfRootInode [] = some ⟨rootInode, typ⟩
  description : (store.lookup (.inodeX rootInode .description)).isSome
  attributes : (store.lookup (.inodeX rootInode .unixAttributes)).isSome
  size : (store.lookup (.inodeX rootInode .size)).isSome

/-- A call that has reserved another number than the root's finds the root entry there. -/
def RootFirst (state : InitSystem) : InitEvent → Prop
  | .added client _ => ∀ call ∈ state.calls[client]?, ∀ newIno ∈ call.phase.reserved,
      newIno ≠ rootInode → (dirEntry state.store parentOfRootInode []).isSome = true
  | _ => True

instance (state : InitSystem) : (event : InitEvent) → Decidable (state.RootFirst event)
  | .added client _ => by unfold RootFirst; infer_instance
  | .call _ _ => isTrue trivial
  | .reserved _ => isTrue trivial
  | .abandon _ => isTrue trivial

structure RootKept (state : InitSystem) : Prop where
  root : (dirEntry state.store parentOfRootInode []).isSome = true → HasRoot state.store
  ready : state.isReady = true → (dirEntry state.store parentOfRootInode []).isSome = true

theorem rootKept_blank : blank.RootKept := by
  constructor
  · intro present
    cases present
  · intro isReady
    cases isReady

variable {cfg : TiFsConfig} {state : InitSystem}

theorem reserve_other {store after : Store} {newIno : StorageIno}
    (ran : atomically (metaMutableReserveNewIno cfg) store = .ok (newIno, after)) {key : Key}
    (notStatic : key ≠ .metaStatic) (notMutable : key ≠ .metaMutable) :
    after.lookup key = store.lookup key := by
  cases stored : store.lookup .metaMutable with
  | none =>
      have reserved : metaMutableReserveNewIno cfg ⟨store, []⟩ = .ok (rootInode, _) :=
        reserve_blank cfg stored
      rw [atomically_eq_ok reserved] at ran
      obtain ⟨_, rfl⟩ := Prod.mk.inj (Except.ok.inj ran)
      rw [Txn.view_mutate, Txn.view_start]
      exact lookup_applyAll_of_notMem store _ key (by simp [initWrites, notStatic, notMutable])
  | some dynMeta =>
      have reserved : metaMutableReserveNewIno cfg ⟨store, []⟩ = .ok (dynMeta.inodeNext, _) :=
        reserve_next cfg stored
      rw [atomically_eq_ok reserved] at ran
      obtain ⟨_, rfl⟩ := Prod.mk.inj (Except.ok.inj ran)
      rw [Txn.view_mutate, Txn.view_start]
      exact lookup_applyAll_of_notMem store _ key (by simp [notMutable])

theorem HasRoot.of_lookup {store after : Store} (root : HasRoot store)
    (same : ∀ key : Key, key ≠ .metaStatic → key ≠ .metaMutable →
      after.lookup key = store.lookup key) : HasRoot after := by
  constructor
  · obtain ⟨typ, isEntry⟩ := root.entry
    refine ⟨typ, ?_⟩
    rw [dirEntry, same _ (by simp) (by simp)]
    exact isEntry
  · rw [same _ (by simp) (by simp)]
    exact root.description
  · rw [same _ (by simp) (by simp)]
    exact root.attributes
  · rw [same _ (by simp) (by simp)]
    exact root.size

theorem hasRoot_created (call : InitCall) (now : SystemTime) (store : Store) :
    HasRoot (applyAll store (createdWrites call.args rootInode now)) := by
  have distinct : ((createdWrites call.args rootInode now).map Mutation.key).Nodup := by
    simp [createdWrites, InitCall.args]
  have written : ∀ (key : Key) (value : key.Value),
      Mutation.put key value ∈ createdWrites call.args rootInode now →
      (applyAll store (createdWrites call.args rootInode now)).lookup key = some value :=
    fun key value listed => lookup_applyAll_put distinct listed
  constructor
  · exact ⟨.directory, written (.directoryChild parentOfRootInode []) ⟨rootInode, .directory⟩
      (by simp [createdWrites, InitCall.args])⟩
  · rw [written (.inodeX rootInode .description) ⟨rootInode, .directory, now⟩
      (by simp [createdWrites, InitCall.args])]
    rfl
  · rw [written (.inodeX rootInode .unixAttributes) ⟨0o777, call.uid, call.gid, 0, 0, now⟩
      (by simp [createdWrites, InitCall.args])]
    rfl
  · rw [written (.inodeX rootInode .size) (InoSize.new now) (by simp [createdWrites, InitCall.args])]
    rfl

theorem isReady_set {client : Nat} {next : InitCall}
    (running : ∀ item, next.phase ≠ .returned item)
    (isReady : InitSystem.isReady { state with calls := state.calls.set client next } = true) :
    state.isReady = true := by
  obtain ⟨other, member, returned⟩ := List.any_eq_true.mp isReady
  rcases List.mem_or_eq_of_mem_set member with earlier | rfl
  · exact List.any_eq_true.mpr ⟨other, earlier, returned⟩
  · cases phase : other.phase with
    | returned item => exact absurd phase (running item)
    | _ =>
        rw [phase] at returned
        cases returned

theorem RootKept.step {before after : InitSystem} {event : InitEvent} (kept : before.RootKept)
    (taken : Step cfg before event after) (rootFirst : before.RootFirst event) : after.RootKept := by
  unfold Step InitSystem.step at taken
  cases event with
  | call gid uid =>
      obtain rfl := Option.some.inj taken
      refine ⟨kept.root, ?_⟩
      intro isReady
      apply kept.ready
      simpa [InitSystem.isReady] using isReady
  | reserved client =>
      simp only at taken
      split at taken
      · next call present =>
          split at taken
          · next newIno store phase ran =>
              obtain rfl := Option.some.inj taken
              have same : ∀ key : Key, key ≠ .metaStatic → key ≠ .metaMutable →
                  store.lookup key = before.store.lookup key :=
                fun key notStatic notMutable => reserve_other ran notStatic notMutable
              have sameEntry : dirEntry store parentOfRootInode [] =
                  dirEntry before.store parentOfRootInode [] := same _ (by simp) (by simp)
              constructor
              · intro present
                simp only [sameEntry] at present
                exact (kept.root present).of_lookup same
              · intro isReady
                simp only [sameEntry]
                exact kept.ready (isReady_set (by simp) isReady)
          · cases taken
      · cases taken
  | added client now =>
      simp only at taken
      split at taken
      · next call present =>
          split at taken
          · next newIno phase =>
              split at taken
              · next item store ran =>
                  obtain rfl := Option.some.inj taken
                  cases found : dirEntry before.store parentOfRootInode [] with
                  | some existing =>
                      have existed : directoryAddChildCheckedNewInode call.args newIno now
                          ⟨before.store, []⟩ = .ok (.existedAlready existing, _) :=
                        addNew_existed found
                      rw [atomically_eq_ok existed] at ran
                      obtain ⟨_, rfl⟩ := Prod.mk.inj (Except.ok.inj ran)
                      have isSome : (dirEntry before.store parentOfRootInode []).isSome = true := by
                        rw [found]
                        rfl
                      exact ⟨fun _ => kept.root isSome, fun _ => isSome⟩
                  | none =>
                      have isRoot : newIno = rootInode := by
                        by_contra notRoot
                        have isSome := rootFirst call present newIno (by rw [phase]; rfl) notRoot
                        rw [found] at isSome
                        cases isSome
                      subst isRoot
                      have created : directoryAddChildCheckedNewInode call.args rootInode now
                          ⟨before.store, []⟩ = .ok (.newlyCreated ⟨rootInode, .directory⟩, _) :=
                        addNew_created found
                      rw [atomically_eq_ok created] at ran
                      obtain ⟨_, rfl⟩ := Prod.mk.inj (Except.ok.inj ran)
                      have root := hasRoot_created call now before.store
                      refine ⟨fun _ => root, fun _ => ?_⟩
                      obtain ⟨typ, isEntry⟩ := root.entry
                      exact Option.isSome_of_eq_some isEntry
              · cases taken
          · cases taken
      · cases taken
  | abandon client =>
      obtain ⟨call, present, rfl⟩ := Option.map_eq_some_iff.mp taken
      refine ⟨kept.root, ?_⟩
      intro isReady
      exact kept.ready (isReady_set (by simp) isReady)

/-- Once a call of `init` has returned the root inode is there, if the root entry is made
by the call that has the root's number. -/
theorem init_has_root (cfg : TiFsConfig) (state : InitSystem)
    (run : Run (Step cfg) RootFirst blank state) (isReady : state.isReady = true) :
    HasRoot state.store := by
  have kept : state.RootKept := by
    refine run.invariant RootKept ?_ rootKept_blank
    intro before event after kept taken rootFirst
    exact kept.step taken rootFirst
  exact kept.root (kept.ready isReady)

theorem exists_run (cfg : TiFsConfig) (allowed : InitSystem → InitEvent → Prop)
    [∀ state event, Decidable (allowed state event)] (events : List InitEvent)
    (check : InitSystem → Bool)
    (ran : (runAll (restrict allowed (step cfg)) blank events).any check = true) :
    ∃ last, Run (Step cfg) allowed blank last ∧ check last = true :=
  Run.of_restrict (fun _ _ _ taken => taken) events check ran

/-- The call that reserved second adds its entry second. -/
theorem init_has_root_in_turn :
    ∃ state, Run (Step (paddingConfig 2 (by decide))) RootFirst blank state ∧
      state.isReady = true ∧ HasRoot state.store := by
  obtain ⟨state, run, isReady⟩ := exists_run (paddingConfig 2 (by decide)) RootFirst
    [.call 0 0, .call 1 1, .reserved 0, .reserved 1, .added 0 5, .added 1 6] isReady
    (by decide +kernel)
  exact ⟨state, run, isReady, init_has_root _ state run isReady⟩

/-- The call that reserved second adds its entry first: the root entry leads to inode 10. -/
theorem init_takes_other_root :
    ¬ ∀ (cfg : TiFsConfig) (state : InitSystem), Run (Step cfg) (fun _ _ => True) blank state →
      state.isReady = true → HasRoot state.store := by
  intro holds
  obtain ⟨state, run, check⟩ := exists_run (paddingConfig 2 (by decide)) (fun _ _ => True)
    [.call 0 0, .call 1 1, .reserved 0, .reserved 1, .added 1 5]
    (fun state => state.isReady &&
      decide (dirEntry state.store parentOfRootInode [] = some ⟨10, .directory⟩)) (by decide +kernel)
  simp only [Bool.and_eq_true, decide_eq_true_eq] at check
  obtain ⟨typ, isEntry⟩ := (holds (paddingConfig 2 (by decide)) state run check.1).entry
  rw [check.2] at isEntry
  cases isEntry

end InitSystem

end TiFs
