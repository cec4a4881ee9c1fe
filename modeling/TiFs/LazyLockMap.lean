import TiFs.Library.Table
import TiFs.Library.Transaction

/-! `LazyLockMap`: a lock for each key, made when it is asked for. The map knows the locks
by weak references, which die with the last task that has a lock or a guard of it. -/

namespace TiFs

open KeyValue Tables

/-- What a task does with its reference to a lock: it has it from `get_lock`, waits in
`write_owned` or `read_owned`, or has the guard. -/
inductive RefState where
  | held
  | awaitsWrite
  | awaitsRead
  | writes
  | reads
  | dropped
  deriving DecidableEq, Repr

structure LockRef (K : Type) where
  key : K
  lock : Nat
  state : RefState
  deriving DecidableEq, Repr

def LockRef.isAlive {K : Type} (ref : LockRef K) : Bool := ref.state ≠ .dropped

theorem LockRef.isAlive_of_state {K : Type} {ref : LockRef K} {state : RefState} (isState : ref.state = state)
    (kept : state ≠ .dropped) : ref.isAlive = true :=
  decide_eq_true (isState ▸ kept)

/-- `made` counts the locks, and a lock is known by its number; `refs` are all strong
references that there ever were. -/
structure LazyLockMap (K : Type) where
  map : Table K Nat
  made : Nat
  refs : List (LockRef K)

inductive LazyLockEvent (K : Type) where
  | getLock (key : K)
  | share (ref : Nat)
  | lockWrite (ref : Nat)
  | lockRead (ref : Nat)
  | acquire (ref : Nat)
  | drop (ref : Nat)
  | cleanup (key : K)

namespace LazyLockMap

variable {K : Type}

def new : LazyLockMap K := ⟨∅, 0, []⟩

def upgrades (locks : LazyLockMap K) (lock : Nat) : Bool :=
  locks.refs.any fun ref => ref.isAlive && ref.lock = lock

theorem upgrades_iff {locks : LazyLockMap K} {lock : Nat} :
    locks.upgrades lock = true ↔ ∃ ref ∈ locks.refs, ref.isAlive = true ∧ ref.lock = lock := by
  simp only [upgrades, List.any_eq_true, Bool.and_eq_true, decide_eq_true_eq]

/-- What tokio's lock lets a waiting task become. -/
def granted (locks : LazyLockMap K) (ref : LockRef K) : Option RefState :=
  match ref.state with
  | .awaitsWrite =>
      if locks.refs.all fun other => other.lock ≠ ref.lock ∨ other.state ≠ .writes ∧ other.state ≠ .reads then
        some .writes
      else none
  | .awaitsRead =>
      if locks.refs.all fun other => other.lock ≠ ref.lock ∨ other.state ≠ .writes then some .reads else none
  | _ => none

def changed (locks : LazyLockMap K) (ref : LockRef K) : LazyLockEvent K → Option RefState
  | .lockWrite _ => if ref.state = .held then some .awaitsWrite else none
  | .lockRead _ => if ref.state = .held then some .awaitsRead else none
  | .acquire _ => locks.granted ref
  | .drop _ => some .dropped
  | _ => none

theorem changed_guard {locks : LazyLockMap K} {ref : LockRef K} {event : LazyLockEvent K} {state : RefState}
    (isState : locks.changed ref event = some state) :
    (state = .writes → ∀ other ∈ locks.refs, other.lock = ref.lock → other.state ≠ .writes ∧ other.state ≠ .reads) ∧
      (state = .reads → ∀ other ∈ locks.refs, other.lock = ref.lock → other.state ≠ .writes) ∧
      (state ≠ .dropped → ref.isAlive = true) := by
  cases event with
  | lockWrite _ =>
      obtain ⟨held, equal⟩ := Option.ite_none_right_eq_some.mp isState
      obtain rfl := Option.some.inj equal
      exact ⟨nofun, nofun, fun _ => LockRef.isAlive_of_state held nofun⟩
  | lockRead _ =>
      obtain ⟨held, equal⟩ := Option.ite_none_right_eq_some.mp isState
      obtain rfl := Option.some.inj equal
      exact ⟨nofun, nofun, fun _ => LockRef.isAlive_of_state held nofun⟩
  | acquire _ =>
      simp only [changed, granted] at isState
      split at isState
      · next waits =>
          obtain ⟨free, equal⟩ := Option.ite_none_right_eq_some.mp isState
          obtain rfl := Option.some.inj equal
          refine ⟨?_, nofun, fun _ => LockRef.isAlive_of_state waits nofun⟩
          intro _ other member same
          exact (of_decide_eq_true (List.all_eq_true.mp free other member)).resolve_left (not_not_intro same)
      · next waits =>
          obtain ⟨free, equal⟩ := Option.ite_none_right_eq_some.mp isState
          obtain rfl := Option.some.inj equal
          refine ⟨nofun, ?_, fun _ => LockRef.isAlive_of_state waits nofun⟩
          intro _ other member same
          exact (of_decide_eq_true (List.all_eq_true.mp free other member)).resolve_left (not_not_intro same)
      · cases isState
  | drop _ =>
      obtain rfl := Option.some.inj isState
      exact ⟨nofun, nofun, fun kept => absurd rfl kept⟩
  | getLock _ => cases isState
  | share _ => cases isState
  | cleanup _ => cases isState

section Keys

variable [DecidableEq K]

def getLock (locks : LazyLockMap K) (key : K) : LazyLockMap K :=
  match (locks.map.lookup key).filter locks.upgrades with
  | some lock => { locks with refs := locks.refs ++ [⟨key, lock, .held⟩] }
  | none =>
      { map := locks.map.insert key locks.made
        made := locks.made + 1
        refs := locks.refs ++ [⟨key, locks.made, .held⟩] }

def change (locks : LazyLockMap K) (i : Nat) (event : LazyLockEvent K) : Option (LazyLockMap K) := do
  let ref ← locks.refs[i]?
  let state ← locks.changed ref event
  some { locks with refs := locks.refs.set i { ref with state := state } }

/-- `retain` looks at one entry after the other while references are dropped in between. -/
def cleanup (locks : LazyLockMap K) (key : K) : LazyLockMap K :=
  match (locks.map.lookup key).filter locks.upgrades with
  | some _ => locks
  | none => { locks with map := locks.map.erase key }

def step (locks : LazyLockMap K) : LazyLockEvent K → Option (LazyLockMap K)
  | .getLock key => some (locks.getLock key)
  | .share i => do
      let ref ← locks.refs[i]?
      if ref.state = .held then some { locks with refs := locks.refs ++ [ref] } else none
  | .lockWrite i => locks.change i (.lockWrite i)
  | .lockRead i => locks.change i (.lockRead i)
  | .acquire i => locks.change i (.acquire i)
  | .drop i => locks.change i (.drop i)
  | .cleanup key => some (locks.cleanup key)

/-- The map leads to the lock of every live reference, and each lock excludes. -/
structure Sound (locks : LazyLockMap K) : Prop where
  known : ∀ ref ∈ locks.refs, ref.isAlive = true → locks.map.lookup ref.key = some ref.lock
  fresh : ∀ ref ∈ locks.refs, ref.lock < locks.made
  excludes : ∀ (i j : Nat) (one other : LockRef K), locks.refs[i]? = some one → locks.refs[j]? = some other →
    i ≠ j → one.lock = other.lock → one.state = .writes → other.state ≠ .writes ∧ other.state ≠ .reads

theorem sound_new : Sound (new : LazyLockMap K) where
  known := nofun
  fresh := nofun
  excludes := nofun

theorem Sound.lookup_upgrades {locks : LazyLockMap K} (sound : Sound locks) {ref : LockRef K}
    (member : ref ∈ locks.refs) (alive : ref.isAlive = true) :
    (locks.map.lookup ref.key).filter locks.upgrades = some ref.lock := by
  rw [sound.known ref member alive, Option.filter_some,
    if_pos (upgrades_iff.mpr ⟨ref, member, alive, rfl⟩)]

theorem Sound.added {locks : LazyLockMap K} (sound : Sound locks) {map : Table K Nat} {made : Nat}
    {new : LockRef K} (held : new.state = .held) (later : locks.made ≤ made) (below : new.lock < made)
    (entry : map.lookup new.key = some new.lock)
    (kept : ∀ ref ∈ locks.refs, ref.isAlive = true → map.lookup ref.key = some ref.lock) :
    Sound ⟨map, made, locks.refs ++ [new]⟩ where
  known := by
    intro ref member alive
    rcases List.mem_append.mp member with old | isNew
    · exact kept ref old alive
    · rw [List.mem_singleton.mp isNew]
      exact entry
  fresh := by
    intro ref member
    rcases List.mem_append.mp member with old | isNew
    · exact (sound.fresh ref old).trans_le later
    · rw [List.mem_singleton.mp isNew]
      exact below
  excludes := by
    intro i j one other isOne isOther different same writes
    rcases getElem?_concat_cases isOne with ⟨_, rfl⟩ | oldOne
    · rw [held] at writes
      cases writes
    · rcases getElem?_concat_cases isOther with ⟨_, rfl⟩ | oldOther
      · rw [held]
        exact ⟨nofun, nofun⟩
      · exact sound.excludes i j one other oldOne oldOther different same writes

theorem Sound.getLock {locks : LazyLockMap K} (sound : Sound locks) (key : K) : Sound (locks.getLock key) := by
  unfold LazyLockMap.getLock
  split
  · next lock found =>
      obtain ⟨entry, upgraded⟩ := Option.filter_eq_some_iff.mp found
      obtain ⟨ref, member, _, isLock⟩ := upgrades_iff.mp upgraded
      exact sound.added rfl le_rfl (isLock ▸ sound.fresh ref member) entry sound.known
  · next missing =>
      refine sound.added rfl (Nat.le_succ _) (Nat.lt_succ_self _) (AList.lookup_insert _) ?_
      intro ref member alive
      have other : ref.key ≠ key := by
        rintro rfl
        cases (sound.lookup_upgrades member alive).symm.trans missing
      rw [AList.lookup_insert_ne other]
      exact sound.known ref member alive

theorem Sound.cleanup {locks : LazyLockMap K} (sound : Sound locks) (key : K) : Sound (locks.cleanup key) := by
  unfold LazyLockMap.cleanup
  split
  · exact sound
  · next missing =>
      refine ⟨?_, sound.fresh, sound.excludes⟩
      intro ref member alive
      have other : ref.key ≠ key := by
        rintro rfl
        cases (sound.lookup_upgrades member alive).symm.trans missing
      rw [AList.lookup_erase_ne other]
      exact sound.known ref member alive

theorem Sound.change {locks after : LazyLockMap K} (sound : Sound locks) {i : Nat} {event : LazyLockEvent K}
    (isAfter : locks.change i event = some after) : Sound after := by
  obtain ⟨ref, present, rest⟩ := Option.bind_eq_some_iff.mp isAfter
  obtain ⟨state, isState, equal⟩ := Option.bind_eq_some_iff.mp rest
  obtain rfl := Option.some.inj equal
  obtain ⟨writesFree, readsFree, wasAlive⟩ := changed_guard isState
  have listed := List.mem_of_getElem? present
  refine ⟨?_, ?_, ?_⟩
  · intro other member alive
    rcases List.mem_or_eq_of_mem_set member with old | rfl
    · exact sound.known other old alive
    · exact sound.known ref listed (wasAlive (of_decide_eq_true alive))
  · intro other member
    rcases List.mem_or_eq_of_mem_set member with old | rfl
    · exact sound.fresh other old
    · exact sound.fresh ref listed
  · intro a b one other isOne isOther different same writes
    rcases getElem?_set_cases isOne with ⟨isRef, rfl⟩ | ⟨_, oldOne⟩
    · rcases getElem?_set_cases isOther with ⟨alsoRef, rfl⟩ | ⟨_, oldOther⟩
      · exact absurd (isRef.symm.trans alsoRef) different
      · exact writesFree writes other (List.mem_of_getElem? oldOther) same.symm
    · rcases getElem?_set_cases isOther with ⟨_, rfl⟩ | ⟨_, oldOther⟩
      · have holder := List.mem_of_getElem? oldOne
        exact ⟨fun isWrite => (writesFree isWrite one holder same).1 writes,
          fun isRead => readsFree isRead one holder same writes⟩
      · exact sound.excludes a b one other oldOne oldOther different same writes

theorem Sound.step {locks after : LazyLockMap K} (sound : Sound locks) {event : LazyLockEvent K}
    (stepped : locks.step event = some after) : Sound after := by
  cases event with
  | getLock key =>
      obtain rfl := Option.some.inj stepped
      exact sound.getLock key
  | share i =>
      obtain ⟨ref, present, rest⟩ := Option.bind_eq_some_iff.mp stepped
      obtain ⟨held, equal⟩ := Option.ite_none_right_eq_some.mp rest
      obtain rfl := Option.some.inj equal
      have member := List.mem_of_getElem? present
      have alive := LockRef.isAlive_of_state held nofun
      exact sound.added held le_rfl (sound.fresh ref member) (sound.known ref member alive) sound.known
  | lockWrite i => exact sound.change stepped
  | lockRead i => exact sound.change stepped
  | acquire i => exact sound.change stepped
  | drop i => exact sound.change stepped
  | cleanup key =>
      obtain rfl := Option.some.inj stepped
      exact sound.cleanup key

theorem Sound.same_lock {locks : LazyLockMap K} (sound : Sound locks) {one other : LockRef K}
    (isOne : one ∈ locks.refs) (isOther : other ∈ locks.refs) (oneAlive : one.isAlive = true)
    (otherAlive : other.isAlive = true) (sameKey : one.key = other.key) : one.lock = other.lock := by
  have entry := sound.known one isOne oneAlive
  rw [sameKey, sound.known other isOther otherAlive] at entry
  exact (Option.some.inj entry).symm

/-- In every order of steps: a write guard and another guard are of different keys, all live
references of a key are to one lock, and `get_lock` makes no other one while there are any. -/
theorem guards_exclude (locks : LazyLockMap K)
    (run : Run (fun before event after => before.step event = some after) (fun _ _ => True) new locks) :
    (∀ (i j : Nat) (one other : LockRef K), locks.refs[i]? = some one → locks.refs[j]? = some other → i ≠ j →
      one.state = .writes → other.state = .writes ∨ other.state = .reads → one.key ≠ other.key) ∧
    (∀ one ∈ locks.refs, ∀ other ∈ locks.refs, one.isAlive = true → other.isAlive = true →
      one.key = other.key → one.lock = other.lock) ∧
    ∀ ref ∈ locks.refs, ref.isAlive = true →
      locks.getLock ref.key = { locks with refs := locks.refs ++ [⟨ref.key, ref.lock, .held⟩] } := by
  have sound : Sound locks := by
    refine Run.invariant Sound ?_ sound_new run
    intro before event after holds stepped _
    exact holds.step stepped
  refine ⟨?_, ?_, ?_⟩
  · intro i j one other isOne isOther different writes guard sameKey
    have oneAlive := LockRef.isAlive_of_state writes nofun
    have otherAlive : other.isAlive = true := by
      rcases guard with isWrite | isRead
      · exact LockRef.isAlive_of_state isWrite nofun
      · exact LockRef.isAlive_of_state isRead nofun
    have sameLock := sound.same_lock (List.mem_of_getElem? isOne) (List.mem_of_getElem? isOther)
      oneAlive otherAlive sameKey
    have apart := sound.excludes i j one other isOne isOther different sameLock writes
    rcases guard with isWrite | isRead
    · exact apart.1 isWrite
    · exact apart.2 isRead
  · intro one isOne other isOther oneAlive otherAlive sameKey
    exact sound.same_lock isOne isOther oneAlive otherAlive sameKey
  · intro ref member alive
    rw [LazyLockMap.getLock, sound.lookup_upgrades member alive]

end Keys

/-- One task writes under key 1 while another waits, the map is cleaned up in between, and a
third one comes for the key; then all references die, and the key gets a new lock. -/
theorem guards_exclude_recreated :
    ∃ locks : LazyLockMap Nat,
      Run (fun before event after => before.step event = some after) (fun _ _ => True) new locks ∧
        locks.refs = [⟨1, 0, .dropped⟩, ⟨1, 0, .dropped⟩, ⟨1, 0, .dropped⟩, ⟨1, 1, .writes⟩, ⟨2, 2, .writes⟩] ∧
        ∀ one ∈ locks.refs, ∀ other ∈ locks.refs, one.isAlive = true → other.isAlive = true →
          one.key = other.key → one.lock = other.lock := by
  have ran : (runAll (step (K := Nat)) new
      [.getLock 1, .lockWrite 0, .acquire 0, .getLock 1, .lockRead 1, .cleanup 1, .getLock 1, .drop 0,
        .acquire 1, .drop 2, .drop 1, .cleanup 1, .getLock 1, .lockWrite 3, .getLock 2, .lockWrite 4,
        .acquire 4, .acquire 3]).map (fun locks => locks.refs) =
      some [⟨1, 0, .dropped⟩, ⟨1, 0, .dropped⟩, ⟨1, 0, .dropped⟩, ⟨1, 1, .writes⟩, ⟨2, 2, .writes⟩] := by
    decide
  obtain ⟨locks, reached, refs⟩ := Option.map_eq_some_iff.mp ran
  have run : Run (fun before event after => before.step event = some after) (fun _ _ => True) new locks :=
    Run.of_runAll (fun _ _ _ taken => ⟨taken, trivial⟩) reached
  exact ⟨locks, run, refs, (guards_exclude locks run).2.1⟩

end LazyLockMap

end TiFs
