import Mathlib.Algebra.Order.Group.Nat
import Mathlib.Data.Multiset.AddSub
import TiFs.Library.Transaction

/-! The connections of the client: each request takes a free one from the pool or makes a new
one, and gives it back when it is dropped. -/

namespace TiFs

open KeyValue

structure Pool (T : Type) where
  free : List T
  counter : Nat
  deriving DecidableEq, Repr

structure HandedOutPoolElement (T : Type) where
  element : Option T
  deriving DecidableEq, Repr

namespace HandedOutPoolElement

variable {T : Type}

def new (element : T) : HandedOutPoolElement T := ⟨some element⟩

/-- `drop`, with the pool that the element came from. -/
def drop (handed : HandedOutPoolElement T) (pool : Pool T) : Pool T :=
  match handed.element with
  | some element => { pool with free := pool.free ++ [element] }
  | none => pool

/-- The `unwrap` stops the request. -/
def deref (handed : HandedOutPoolElement T) : Option T := handed.element

end HandedOutPoolElement

namespace Pool

variable {T : Type}

def new : Pool T := ⟨[], 0⟩

def addNewBusyToPool (pool : Pool T) (newBusyElement : T) : Pool T × HandedOutPoolElement T :=
  ({ pool with counter := pool.counter + 1 }, HandedOutPoolElement.new newBusyElement)

def getOneFree (pool : Pool T) : Pool T × Option (HandedOutPoolElement T) :=
  match pool.free with
  | [] => (pool, none)
  | oneFree :: rest => ({ pool with free := rest }, some (HandedOutPoolElement.new oneFree))

end Pool

inductive PoolRequest (T : Type) where
  | connecting
  | holding (handed : HandedOutPoolElement T)
  | finished
  deriving DecidableEq, Repr

namespace PoolRequest

variable {T : Type}

def held : PoolRequest T → List T
  | .holding handed => handed.element.toList
  | _ => []

def isConnecting : PoolRequest T → Bool
  | .connecting => true
  | _ => false

def isActive : PoolRequest T → Bool
  | .finished => false
  | _ => true

end PoolRequest

/-- The pool of a `HashFsClient` and its requests. `connected` has every connection that was
made; it is not part of the program. -/
structure PoolClient (T : Type) where
  pool : Pool T
  requests : List (PoolRequest T)
  connected : List T
  deriving DecidableEq, Repr

/-- `failed` is a connection that was not made in time, or a request that is dropped before it
is made; `released` is the end of a request, with an answer or without. -/
inductive PoolEvent (T : Type) where
  | lockGrpc
  | connected (request : Nat) (connection : T)
  | failed (request : Nat)
  | released (request : Nat)
  deriving DecidableEq, Repr

namespace PoolClient

variable {T : Type}

def new : PoolClient T := ⟨Pool.new, [], []⟩

def held (client : PoolClient T) : List T := client.requests.flatMap PoolRequest.held

def active (client : PoolClient T) : Nat := client.requests.countP PoolRequest.isActive

def connecting (client : PoolClient T) : Nat := client.requests.countP PoolRequest.isConnecting

def lockGrpc (client : PoolClient T) : PoolClient T :=
  match client.pool.getOneFree with
  | (pool, some next) => { client with pool := pool, requests := client.requests ++ [.holding next] }
  | (pool, none) => { client with pool := pool, requests := client.requests ++ [.connecting] }

def step (client : PoolClient T) : PoolEvent T → Option (PoolClient T)
  | .lockGrpc => some client.lockGrpc
  | .connected request connection =>
      match client.requests[request]? with
      | some .connecting =>
          let (pool, handed) := client.pool.addNewBusyToPool connection
          some ⟨pool, client.requests.set request (.holding handed), client.connected ++ [connection]⟩
      | _ => none
  | .failed request =>
      match client.requests[request]? with
      | some .connecting => some { client with requests := client.requests.set request .finished }
      | _ => none
  | .released request =>
      match client.requests[request]? with
      | some (.holding handed) =>
          some { client with
            pool := handed.drop client.pool, requests := client.requests.set request .finished }
      | _ => none

def Step (before : PoolClient T) (event : PoolEvent T) (after : PoolClient T) : Prop :=
  before.step event = some after

inductive Effect (before : PoolClient T) : PoolEvent T → PoolClient T → Prop
  | reuses (next : T) (rest : List T) (isFree : before.pool.free = next :: rest) :
      Effect before .lockGrpc
        ⟨⟨rest, before.pool.counter⟩, before.requests ++ [.holding ⟨some next⟩], before.connected⟩
  | connects (isEmpty : before.pool.free = []) :
      Effect before .lockGrpc { before with requests := before.requests ++ [.connecting] }
  | connected (front back : List (PoolRequest T)) (connection : T)
      (waits : before.requests = front ++ .connecting :: back) :
      Effect before (.connected front.length connection)
        ⟨⟨before.pool.free, before.pool.counter + 1⟩, front ++ .holding ⟨some connection⟩ :: back,
          before.connected ++ [connection]⟩
  | failed (front back : List (PoolRequest T)) (waits : before.requests = front ++ .connecting :: back) :
      Effect before (.failed front.length) { before with requests := front ++ .finished :: back }
  | released (front back : List (PoolRequest T)) (handed : HandedOutPoolElement T)
      (holds : before.requests = front ++ .holding handed :: back) :
      Effect before (.released front.length)
        { before with pool := handed.drop before.pool, requests := front ++ .finished :: back }

theorem exists_around {requests : List (PoolRequest T)} {request : Nat} {old : PoolRequest T}
    (present : requests[request]? = some old) (new : PoolRequest T) :
    ∃ front back, requests = front ++ old :: back ∧ front.length = request ∧
      requests.set request new = front ++ new :: back := by
  obtain ⟨inside, rfl⟩ := List.getElem?_eq_some_iff.mp present
  refine ⟨requests.take request, requests.drop (request + 1), ?_, ?_, ?_⟩
  · rw [List.getElem_cons_drop, List.take_append_drop]
  · exact List.length_take_of_le inside.le
  · exact List.set_eq_take_append_cons_drop.trans (if_pos inside)

theorem effect_of_step {before after : PoolClient T} {event : PoolEvent T}
    (taken : before.Step event after) : Effect before event after := by
  cases event with
  | lockGrpc =>
      obtain rfl := Option.some.inj taken
      cases isFree : before.pool.free with
      | nil =>
          have effect := Effect.connects isFree
          rw [lockGrpc, Pool.getOneFree, isFree]
          exact effect
      | cons next rest =>
          have effect := Effect.reuses next rest isFree
          rw [lockGrpc, Pool.getOneFree, isFree]
          exact effect
  | connected request connection =>
      simp only [Step, step] at taken
      split at taken
      · next waits =>
          obtain ⟨front, back, isList, rfl, isSet⟩ := exists_around waits (.holding ⟨some connection⟩)
          obtain rfl := Option.some.inj taken
          have effect := Effect.connected front back connection isList
          rw [← isSet] at effect
          exact effect
      · cases taken
  | failed request =>
      simp only [Step, step] at taken
      split at taken
      · next waits =>
          obtain ⟨front, back, isList, rfl, isSet⟩ := exists_around waits .finished
          obtain rfl := Option.some.inj taken
          rw [isSet]
          exact Effect.failed front back isList
      · cases taken
  | released request =>
      simp only [Step, step] at taken
      split at taken
      · next handed holds =>
          obtain ⟨front, back, isList, rfl, isSet⟩ := exists_around holds .finished
          obtain rfl := Option.some.inj taken
          rw [isSet]
          exact Effect.released front back handed isList
      · cases taken

/-- Every connection that was made is free or held by one request. -/
structure Conserved (client : PoolClient T) : Prop where
  conserved : (client.pool.free : Multiset T) + client.held = client.connected
  counted : client.pool.counter = client.connected.length
  handedOut : ∀ handed, .holding handed ∈ client.requests → ∃ element, handed.deref = some element

theorem conserved_new : (new : PoolClient T).Conserved := ⟨rfl, rfl, nofun⟩

theorem held_around (front back : List (PoolRequest T)) (request : PoolRequest T) :
    ((front ++ request :: back).flatMap PoolRequest.held : Multiset T) =
      request.held + ((front ++ back).flatMap PoolRequest.held : Multiset T) := by
  simp only [List.flatMap_append, List.flatMap_cons, ← Multiset.coe_add]
  ac_rfl

theorem handedOut_around {requests front back : List (PoolRequest T)} {old new : PoolRequest T}
    (isList : requests = front ++ old :: back)
    (before : ∀ handed, .holding handed ∈ requests → ∃ element, handed.deref = some element)
    (own : ∀ handed, new = .holding handed → ∃ element, handed.deref = some element) :
    ∀ handed, .holding handed ∈ front ++ new :: back → ∃ element, handed.deref = some element := by
  subst isList
  intro handed listed
  rcases List.mem_append.mp listed with inFront | behind
  · exact before handed (List.mem_append_left _ inFront)
  · rcases List.mem_cons.mp behind with isNew | inBack
    · exact own handed isNew.symm
    · exact before handed (List.mem_append_right _ (List.mem_cons_of_mem _ inBack))

theorem Conserved.step {before after : PoolClient T} {event : PoolEvent T} (holds : before.Conserved)
    (taken : before.Step event after) : after.Conserved := by
  have conserved := holds.conserved
  cases effect_of_step taken with
  | reuses next rest isFree =>
      refine ⟨?_, holds.counted, ?_⟩
      · rw [← conserved, isFree, held, held_around, List.append_nil, ← Multiset.cons_coe,
          ← Multiset.singleton_add]
        change (rest : Multiset T) + ({next} + (before.held : Multiset T)) = _
        ac_rfl
      · intro handed listed
        rcases List.mem_append.mp listed with old | isNew
        · exact holds.handedOut handed old
        · cases List.mem_singleton.mp isNew
          exact ⟨next, rfl⟩
  | connects isEmpty =>
      refine ⟨?_, holds.counted, ?_⟩
      · rw [← conserved, held, held_around, List.append_nil]
        change _ + (0 + (before.held : Multiset T)) = _
        rw [zero_add]
      · intro handed listed
        rcases List.mem_append.mp listed with old | isNew
        · exact holds.handedOut handed old
        · cases List.mem_singleton.mp isNew
  | connected front back connection waits =>
      refine ⟨?_, ?_, ?_⟩
      · rw [held, waits, held_around] at conserved
        rw [held, held_around, ← Multiset.coe_add, ← conserved]
        change (before.pool.free : Multiset T) + (([connection] : List T) + _) =
          _ + (0 + _) + ([connection] : List T)
        rw [zero_add]
        ac_rfl
      · rw [List.length_append, ← holds.counted]
        rfl
      · refine handedOut_around waits holds.handedOut ?_
        rintro handed ⟨⟩
        exact ⟨connection, rfl⟩
  | failed front back waits =>
      refine ⟨?_, holds.counted, handedOut_around waits holds.handedOut nofun⟩
      rw [← conserved, held, held, waits, held_around, held_around]
      rfl
  | released front back handed isHolding =>
      have listed : .holding handed ∈ before.requests := by
        rw [isHolding]
        exact List.mem_append_right _ List.mem_cons_self
      obtain ⟨element, isElement⟩ := holds.handedOut handed listed
      obtain rfl : handed = ⟨some element⟩ := congrArg HandedOutPoolElement.mk isElement
      refine ⟨?_, holds.counted, handedOut_around isHolding holds.handedOut nofun⟩
      rw [held, isHolding, held_around] at conserved
      rw [← conserved, held, held_around]
      change ((before.pool.free ++ [element] : List T) : Multiset T) + (0 + _) = _ + ({element} + _)
      rw [← Multiset.coe_add, zero_add, ← Multiset.coe_singleton]
      ac_rfl

/-- A request is begun while fewer than `limit` others are on their way. -/
def AtMost (limit : Nat) (client : PoolClient T) (event : PoolEvent T) : Prop :=
  event = .lockGrpc → client.active < limit

instance [DecidableEq T] (limit : Nat) (client : PoolClient T) (event : PoolEvent T) :
    Decidable (AtMost limit client event) := inferInstanceAs (Decidable (_ → _))

/-- The requests that wait for a connection are counted with the connections: each of them has
found all connections held by others. -/
structure Bounded (limit : Nat) (client : PoolClient T) : Prop where
  active : client.active ≤ limit
  connections : client.connected.length + client.connecting ≤ limit

theorem countP_around (counts : PoolRequest T → Bool) (front back : List (PoolRequest T))
    (request : PoolRequest T) : (front ++ request :: back).countP counts =
      (if counts request then 1 else 0) + (front ++ back).countP counts := by
  rw [List.countP_append, List.countP_append, List.countP_cons]
  omega

theorem countP_isActive {requests : List (PoolRequest T)}
    (handedOut : ∀ handed, .holding handed ∈ requests → ∃ element, handed.deref = some element) :
    requests.countP PoolRequest.isActive =
      requests.countP PoolRequest.isConnecting + (requests.flatMap PoolRequest.held).length := by
  induction requests with
  | nil => rfl
  | cons request rest ih =>
      have earlier := ih fun handed listed => handedOut handed (List.mem_cons_of_mem _ listed)
      rw [List.countP_cons, List.countP_cons, List.flatMap_cons, List.length_append, earlier]
      cases request with
      | connecting =>
          simp only [PoolRequest.isActive, PoolRequest.isConnecting, PoolRequest.held, List.length_nil, if_true]
          omega
      | holding handed =>
          obtain ⟨element, isElement⟩ := handedOut handed List.mem_cons_self
          obtain rfl : handed = ⟨some element⟩ := congrArg HandedOutPoolElement.mk isElement
          simp only [PoolRequest.isActive, PoolRequest.isConnecting, PoolRequest.held, Option.toList_some,
            List.length_singleton, if_true, Bool.false_eq_true, if_false]
          omega
      | finished =>
          simp only [PoolRequest.isActive, PoolRequest.isConnecting, PoolRequest.held, List.length_nil,
            Bool.false_eq_true, if_false]
          omega

theorem active_eq {client : PoolClient T} (holds : client.Conserved) :
    client.active = client.connecting + client.held.length := countP_isActive holds.handedOut

/-- With nothing free, the requests hold all connections. -/
theorem Conserved.length_held {client : PoolClient T} (holds : client.Conserved)
    (isEmpty : client.pool.free = []) : client.held.length = client.connected.length := by
  have conserved := holds.conserved
  rw [isEmpty, Multiset.coe_nil, zero_add] at conserved
  exact congrArg Multiset.card conserved

theorem Bounded.step {limit : Nat} {before after : PoolClient T} {event : PoolEvent T}
    (holds : before.Conserved) (bounded : before.Bounded limit) (taken : before.Step event after)
    (allowed : before.AtMost limit event) : after.Bounded limit := by
  obtain ⟨active, connections⟩ := bounded
  cases effect_of_step taken with
  | reuses next rest isFree =>
      have room := allowed rfl
      refine ⟨?_, ?_⟩
      · rw [PoolClient.active, countP_around, List.append_nil]
        change 1 + before.active ≤ limit
        omega
      · rw [PoolClient.connecting, countP_around, List.append_nil]
        change before.connected.length + (0 + before.connecting) ≤ limit
        omega
  | connects isEmpty =>
      have room := allowed rfl
      have all := holds.length_held isEmpty
      have split := active_eq holds
      refine ⟨?_, ?_⟩
      · rw [PoolClient.active, countP_around, List.append_nil]
        change 1 + before.active ≤ limit
        omega
      · rw [PoolClient.connecting, countP_around, List.append_nil]
        change before.connected.length + (1 + before.connecting) ≤ limit
        omega
  | connected front back connection waits =>
      rw [PoolClient.active, waits, countP_around] at active
      rw [PoolClient.connecting, waits, countP_around] at connections
      refine ⟨?_, ?_⟩
      · rw [PoolClient.active, countP_around]
        exact active
      · rw [PoolClient.connecting, countP_around, List.length_append]
        change _ + 1 + (0 + _) ≤ _
        change _ + (1 + _) ≤ _ at connections
        omega
  | failed front back waits =>
      rw [PoolClient.active, waits, countP_around] at active
      rw [PoolClient.connecting, waits, countP_around] at connections
      refine ⟨?_, ?_⟩
      · rw [PoolClient.active, countP_around]
        change 0 + _ ≤ _
        omega
      · rw [PoolClient.connecting, countP_around]
        change before.connected.length + (1 + _) ≤ _ at connections
        change before.connected.length + (0 + _) ≤ _
        omega
  | released front back handed isHolding =>
      rw [PoolClient.active, isHolding, countP_around] at active
      rw [PoolClient.connecting, isHolding, countP_around] at connections
      refine ⟨?_, ?_⟩
      · rw [PoolClient.active, countP_around]
        change 0 + _ ≤ _
        omega
      · rw [PoolClient.connecting, countP_around]
        exact connections

/-- In every run of requests that begin, connect, fail and end in any order, every connection
that was made is free or held by one request, once; so no two requests share one, and a request
that holds one can use it. -/
theorem connections_conserved {client : PoolClient T} (run : Run Step (fun _ _ => True) new client) :
    (client.pool.free : Multiset T) + client.held = client.connected ∧
      (client.connected.Nodup → (client.pool.free ++ client.held).Nodup) ∧
      ∀ handed, .holding handed ∈ client.requests → ∃ element, handed.deref = some element := by
  have preserved : ∀ (before : PoolClient T) event after, before.Conserved → before.Step event after →
      True → after.Conserved := by
    intro before event after holds taken _
    exact holds.step taken
  have holds := Run.invariant Conserved preserved conserved_new run
  refine ⟨holds.conserved, ?_, holds.handedOut⟩
  intro distinct
  have conserved := holds.conserved
  rw [Multiset.coe_add] at conserved
  exact (Multiset.coe_eq_coe.mp conserved).nodup_iff.mpr distinct

/-- With at most `limit` requests on their way at any time, at most `limit` connections are
ever made. -/
theorem connections_at_most (limit : Nat) {client : PoolClient T}
    (run : Run Step (AtMost limit) new client) : client.pool.counter ≤ limit := by
  have preserved : ∀ (before : PoolClient T) event after, before.Conserved ∧ before.Bounded limit →
      before.Step event after → before.AtMost limit event → after.Conserved ∧ after.Bounded limit := by
    intro before event after holds taken allowed
    exact ⟨holds.1.step taken, holds.2.step holds.1 taken allowed⟩
  have start : (new : PoolClient T).Conserved ∧ (new : PoolClient T).Bounded limit :=
    ⟨conserved_new, Nat.zero_le _, Nat.zero_le _⟩
  obtain ⟨holds, bounded⟩ := Run.invariant (fun client => client.Conserved ∧ client.Bounded limit)
    preserved start run
  rw [holds.counted]
  exact (Nat.le_add_right _ _).trans bounded.connections

theorem exists_run (allowed : PoolClient Nat → PoolEvent Nat → Prop)
    [∀ client event, Decidable (allowed client event)] (events : List (PoolEvent Nat))
    (check : PoolClient Nat → Bool) (ran : (runAll (restrict allowed step) new events).any check = true) :
    ∃ client, Run Step allowed new client ∧ check client = true :=
  Run.of_restrict (fun _ _ _ taken => taken) events check ran

/-- Two requests that find nothing free, one that gets the connection of the first, and one
whose connection is not made. -/
theorem connections_conserved_reused :
    ∃ client : PoolClient Nat, Run Step (fun _ _ => True) new client ∧ client.pool.free = [8] ∧
      (client.pool.free ++ client.held).Nodup := by
  obtain ⟨client, run, checked⟩ := exists_run (fun _ _ => True)
    [.lockGrpc, .lockGrpc, .connected 0 7, .released 0, .lockGrpc, .lockGrpc, .connected 1 8, .failed 3,
      .released 1]
    (fun client => client.pool.free = [8] ∧ client.connected = [7, 8]) (by decide)
  obtain ⟨free, connected⟩ := of_decide_eq_true checked
  exact ⟨client, run, free, (connections_conserved run).2.1 (by rw [connected]; decide)⟩

/-- Five requests, two at a time. -/
theorem connections_at_most_two :
    ∃ client : PoolClient Nat, Run Step (AtMost 2) new client ∧ client.requests.length = 5 ∧
      client.pool.counter ≤ 2 := by
  obtain ⟨client, run, checked⟩ := exists_run (AtMost 2)
    [.lockGrpc, .lockGrpc, .connected 0 7, .released 0, .lockGrpc, .released 2, .connected 1 8, .lockGrpc,
      .released 1, .lockGrpc]
    (fun client => client.requests.length = 5) (by decide)
  exact ⟨client, run, of_decide_eq_true checked, connections_at_most 2 run⟩

end PoolClient

end TiFs
