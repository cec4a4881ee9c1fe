import Mathlib.Data.Finmap
import TiFs.Library.Table

namespace RemoteCall

variable {S Args Response Result Status : Type}

/-- The server's side of one call: a request that lacks an argument is refused
before the implementation sees it. -/
def serve (arguments : Except Status Args) (call : Args → StateM S Result)
    (respond : Result → Response) : StateM S (Except Status Response) :=
  match arguments with
  | .error status => pure (.error status)
  | .ok args => do
      let result ← call args
      return .ok (respond result)

/-- The client's side: it waits for the response and reads the result from it. -/
def request (failed : Status → Result) (response : StateM S (Except Status Response))
    (receive : Response → Result) : StateM S Result := do
  match ← response with
  | .error status => return failed status
  | .ok rs => return receive rs

@[simp] theorem request_serve_ok (failed : Status → Result) (args : Args)
    (call : Args → StateM S Result) (respond : Result → Response) (receive : Response → Result)
    (state : S) :
    request failed (serve (.ok args) call respond) receive state =
      (receive (respond (call args state).1), (call args state).2) := rfl

@[simp] theorem request_serve_error (failed : Status → Result) (status : Status)
    (call : Args → StateM S Result) (respond : Result → Response) (receive : Response → Result)
    (state : S) :
    request failed (serve (.error status) call respond) receive state = (failed status, state) := rfl

end RemoteCall

namespace Tables

variable {K V W : Type} [DecidableEq K]

/-- The pairs hold every entry of the map once, in any order. -/
structure ListsEntries (pairs : List (K × V)) (entries : Finmap fun _ : K => V) : Prop where
  nodup : (pairs.map Prod.fst).Nodup
  mem_iff : ∀ key value, (key, value) ∈ pairs ↔ entries.lookup key = some value

theorem lookup_collect_eq_some {pairs : List (K × V)} (nodup : (pairs.map Prod.fst).Nodup)
    (key : K) (value : V) : (collect pairs).lookup key = some value ↔ (key, value) ∈ pairs := by
  induction pairs using List.reverseRecOn with
  | nil => simp [collect, extend]
  | append_singleton front last ih =>
      rw [List.map_append, List.map_singleton, List.nodup_append] at nodup
      have split : collect (front ++ [last]) = (collect front).insert last.1 last.2 := by
        rw [collect, collect, extend_append]
        rfl
      rw [split, List.mem_append, List.mem_singleton]
      by_cases same : key = last.1
      · subst same
        have fresh : ∀ other, (last.1, other) ∉ front := by
          intro other member
          exact nodup.2.2 last.1 (List.mem_map.mpr ⟨_, member, rfl⟩) last.1 (by simp) rfl
        rw [AList.lookup_insert]
        constructor
        · intro found
          exact Or.inr (by rw [← Option.some.inj found])
        · rintro (member | whole)
          · exact absurd member (fresh value)
          · rw [← whole]
      · rw [AList.lookup_insert_ne same, ih nodup.1]
        constructor
        · exact Or.inl
        · rintro (member | whole)
          · exact member
          · exact absurd (congrArg Prod.fst whole) same

theorem ListsEntries.collect_eq {pairs : List (K × V)} {entries : Finmap fun _ : K => V}
    (lists : ListsEntries pairs entries) : (collect pairs).toFinmap = entries := by
  apply Finmap.ext_lookup
  intro key
  rw [Finmap.lookup_toFinmap]
  apply Option.ext
  intro value
  rw [lookup_collect_eq_some lists.nodup, lists.mem_iff]

theorem listsEntries_collect {pairs : List (K × V)} (nodup : (pairs.map Prod.fst).Nodup) :
    ListsEntries pairs (collect pairs).toFinmap := by
  refine ⟨nodup, fun key value => ?_⟩
  rw [Finmap.lookup_toFinmap, lookup_collect_eq_some nodup]

/-- A map whose values are wrapped on the way and unwrapped on arrival arrives as it
left, whatever order its entries are listed in at either end. -/
theorem ListsEntries.collect_unwrapped {wrap : V → W} {unwrap : W → V}
    (inverse : ∀ value, unwrap (wrap value) = value) {sent : List (K × V)}
    {entries : Finmap fun _ : K => V} (lists : ListsEntries sent entries) {arrived : List (K × W)}
    (listsArrived : ListsEntries arrived
      (collect (sent.map fun pair => (pair.1, wrap pair.2))).toFinmap) :
    (collect (arrived.map fun pair => (pair.1, unwrap pair.2))).toFinmap = entries := by
  have keys : ((sent.map fun pair => (pair.1, wrap pair.2)).map Prod.fst).Nodup := by
    rw [List.map_map]
    exact lists.nodup
  apply ListsEntries.collect_eq
  constructor
  · rw [List.map_map]
    exact listsArrived.nodup
  · intro key value
    rw [← lists.mem_iff, List.mem_map]
    constructor
    · rintro ⟨pair, member, same⟩
      rw [Prod.mk.injEq] at same
      have wrapped := (listsArrived.mem_iff pair.1 pair.2).mp member
      rw [← (listsEntries_collect keys).mem_iff, List.mem_map] at wrapped
      obtain ⟨origin, inSent, equal⟩ := wrapped
      rw [Prod.mk.injEq] at equal
      rw [← same.1, ← same.2, ← equal.1, ← equal.2, inverse]
      exact inSent
    · intro member
      refine ⟨(key, wrap value), ?_, by rw [inverse]⟩
      rw [listsArrived.mem_iff, ← (listsEntries_collect keys).mem_iff, List.mem_map]
      exact ⟨(key, value), member, rfl⟩

end Tables
