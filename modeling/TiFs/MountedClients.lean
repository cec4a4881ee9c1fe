import TiFs.CallFootprints

/-! Clients that mount one file system. The static metadata is written with the first
reservation of an inode number and never again, and a client that has compared it with its
own configuration goes on with the same configuration as every other one. -/

namespace TiFs

open KeyValue Tables

/-- `TiFs::check_metadata` behind the read; the error is the text it panics with. -/
def checkMetadata (cfg : TiFsConfig) (metadata : Option MetaStatic) : Except String Unit :=
  match metadata with
  | none => .ok ()
  | some cfgFlags =>
      if cfgFlags.blockSize ≠ cfg.blockSize then
        .error ("stored config information mismatch: block_size desired: " ++ toString cfg.blockSize ++
          ", actual: " ++ toString cfgFlags.blockSize)
      else if cfgFlags.hashedBlocks ≠ cfg.hashedBlocks then
        .error ("stored config information mismatch: hashed_blocks desired: " ++ toString cfg.hashedBlocks ++
          ", actual: " ++ toString cfgFlags.hashedBlocks)
      else if cfgFlags.hashAlgorithm ≠ cfg.hashAlgorithm then
        .error ("stored config information mismatch: hash_algorithm desired: " ++ cfg.hashAlgorithm ++
          ", actual: " ++ cfgFlags.hashAlgorithm)
      else .ok ()

def TiFsConfig.metaStatic (cfg : TiFsConfig) : MetaStatic :=
  ⟨cfg.blockSize, cfg.hashedBlocks, cfg.hashAlgorithm⟩

theorem checkMetadata_some {cfg : TiFsConfig} {cfgFlags : MetaStatic}
    (accepted : checkMetadata cfg (some cfgFlags) = .ok ()) : cfgFlags = cfg.metaStatic := by
  obtain ⟨blockSize, hashedBlocks, hashAlgorithm⟩ := cfgFlags
  simp only [checkMetadata] at accepted
  split at accepted
  · cases accepted
  · next sameSize =>
      split at accepted
      · cases accepted
      · next sameHashed =>
          split at accepted
          · cases accepted
          · next sameAlgorithm =>
              rw [TiFsConfig.metaStatic, not_ne_iff.mp sameSize, not_ne_iff.mp sameHashed,
                not_ne_iff.mp sameAlgorithm]

theorem checkMetadata_own (cfg : TiFsConfig) : checkMetadata cfg (some cfg.metaStatic) = .ok () := by
  simp [checkMetadata, TiFsConfig.metaStatic]

inductive MetaStep (before after : Store) : Prop
  | kept (static : after.lookup .metaStatic = before.lookup .metaStatic)
      (counter : after.lookup .metaMutable = before.lookup .metaMutable) : MetaStep before after
  | counted (count : Nat) (dynMeta : MetaMutable) (stored : before.lookup .metaMutable = some dynMeta)
      (static : after.lookup .metaStatic = before.lookup .metaStatic)
      (counter : after.lookup .metaMutable = some ⟨dynMeta.inodeNext + count⟩) : MetaStep before after
  | initialised (cfg : TiFsConfig) (blank : before.lookup .metaMutable = none)
      (static : after.lookup .metaStatic = some cfg.metaStatic)
      (counter : after.lookup .metaMutable = some ⟨firstDataInode⟩) : MetaStep before after

theorem reserve_cases {cfg : TiFsConfig} {count : Nat} {reply : MiniReply} {before after : Store}
    (ran : atomically ((MiniCall.metaMutableReserveNewInos count).body cfg) before = .ok (reply, after)) :
    before.lookup .metaMutable = none ∧ reply = .ino rootInode ∧ after = applyAll before (initWrites cfg) ∨
      ∃ dynMeta : MetaMutable, before.lookup .metaMutable = some dynMeta ∧ reply = .ino dynMeta.inodeNext ∧
        after = applyAll before [Mutation.put .metaMutable ⟨dynMeta.inodeNext + count⟩] := by
  have read : fetchTry .metaMutable (Txn.mk before []) = .ok (before.lookup .metaMutable, ⟨before, []⟩) := rfl
  change atomically (MiniReply.ino <$> metaMutableReserveNewInos cfg count) before = _ at ran
  cases stored : before.lookup .metaMutable with
  | none =>
      rw [stored] at read
      have reserved : metaMutableReserveNewInos cfg count ⟨before, []⟩ =
          .ok (rootInode, ⟨before, initWrites cfg⟩) := by
        rw [metaMutableReserveNewInos, bind_ok read]
        rfl
      rw [atomically_eq_ok (map_ok MiniReply.ino reserved)] at ran
      obtain ⟨rfl, rfl⟩ := Prod.mk.inj (Except.ok.inj ran)
      exact Or.inl ⟨rfl, rfl, rfl⟩
  | some dynMeta =>
      rw [stored] at read
      have reserved : metaMutableReserveNewInos cfg count ⟨before, []⟩ = .ok (dynMeta.inodeNext,
          ⟨before, [Mutation.put .metaMutable ⟨dynMeta.inodeNext + count⟩]⟩) := by
        rw [metaMutableReserveNewInos, bind_ok read]
        rfl
      rw [atomically_eq_ok (map_ok MiniReply.ino reserved)] at ran
      obtain ⟨rfl, rfl⟩ := Prod.mk.inj (Except.ok.inj ran)
      exact Or.inr ⟨dynMeta, rfl, rfl, rfl⟩

theorem lookup_initWrites (cfg : TiFsConfig) (before : Store) :
    (applyAll before (initWrites cfg)).lookup .metaStatic = some cfg.metaStatic ∧
      (applyAll before (initWrites cfg)).lookup .metaMutable = some ⟨firstDataInode⟩ := by
  have distinct : ((initWrites cfg).map Mutation.key).Nodup := by simp [initWrites]
  exact ⟨lookup_applyAll_put distinct List.mem_cons_self,
    lookup_applyAll_put distinct (List.mem_cons_of_mem _ List.mem_cons_self)⟩

theorem metaStep_reserve {cfg : TiFsConfig} {count : Nat} {reply : MiniReply} {before after : Store}
    (ran : atomically ((MiniCall.metaMutableReserveNewInos count).body cfg) before = .ok (reply, after)) :
    MetaStep before after := by
  rcases reserve_cases ran with ⟨blank, _, rfl⟩ | ⟨dynMeta, stored, _, rfl⟩
  · obtain ⟨static, counter⟩ := lookup_initWrites cfg before
    exact .initialised cfg blank static counter
  · exact .counted count dynMeta stored (lookup_put_of_ne before .metaMutable .metaStatic _ nofun)
      (lookup_put_self before .metaMutable _)

theorem counter_reserved {cfg : TiFsConfig} {count : Nat} {reply : MiniReply} {before after : Store}
    (ran : atomically ((MiniCall.metaMutableReserveNewInos count).body cfg) before = .ok (reply, after)) :
    (after.lookup .metaMutable).isSome = true := by
  rcases reserve_cases ran with ⟨_, _, rfl⟩ | ⟨dynMeta, _, _, rfl⟩
  · exact Option.isSome_of_eq_some (lookup_initWrites cfg before).2
  · exact Option.isSome_of_eq_some (lookup_put_self before .metaMutable _)

section Log

variable {first : Store} {log : List (Commit Key.Value ℕ ClientCall MiniReply)} {db : Db Key.Value}

theorem metaStep_of_logged (logged : Logged ClientCall.body first log db) {n : ℕ} (inside : n < log.length) :
    MetaStep (storeAt first log n) (storeAt first log (n + 1)) := by
  obtain ⟨commit, listed⟩ : ∃ commit, log[n]? = some commit := ⟨log[n], List.getElem?_eq_getElem inside⟩
  obtain ⟨_, txn, ran, wrote⟩ := logged.ran listed
  cases reserves : commit.op.call.reserves with
  | false =>
      obtain ⟨writes, rfl, outside⟩ := commit.op.call.writesOnly commit.op.cfg reserves _ _ _ ran
      have notWritten : ∀ key : Key, key.isMeta = true → key ∉ commit.writes.map Mutation.key := by
        intro key isMeta written
        obtain ⟨write, present, rfl⟩ := List.mem_map.mp written
        rw [← wrote] at present
        have outsideWrite := (outside write present).1
        rw [isMeta] at outsideWrite
        cases outsideWrite
      rw [storeAt_succ listed]
      apply MetaStep.kept
      · exact lookup_applyAll_of_notMem _ _ _ (notWritten .metaStatic rfl)
      · exact lookup_applyAll_of_notMem _ _ _ (notWritten .metaMutable rfl)
  | true =>
      obtain ⟨id, ⟨cfg, call⟩, reply, begun, writes⟩ := commit
      cases call with
      | metaMutableReserveNewInos count =>
          have own := MiniCall.ownReads cfg (.metaMutableReserveNewInos count) rfl
          rcases logged.atomic listed own with written | ⟨nothing, _⟩
          · exact metaStep_reserve written
          · have same : storeAt first log (n + 1) = storeAt first log n := by
              rw [storeAt_succ listed, nothing, applyAll_nil]
            rw [same]
            exact .kept rfl rfl
      | _ => cases reserves

/-- The static metadata is there exactly if the counter of the inode numbers is. -/
theorem static_isSome (logged : Logged ClientCall.body first log db)
    (agreed : (first.lookup .metaStatic).isSome = (first.lookup .metaMutable).isSome) {n : ℕ}
    (within : n ≤ log.length) :
    ((storeAt first log n).lookup .metaStatic).isSome = ((storeAt first log n).lookup .metaMutable).isSome := by
  induction n with
  | zero => exact agreed
  | succ n ih =>
      cases metaStep_of_logged logged within with
      | kept static counter =>
          rw [static, counter]
          exact ih (Nat.le_of_succ_le within)
      | counted count dynMeta stored static counter =>
          rw [static, counter, ih (Nat.le_of_succ_le within), stored, Option.isSome_some, Option.isSome_some]
      | initialised cfg blank static counter => rw [static, counter, Option.isSome_some, Option.isSome_some]

/-- What is there stays as it is. -/
theorem static_kept (logged : Logged ClientCall.body first log db)
    (agreed : (first.lookup .metaStatic).isSome = (first.lookup .metaMutable).isSome) {n : ℕ}
    {metadata : MetaStatic} (stored : (storeAt first log n).lookup .metaStatic = some metadata) {later : ℕ}
    (after : n ≤ later) (within : later ≤ log.length) :
    (storeAt first log later).lookup .metaStatic = some metadata := by
  induction later, after using Nat.le_induction with
  | base => exact stored
  | succ later after ih =>
      have before := ih (Nat.le_of_succ_le within)
      cases metaStep_of_logged logged within with
      | kept static counter => exact static.trans before
      | counted count dynMeta stored static counter => exact static.trans before
      | initialised cfg blank static counter =>
          have present := static_isSome logged agreed (Nat.le_of_succ_le within)
          rw [before, blank] at present
          cases present

end Log

namespace SpinSystem

/-- The call has read the static metadata for a client that accepted it. -/
structure Mounts (call : SpinCall ClientCall MiniReply) : Prop where
  isRead : call.op.call = .metaStaticRead
  accepted : ∃ metadata ended, call.phase = .returned (.ok (.metaStatic (some metadata))) ended ∧
    checkMetadata call.op.cfg (some metadata) = .ok ()

theorem mounts_own {call : SpinCall ClientCall MiniReply} (isRead : call.op.call = .metaStaticRead) {ended : ℕ}
    (returned : call.returned = some (.metaStatic (some call.op.cfg.metaStatic), ended)) : Mounts call :=
  ⟨isRead, call.op.cfg.metaStatic, ended, SpinCall.phase_of_returned returned, checkMetadata_own call.op.cfg⟩

variable {db : Db Key.Value} {allowed : SpinSystem ClientCall MiniReply → SpinEvent ClientCall → Prop}
  {state : SpinSystem ClientCall MiniReply}

theorem Valid.static_read (valid : Valid ClientCall.body db.data state) {id : ℕ}
    {call : SpinCall ClientCall MiniReply} (present : state.calls id = some call)
    (isRead : call.op.call = .metaStaticRead) {reply : MiniReply} {ended : ℕ}
    (isReturned : call.phase = .returned (.ok reply) ended) :
    ∃ n, call.since ≤ n ∧ n ≤ state.log.length ∧
      reply = .metaStatic ((storeAt db.data state.log n).lookup .metaStatic) := by
  have own : OwnReads (ClientCall.body call.op) := by
    rw [ClientCall.body, isRead]
    exact MiniCall.ownReads _ .metaStaticRead rfl
  obtain ⟨n, after, since, before, within, ran, _⟩ := valid.one_step present isReturned own
  rw [ClientCall.body, isRead] at ran
  exact ⟨n, since, before.trans within, (Prod.mk.inj (Except.ok.inj ran)).1.symm⟩

theorem mounted_stored (agreed : (db.data.lookup .metaStatic).isSome = (db.data.lookup .metaMutable).isSome)
    (valid : Valid ClientCall.body db.data state) {id : ℕ} {call : SpinCall ClientCall MiniReply}
    (present : state.calls id = some call) (mounts : Mounts call) :
    state.db.data.lookup .metaStatic = some call.op.cfg.metaStatic := by
  obtain ⟨metadata, ended, isReturned, accepted⟩ := mounts.accepted
  obtain ⟨n, _, within, isReply⟩ := valid.static_read present mounts.isRead isReturned
  have stored := MiniReply.metaStatic.inj isReply
  rw [checkMetadata_some accepted] at stored
  rw [valid.logged.data]
  exact static_kept valid.logged agreed stored.symm within le_rfl

/-- All clients that have mounted the file system agree on its block size, on whether blocks
are hashed and on the hash algorithm, and this is what is stored. Once it is stored it stays
as it is with every commit of the run. -/
theorem mounted_clients_agree (db : Db Key.Value)
    (agreed : (db.data.lookup .metaStatic).isSome = (db.data.lookup .metaMutable).isSome)
    (run : Run (Step ClientCall.body) allowed (initial db) state) :
    (∀ id otherId call other, state.calls id = some call → Mounts call → state.calls otherId = some other →
      Mounts other →
      call.op.cfg.blockSize = other.op.cfg.blockSize ∧ call.op.cfg.hashedBlocks = other.op.cfg.hashedBlocks ∧
        call.op.cfg.hashAlgorithm = other.op.cfg.hashAlgorithm ∧
          state.db.data.lookup .metaStatic = some call.op.cfg.metaStatic) ∧
    ∀ n later metadata, n ≤ later → later ≤ state.log.length →
      (storeAt db.data state.log n).lookup .metaStatic = some metadata →
        (storeAt db.data state.log later).lookup .metaStatic = some metadata := by
  have valid := valid_of_run run
  constructor
  · intro id otherId call other present mounts otherPresent otherMounts
    have stored := mounted_stored agreed valid present mounts
    have same := stored.symm.trans (mounted_stored agreed valid otherPresent otherMounts)
    obtain ⟨sameSize, sameHashed, sameAlgorithm⟩ := MetaStatic.mk.inj (Option.some.inj same)
    exact ⟨sameSize, sameHashed, sameAlgorithm, stored⟩
  · intro n later metadata after within stored
    exact static_kept valid.logged agreed stored after within

/-- A client of another configuration, of which nothing that is compared differs, mounts beside
the one that made the file system. -/
theorem mounted_clients_agree_two :
    ∃ (state : SpinSystem ClientCall MiniReply) (call other : SpinCall ClientCall MiniReply),
      Run (Step ClientCall.body) Answered (initial ⟨∅, fun _ => 0⟩) state ∧
        state.calls 1 = some call ∧ Mounts call ∧ state.calls 2 = some other ∧ Mounts other ∧
        call.op.cfg.validateReadHashes = true ∧ other.op.cfg.validateReadHashes = false ∧
        call.op.cfg.blockSize = other.op.cfg.blockSize ∧
        (storeAt ∅ state.log 3).lookup .metaStatic = some call.op.cfg.metaStatic := by
  obtain ⟨state, run, checked⟩ := exists_run ClientCall.body ⟨∅, fun _ => 0⟩
    [.call 0 .miniTransaction ⟨paddingConfig 2 (by decide), .metaMutableReserveNewInos 1⟩, .start 0,
     .finish 0 .committed, .call 1 .flexibleTransaction ⟨paddingConfig 2 (by decide), .metaStaticRead⟩,
     .call 2 .flexibleTransaction
       ⟨{ paddingConfig 2 (by decide) with validateReadHashes := false }, .metaStaticRead⟩,
     .start 2, .finish 2 .committed, .start 1, .finish 1 .committed]
    (fun state => decide (state.log.length = 3) &&
      ((state.calls 1).any fun call => call.op.cfg.validateReadHashes ∧ call.op.call = .metaStaticRead ∧
        call.returned = some (.metaStatic (some call.op.cfg.metaStatic), 3) ∧
        (storeAt ∅ state.log 1).lookup .metaStatic = some call.op.cfg.metaStatic) &&
      (state.calls 2).any fun call => call.op.cfg.validateReadHashes = false ∧ call.op.call = .metaStaticRead ∧
        call.returned = some (.metaStatic (some call.op.cfg.metaStatic), 2)) (by decide +kernel)
  obtain ⟨both, second⟩ := Bool.and_eq_true_iff.mp checked
  obtain ⟨length, first⟩ := Bool.and_eq_true_iff.mp both
  obtain ⟨call, present, isFirst⟩ := (Option.any_eq_true _ _).mp first
  obtain ⟨other, otherPresent, isSecond⟩ := (Option.any_eq_true _ _).mp second
  obtain ⟨validates, isRead, returned, written⟩ := of_decide_eq_true isFirst
  obtain ⟨validatesNot, otherRead, otherReturned⟩ := of_decide_eq_true isSecond
  have mounts := mounts_own isRead returned
  have otherMounts := mounts_own otherRead otherReturned
  obtain ⟨agree, stays⟩ := mounted_clients_agree _ rfl run
  refine ⟨state, call, other, run, present, mounts, otherPresent, otherMounts, validates, validatesNot, ?_, ?_⟩
  · exact (agree 1 2 call other present mounts otherPresent otherMounts).1
  · exact stays 1 3 _ (by decide) (of_decide_eq_true length).ge written

/-- A client that reads the static metadata behind any reservation finds it: no check follows
an `init` on a file system that is not initialized. -/
theorem static_found_after_reservation (db : Db Key.Value)
    (agreed : (db.data.lookup .metaStatic).isSome = (db.data.lookup .metaMutable).isSome)
    (run : Run (Step ClientCall.body) allowed (initial db) state) {reserver id : ℕ}
    {reservation call : SpinCall ClientCall MiniReply} (reserved : state.calls reserver = some reservation)
    {count : Nat} (isReservation : reservation.op.call = .metaMutableReserveNewInos count) {number : MiniReply}
    {behind : ℕ} (isReserved : reservation.phase = .returned (.ok number) behind)
    (present : state.calls id = some call) (isRead : call.op.call = .metaStaticRead)
    {reply : MiniReply} {ended : ℕ} (isReturned : call.phase = .returned (.ok reply) ended)
    (later : behind ≤ call.since) :
    ∃ metadata, reply = .metaStatic (some metadata) ∧ state.db.data.lookup .metaStatic = some metadata := by
  have valid := valid_of_run run
  have own : OwnReads (ClientCall.body reservation.op) := by
    rw [ClientCall.body, isReservation]
    exact MiniCall.ownReads _ (.metaMutableReserveNewInos count) rfl
  obtain ⟨n, after, _, before, _, ran, position⟩ := valid.one_step reserved isReserved own
  rw [ClientCall.body, isReservation] at ran
  have counter := counter_reserved ran
  obtain ⟨made, here, early⟩ : ∃ made, after = storeAt db.data state.log made ∧ made ≤ behind := by
    rcases position with rfl | ⟨rfl, inside, _⟩
    · exact ⟨n, rfl, before⟩
    · exact ⟨n + 1, rfl, inside⟩
  obtain ⟨moment, since, within, isReply⟩ := valid.static_read present isRead isReturned
  have reached : made ≤ moment := early.trans (later.trans since)
  have isSome := static_isSome valid.logged agreed (reached.trans within)
  rw [← here, counter] at isSome
  obtain ⟨metadata, stored⟩ := Option.isSome_iff_exists.mp isSome
  rw [here] at stored
  refine ⟨metadata, ?_, ?_⟩
  · rw [isReply, static_kept valid.logged agreed stored reached within]
  · rw [valid.logged.data]
    exact static_kept valid.logged agreed stored (reached.trans within) le_rfl

/-- The client that lost the race for the first number reads what the other one wrote. -/
theorem static_found_after_reservation_race :
    ∃ (state : SpinSystem ClientCall MiniReply) (reservation call : SpinCall ClientCall MiniReply)
        (metadata : MetaStatic),
      Run (Step ClientCall.body) Answered (initial ⟨∅, fun _ => 0⟩) state ∧
        state.calls 1 = some reservation ∧ state.calls 2 = some call ∧
        state.db.data.lookup .metaStatic = some metadata := by
  obtain ⟨state, run, checked⟩ := exists_run ClientCall.body ⟨∅, fun _ => 0⟩
    [.call 0 .miniTransaction ⟨paddingConfig 2 (by decide), .metaMutableReserveNewInos 1⟩,
     .call 1 .miniTransaction ⟨paddingConfig 3 (by decide), .metaMutableReserveNewInos 1⟩,
     .start 0, .start 1, .finish 0 .committed, .finish 1 (.refused (.keyError "conflict")), .start 1,
     .finish 1 .committed, .call 2 .flexibleTransaction ⟨paddingConfig 3 (by decide), .metaStaticRead⟩,
     .start 2, .finish 2 .committed]
    (fun state =>
      ((state.calls 1).any fun call => call.op.call = .metaMutableReserveNewInos 1 ∧
        call.returned = some (.ino firstDataInode, 2)) &&
      (state.calls 2).any fun call => call.op.call = .metaStaticRead ∧ call.since = 2 ∧
        call.returned = some (.metaStatic (some (paddingConfig 2 Nat.two_pos).metaStatic), 3))
    (by decide +kernel)
  obtain ⟨first, second⟩ := Bool.and_eq_true_iff.mp checked
  obtain ⟨reservation, reserved, isFirst⟩ := (Option.any_eq_true _ _).mp first
  obtain ⟨call, present, isSecond⟩ := (Option.any_eq_true _ _).mp second
  obtain ⟨isReservation, number⟩ := of_decide_eq_true isFirst
  obtain ⟨isRead, since, returned⟩ := of_decide_eq_true isSecond
  obtain ⟨metadata, _, stored⟩ := static_found_after_reservation _ rfl run reserved isReservation
    (SpinCall.phase_of_returned number) present isRead (SpinCall.phase_of_returned returned) since.ge
  exact ⟨state, reservation, call, metadata, run, reserved, present, stored⟩

end SpinSystem

end TiFs
