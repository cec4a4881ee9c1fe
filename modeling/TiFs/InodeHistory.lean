import TiFs.MountedClients

/-! The history of one inode. Its number was reserved for it alone, so one call makes it and
nobody writes another target to a symlink; its size is only written by transactions that make
it larger. Either record can be deleted when the inode has been. -/

namespace TiFs

open KeyValue Tables

def MiniCall.creates : MiniCall → Option StorageIno
  | .directoryAddChildCheckedNewInode _ newIno _ => some newIno
  | _ => none

theorem made_records {args : NewInode} {newIno ino : StorageIno} {now : SystemTime} {kind : InoMetadata}
    (listed : (ino, kind) ∈ (MiniCall.directoryAddChildCheckedNewInode args newIno now).records) :
    ino ∈ (MiniCall.directoryAddChildCheckedNewInode args newIno now).creates := by
  have isNew : ∀ record ∈ (MiniCall.directoryAddChildCheckedNewInode args newIno now).records,
      record.1 = newIno := by
    simp [MiniCall.records]
  exact congrArg some (isNew _ listed).symm

theorem atomically_missing {A B : Type} {f : A → B} {key : Key} {next : key.Value → Mini A} {store : Store}
    (missing : store.lookup key = none) :
    atomically (f <$> (fetch key >>= next)) store = .error (.keyNotFound (some key)) := by
  have fails : (f <$> (fetch key >>= next)) ⟨store, []⟩ = .error (.keyNotFound (some key)) := by
    rw [map_eq_pure_bind]
    exact bind_error (bind_error (fetch_of_none missing))
  rw [atomically, fails]

theorem atomically_fetched {A B : Type} {f : A → B} {key : Key} {next : key.Value → Mini A} {store : Store}
    {value : key.Value} (stored : store.lookup key = some value) {result : A} {txn : Txn Key.Value}
    (ran : next value ⟨store, []⟩ = .ok (result, txn)) :
    atomically (f <$> (fetch key >>= next)) store = .ok (f result, txn.view) := by
  have fetched : fetch key (Txn.mk store []) = .ok (value, ⟨store, []⟩) := fetch_of_some stored
  apply atomically_eq_ok
  apply map_ok
  rw [bind_ok fetched]
  exact ran

section Counter

variable {first : Store} {log : List (Commit Key.Value ℕ ClientCall MiniReply)} {db : Db Key.Value}
  {n m count : ℕ} {commit last : Commit Key.Value ℕ ClientCall MiniReply} {number other : StorageIno}

theorem counter_le (logged : Logged ClientCall.body first log db) {dynMeta : MetaMutable}
    (stored : (storeAt first log n).lookup .metaMutable = some dynMeta) (order : n ≤ m)
    (within : m ≤ log.length) :
    ∃ later : MetaMutable, (storeAt first log m).lookup .metaMutable = some later ∧
      dynMeta.inodeNext ≤ later.inodeNext := by
  induction m, order using Nat.le_induction with
  | base => exact ⟨dynMeta, stored, le_rfl⟩
  | succ m order ih =>
      obtain ⟨before, isBefore, below⟩ := ih (Nat.le_of_succ_le within)
      cases metaStep_of_logged logged within with
      | kept static counter => exact ⟨before, counter.trans isBefore, below⟩
      | counted count counted isCounted static counter =>
          rw [isBefore] at isCounted
          obtain rfl := Option.some.inj isCounted
          exact ⟨_, counter, below.trans (Nat.le_add_right _ _)⟩
      | initialised cfg blank static counter =>
          rw [isBefore] at blank
          cases blank

theorem number_reserved (logged : Logged ClientCall.body first log db) (listed : log[n]? = some commit)
    (isReserve : commit.op.call = .metaMutableReserveNewInos (count + 1))
    (isNumber : commit.reply = .ino number) :
    (∀ dynMeta, (storeAt first log n).lookup .metaMutable = some dynMeta → number = dynMeta.inodeNext) ∧
      ∃ next : MetaMutable, (storeAt first log (n + 1)).lookup .metaMutable = some next ∧
        number < next.inodeNext := by
  have own : OwnReads (ClientCall.body commit.op) := by
    rw [ClientCall.body, isReserve]
    exact MiniCall.ownReads _ (.metaMutableReserveNewInos (count + 1)) rfl
  rcases logged.atomic listed own with written | ⟨_, nothing⟩
  · rw [ClientCall.body, isReserve, isNumber] at written
    rcases reserve_cases written with ⟨blank, isFirst, after⟩ | ⟨dynMeta, stored, isNext, after⟩
    · obtain rfl := MiniReply.ino.inj isFirst
      refine ⟨fun dynMeta stored => ?_, ⟨firstDataInode⟩, ?_, by decide⟩
      · rw [blank] at stored
        cases stored
      · rw [after]
        exact (lookup_initWrites commit.op.cfg _).2
    · obtain rfl := MiniReply.ino.inj isNext
      refine ⟨fun found isFound => ?_, ⟨dynMeta.inodeNext + (count + 1)⟩, ?_,
        Nat.lt_add_of_pos_right count.succ_pos⟩
      · rw [stored] at isFound
        rw [Option.some.inj isFound]
      · rw [after]
        exact lookup_put_self _ Key.metaMutable _
  -- It always writes the counter.
  · rw [ClientCall.body, isReserve] at nothing
    rcases reserve_cases nothing with ⟨blank, _, same⟩ | ⟨dynMeta, stored, _, same⟩
    · have counter := (lookup_initWrites commit.op.cfg (storeAt first log commit.begun)).2
      rw [← same, blank] at counter
      cases counter
    · have counter : (storeAt first log commit.begun).lookup .metaMutable =
          some ⟨dynMeta.inodeNext + (count + 1)⟩ := by
        rw [same]
        exact lookup_put_self _ Key.metaMutable _
      have counters := MetaMutable.mk.inj (Option.some.inj (stored.symm.trans counter))
      exact absurd counters (Nat.lt_add_of_pos_right count.succ_pos).ne

theorem reserved_lt (logged : Logged ClientCall.body first log db) (listed : log[n]? = some commit)
    (isReserve : commit.op.call = .metaMutableReserveNewInos (count + 1))
    (isNumber : commit.reply = .ino number)
    {more : ℕ} (lastListed : log[m]? = some last)
    (lastReserve : last.op.call = .metaMutableReserveNewInos (more + 1)) (lastNumber : last.reply = .ino other)
    (order : n < m) : number < other := by
  obtain ⟨next, stored, below⟩ := (number_reserved logged listed isReserve isNumber).2
  have within : m ≤ log.length := (List.getElem?_eq_some_iff.mp lastListed).1.le
  obtain ⟨later, isLater, above⟩ := counter_le logged stored order within
  rw [(number_reserved logged lastListed lastReserve lastNumber).1 later isLater]
  exact below.trans_le above

end Counter

section Link

variable {first : Store} {log : List (Commit Key.Value ℕ ClientCall MiniReply)} {db : Db Key.Value}
  {n m : ℕ} {commit : Commit Key.Value ℕ ClientCall MiniReply} {args : NewInode} {newIno : StorageIno}
  {now : SystemTime} {link : Bytes}

theorem made_ran (logged : Logged ClientCall.body first log db) (listed : log[n]? = some commit)
    (makes : commit.op.call = .directoryAddChildCheckedNewInode args newIno now) :
    (∃ existing, commit.reply = .added (.existedAlready existing)) ∧ commit.writes = [] ∨
      commit.writes = createdWrites args newIno now := by
  obtain ⟨_, txn, ran, wrote⟩ := logged.ran listed
  rw [ClientCall.body, makes] at ran
  obtain ⟨result, inner, isReply⟩ := map_eq_ok ran
  cases found : dirEntry (Txn.mk (storeAt first log commit.begun) []).view args.parent args.name with
  | some existing =>
      rw [addNew_existed found] at inner
      obtain ⟨rfl, rfl⟩ := Prod.mk.inj (Except.ok.inj inner)
      exact Or.inl ⟨⟨existing, isReply.symm⟩, wrote.symm⟩
  | none =>
      rw [addNew_created found] at inner
      obtain ⟨rfl, rfl⟩ := Prod.mk.inj (Except.ok.inj inner)
      exact Or.inr wrote.symm

theorem link_made (listed : log[n]? = some commit) (isLink : args.inlineData = some link)
    (wrote : commit.writes = createdWrites args newIno now) :
    (storeAt first log (n + 1)).lookup (.inodeX newIno .inlineData) = some ⟨link, now⟩ := by
  rw [storeAt_succ listed, wrote, createdWrites, isLink]
  apply lookup_applyAll_put
  · simp
  · exact List.mem_append_right _ List.mem_cons_self

theorem inlineData_records {call : MiniCall} {ino : StorageIno} (listed : (ino, .inlineData) ∈ call.records) :
    ino ∈ call.creates ∨ call = .deleteMetadata ino .inlineData := by
  cases call with
  | directoryAddChildCheckedNewInode other number made => exact Or.inl (made_records listed)
  | deleteMetadata other kind =>
      right
      obtain ⟨rfl, rfl⟩ := Prod.mk.inj (List.mem_singleton.mp listed)
      rfl
  | _ => simp [MiniCall.records] at listed

theorem deleted_metadata (logged : Logged ClientCall.body first log db) (listed : log[n]? = some commit)
    {ino : StorageIno} {kind : InoMetadata} (deletes : commit.op.call = .deleteMetadata ino kind) :
    (storeAt first log (n + 1)).lookup (.inodeX ino kind) = none := by
  obtain ⟨_, txn, ran, wrote⟩ := logged.ran listed
  rw [ClientCall.body, deletes] at ran
  obtain ⟨result, inner, _⟩ := map_eq_ok ran
  obtain ⟨_, rfl⟩ := Prod.mk.inj (Except.ok.inj inner)
  have writes : commit.writes = [Mutation.delete (.inodeX ino kind)] := wrote.symm
  rw [storeAt_succ listed, writes]
  apply lookup_applyAll_delete
  · exact List.nodup_singleton _
  · exact List.mem_singleton_self _

theorem read_inlineData {cfg : TiFsConfig} {store after : Store} {ino : StorageIno} {reply : MiniReply}
    (ran : atomically ((MiniCall.inodeReadInlineData ino).body cfg) store = .ok (reply, after)) :
    ∃ data : InoInlineData, store.lookup (.inodeX ino .inlineData) = some data ∧
      reply = .inlineData data.inlined := by
  change atomically (MiniReply.inlineData <$> (fetch (.inodeX ino .inlineData) >>= _)) store = _ at ran
  cases stored : store.lookup (.inodeX ino .inlineData) with
  | none =>
      rw [atomically_missing stored] at ran
      cases ran
  | some data =>
      rw [atomically_fetched stored rfl] at ran
      exact ⟨data, rfl, (Prod.mk.inj (Except.ok.inj ran)).1.symm⟩

end Link

/-- The inode whose size a call updates, and what the size is at least behind the update. -/
def MiniCall.grows (cfg : TiFsConfig) : MiniCall → Option (StorageIno × ℕ)
  | .inodeAllocateSize _ ino offset length => some (ino, ((offset + length) % 2 ^ 64).toNat)
  | .hbReplaceBlockHashForAddressOnlySizeUpdate _ addr newBlocksActualSize =>
      some (addr.ino, addr.index * cfg.blockSize + newBlocksActualSize)
  | .hbReplaceBlockHashForAddressOnlySizeUpdateB _ ino newTargetSize => some (ino, newTargetSize)
  | _ => none

def MiniCall.Resets (ino : StorageIno) (call : MiniCall) : Prop :=
  ino ∈ call.creates ∨ call = .deleteMetadata ino .size

instance decidableResets (ino : StorageIno) (call : MiniCall) : Decidable (call.Resets ino) :=
  inferInstanceAs (Decidable (_ ∨ _))

section Size

variable {first : Store} {log : List (Commit Key.Value ℕ ClientCall MiniReply)} {db : Db Key.Value}
  {n m : ℕ} {commit : Commit Key.Value ℕ ClientCall MiniReply} {ino : StorageIno} {target : ℕ}
  {cfg : TiFsConfig} {before after : Store} {reply : MiniReply}

theorem raised_ran {next : InoSize → Mini Unit}
    (update : ∀ size : InoSize, next size = pure () ∧ target ≤ size.size ∨ ∃ changed : InoSize,
      next size = put (.inodeX ino .size) changed ∧ size.size ≤ changed.size ∧ target ≤ changed.size)
    (ran : atomically ((fun _ => MiniReply.done) <$> (fetch (.inodeX ino .size) >>= next)) before =
      .ok (reply, after)) :
    ∃ size raised : InoSize, before.lookup (.inodeX ino .size) = some size ∧
      after.lookup (.inodeX ino .size) = some raised ∧ size.size ≤ raised.size ∧ target ≤ raised.size := by
  cases stored : before.lookup (.inodeX ino .size) with
  | none =>
      rw [atomically_missing stored] at ran
      cases ran
  | some size =>
      rcases update size with ⟨same, enough⟩ | ⟨changed, isPut, larger, enough⟩
      · rw [atomically_fetched stored (congrFun same _)] at ran
        obtain ⟨_, rfl⟩ := Prod.mk.inj (Except.ok.inj ran)
        exact ⟨size, size, rfl, stored, le_rfl, enough⟩
      · rw [atomically_fetched stored (congrFun isPut _)] at ran
        obtain ⟨_, rfl⟩ := Prod.mk.inj (Except.ok.inj ran)
        exact ⟨size, changed, rfl, lookup_put_self before (.inodeX ino .size) changed, larger, enough⟩

theorem raised_to {size changed : InoSize} (isTarget : changed.size = target) (below : ¬ target ≤ size.size) :
    size.size ≤ changed.size ∧ target ≤ changed.size :=
  ⟨(Nat.lt_of_not_le below).le.trans isTarget.ge, isTarget.ge⟩

theorem grown_ran {call : MiniCall} (grows : call.grows cfg = some (ino, target))
    (ran : atomically (call.body cfg) before = .ok (reply, after)) :
    ∃ size raised : InoSize, before.lookup (.inodeX ino .size) = some size ∧
      after.lookup (.inodeX ino .size) = some raised ∧ size.size ≤ raised.size ∧ target ≤ raised.size := by
  cases call with
  | inodeAllocateSize now other offset length =>
      obtain ⟨rfl, rfl⟩ := Prod.mk.inj (Option.some.inj grows)
      apply raised_ran _ ran
      intro size
      by_cases enough : ((offset + length) % 2 ^ 64).toNat ≤ size.size
      · refine Or.inl ⟨?_, enough⟩
        simp only [enough, if_true]
      · right
        simp only [enough, if_false]
        exact ⟨_, rfl, raised_to (InoSize.setSize_size _ _ _ _) enough⟩
  | hbReplaceBlockHashForAddressOnlySizeUpdate now addr newBlocksActualSize =>
      obtain ⟨rfl, rfl⟩ := Prod.mk.inj (Option.some.inj grows)
      apply raised_ran _ ran
      intro size
      by_cases enough : addr.index * cfg.blockSize + newBlocksActualSize ≤ size.size
      · refine Or.inl ⟨?_, enough⟩
        simp only [InoSize.blockWriteSizeUpdate, enough, if_true]
      · right
        simp only [InoSize.blockWriteSizeUpdate, enough, if_false]
        exact ⟨_, rfl, raised_to (InoSize.setSize_size _ _ _ _) enough⟩
  | hbReplaceBlockHashForAddressOnlySizeUpdateB now other newTargetSize =>
      obtain ⟨rfl, rfl⟩ := Prod.mk.inj (Option.some.inj grows)
      apply raised_ran _ ran
      intro size
      by_cases larger : newTargetSize > size.size
      · right
        simp only [larger, if_true]
        exact ⟨_, rfl, raised_to (InoSize.setSize_size _ _ _ _) (Nat.not_le_of_lt larger)⟩
      · refine Or.inl ⟨?_, Nat.le_of_not_lt larger⟩
        simp only [larger, if_false]
  | _ => cases grows

theorem ownReads_grows {call : MiniCall} (grows : call.grows cfg = some (ino, target)) :
    OwnReads (call.body cfg) := by
  apply call.ownReads
  cases call with
  | inodeAllocateSize now other offset length => rfl
  | hbReplaceBlockHashForAddressOnlySizeUpdate now addr newBlocksActualSize => rfl
  | hbReplaceBlockHashForAddressOnlySizeUpdateB now other newTargetSize => rfl
  | _ => cases grows

theorem size_records (cfg : TiFsConfig) {call : MiniCall} (listed : (ino, .size) ∈ call.records)
    (kept : ¬ call.Resets ino) :
    ∃ target, call.grows cfg = some (ino, target) := by
  cases call with
  | directoryAddChildCheckedNewInode other number made => exact absurd (Or.inl (made_records listed)) kept
  | deleteMetadata other kind =>
      obtain ⟨rfl, rfl⟩ := Prod.mk.inj (List.mem_singleton.mp listed)
      exact absurd (Or.inr rfl) kept
  | inodeAllocateSize now other offset length =>
      obtain ⟨rfl, _⟩ := Prod.mk.inj (List.mem_singleton.mp listed)
      exact ⟨_, rfl⟩
  | hbReplaceBlockHashForAddressOnlySizeUpdate now addr newBlocksActualSize =>
      obtain ⟨rfl, _⟩ := Prod.mk.inj (List.mem_singleton.mp listed)
      exact ⟨_, rfl⟩
  | hbReplaceBlockHashForAddressOnlySizeUpdateB now other newTargetSize =>
      obtain ⟨rfl, _⟩ := Prod.mk.inj (List.mem_singleton.mp listed)
      exact ⟨_, rfl⟩
  | _ => simp [MiniCall.records] at listed

theorem size_step (logged : Logged ClientCall.body first log db) (listed : log[n]? = some commit)
    (kept : ¬ commit.op.call.Resets ino) {size : InoSize}
    (stored : (storeAt first log n).lookup (.inodeX ino .size) = some size) :
    ∃ later : InoSize, (storeAt first log (n + 1)).lookup (.inodeX ino .size) = some later ∧
      size.size ≤ later.size := by
  by_cases same : (storeAt first log (n + 1)).lookup (.inodeX ino .size) =
      (storeAt first log n).lookup (.inodeX ino .size)
  · exact ⟨size, same.trans stored, le_rfl⟩
  · have written := exists_write_of_changed listed same
    have record := (within_of_logged logged listed written).2 ino .size rfl
    obtain ⟨target, grows⟩ := size_records commit.op.cfg record kept
    rcases logged.atomic listed (ownReads_grows grows) with ran | ⟨nothing, _⟩
    · obtain ⟨found, raised, isFound, isRaised, larger, _⟩ := grown_ran grows ran
      rw [stored] at isFound
      obtain rfl := Option.some.inj isFound
      exact ⟨raised, isRaised, larger⟩
    · rw [nothing] at written
      cases written

theorem size_kept (logged : Logged ClientCall.body first log db)
    (settled : ∀ k commit, n ≤ k → log[k]? = some commit → ¬ commit.op.call.Resets ino) {size : InoSize}
    (stored : (storeAt first log n).lookup (.inodeX ino .size) = some size) (order : n ≤ m)
    (within : m ≤ log.length) :
    ∃ later : InoSize, (storeAt first log m).lookup (.inodeX ino .size) = some later ∧
      size.size ≤ later.size := by
  induction m, order using Nat.le_induction with
  | base => exact ⟨size, stored, le_rfl⟩
  | succ m order ih =>
      obtain ⟨middle, isMiddle, larger⟩ := ih (Nat.le_of_succ_le within)
      have listed : log[m]? = some log[m] := List.getElem?_eq_getElem within
      obtain ⟨later, isLater, stillLarger⟩ := size_step logged listed (settled m _ order listed) isMiddle
      exact ⟨later, isLater, larger.trans stillLarger⟩

end Size

namespace SpinSystem

section Calls

variable {Op R : Type} {body : Op → Mini R} {before after : SpinSystem Op R} {event : SpinEvent Op}

/-- One call moves. It is new, or it was running, and then it may have committed; if it ends, it
ends behind what has been committed. -/
theorem Took.moved (took : Took body before event after) :
    ∃ id next, after.calls = Function.update before.calls id (some next) ∧
      (∀ result ended, next.phase = .returned result ended → ended = after.log.length) ∧
      (before.calls id = none ∧ event = .call id next.kind next.op ∧ after.log = before.log ∨
        ∃ call, before.calls id = some call ∧ next.op = call.op ∧
          (∀ result ended, call.phase ≠ .returned result ended) ∧
          (after.log = before.log ∨
            ∃ entry, after.log = before.log ++ [entry] ∧ entry.id = id ∧ entry.op = call.op)) := by
  cases took with
  | called id kind op fresh => exact ⟨id, _, rfl, nofun, Or.inl ⟨fresh, rfl, rfl⟩⟩
  | started id call present isStarting =>
      refine ⟨id, _, rfl, nofun, Or.inr ⟨call, present, rfl, ?_, Or.inl rfl⟩⟩
      rw [isStarting]
      exact nofun
  | failed event id call present attempts failing out goesOn =>
      refine ⟨id, _, rfl, ?_, Or.inr ⟨call, present, rfl, ?_, Or.inl rfl⟩⟩
      · intro result ended isReturned
        cases goesOn with
        | again left isLeft => cases isReturned
        | ended issue => exact (SpinPhase.returned.inj isReturned).2.symm
      · cases failing with
        | start isStarting =>
            rw [isStarting]
            exact nofun
        | body snapshot begun isStarted =>
            rw [isStarted]
            exact nofun
  | ended outcome id call present snapshot begun isStarted reply txn ran may out isOut =>
      refine ⟨id, _, rfl, ?_, Or.inr ⟨call, present, rfl, ?_, Or.inr ⟨_, rfl, rfl, rfl⟩⟩⟩
      · intro result ended isReturned
        rcases isOut with rfl | ⟨_, goesOn⟩
        · exact (SpinPhase.returned.inj isReturned).2.symm
        · cases goesOn with
          | again left isLeft => cases isReturned
          | ended issue => exact (SpinPhase.returned.inj isReturned).2.symm
      · rw [isStarted]
        exact nofun

def Entered (state : SpinSystem Op R) : Prop :=
  ∀ n entry, state.log[n]? = some entry → ∃ call, state.calls entry.id = some call ∧ call.op = entry.op ∧
    ∀ result ended, call.phase = .returned result ended → n < ended

theorem Entered.step (entered : before.Entered) (took : Took body before event after) : after.Entered := by
  obtain ⟨id, next, calls, ends, moved⟩ := took.moved
  -- An entry that was there before belongs to a call that may have moved.
  have kept : ∀ n entry, before.log[n]? = some entry → before.log.length ≤ after.log.length →
      ∃ call, after.calls entry.id = some call ∧ call.op = entry.op ∧
        ∀ result ended, call.phase = .returned result ended → n < ended := by
    intro n entry listed longer
    obtain ⟨call, present, isOp, before⟩ := entered n entry listed
    have inside : n < _ := (List.getElem?_eq_some_iff.mp listed).1
    rw [calls]
    by_cases own : entry.id = id
    · subst own
      rw [Function.update_self]
      rcases moved with ⟨fresh, _⟩ | ⟨old, isOld, same, _⟩
      · rw [fresh] at present
        cases present
      · rw [isOld] at present
        obtain rfl := Option.some.inj present
        refine ⟨next, rfl, same.trans isOp, fun result ended isReturned => ?_⟩
        rw [ends result ended isReturned]
        exact inside.trans_le longer
    · rw [Function.update_of_ne own]
      exact ⟨call, present, isOp, before⟩
  intro n entry listed
  rcases moved with ⟨_, _, same⟩ | ⟨old, isOld, isOp, _, same | ⟨made, same, rfl, madeOp⟩⟩
  · rw [same] at listed
    exact kept n entry listed (by rw [same])
  · rw [same] at listed
    exact kept n entry listed (by rw [same])
  · have length : after.log.length = before.log.length + 1 := by rw [same, List.length_append]; rfl
    rw [same] at listed
    rcases getElem?_concat_cases listed with ⟨rfl, rfl⟩ | earlier
    · rw [calls, Function.update_self]
      refine ⟨next, rfl, isOp.trans madeOp.symm, fun result ended isReturned => ?_⟩
      rw [ends result ended isReturned, length]
      exact Nat.lt_succ_self _
    · exact kept n entry earlier (length ▸ Nat.le_succ _)

theorem entered_initial (db : Db Key.Value) : (initial db : SpinSystem Op R).Entered := by
  intro n entry listed
  cases listed

theorem entered_of_run {db : Db Key.Value} {allowed : SpinSystem Op R → SpinEvent Op → Prop}
    {state : SpinSystem Op R} (run : Run (Step body) allowed (initial db) state) : state.Entered := by
  have preserved : ∀ before event after, Entered before → Step body before event after →
      allowed before event → after.Entered := by
    intro before event after entered taken _
    exact entered.step (took_of_step taken)
  exact Run.invariant Entered preserved (entered_initial db) run

end Calls

section Numbers

variable {state before after : SpinSystem ClientCall MiniReply} {event : SpinEvent ClientCall}
  {reserver : ℕ → ℕ}

def Reserved (call : SpinCall ClientCall MiniReply) (number : StorageIno) : Prop :=
  call.op.call = .metaMutableReserveNewInos 1 ∧ call.returned.map Prod.fst = some (.ino number)

instance decidableReserved (call : SpinCall ClientCall MiniReply) (number : StorageIno) :
    Decidable (Reserved call number) :=
  inferInstanceAs (Decidable (_ ∧ _))

/-- `directory_add_child_checked_new_inode` reserves a number and makes the inode with it. The
reservation of a call is the call that `reserver` says. -/
def OwnNumber (reserver : ℕ → ℕ) (state : SpinSystem ClientCall MiniReply) :
    SpinEvent ClientCall → Prop
  | .call id _ op => ∀ newIno ∈ op.call.creates, ∃ reservation ∈ state.calls (reserver id),
      Reserved reservation newIno
  | _ => True

instance decidableOwnNumber (reserver : ℕ → ℕ) (state : SpinSystem ClientCall MiniReply) :
    (event : SpinEvent ClientCall) → Decidable (OwnNumber reserver state event)
  | .call id _ op => inferInstanceAs (Decidable (∀ newIno ∈ op.call.creates,
      ∃ reservation ∈ state.calls (reserver id), Reserved reservation newIno))
  | .start _ => isTrue trivial
  | .startFails _ _ => isTrue trivial
  | .readFails _ _ => isTrue trivial
  | .finish _ _ => isTrue trivial

def Numbered (reserver : ℕ → ℕ) (state : SpinSystem ClientCall MiniReply) : Prop :=
  ∀ id call, state.calls id = some call → ∀ newIno ∈ call.op.call.creates,
    ∃ reservation ∈ state.calls (reserver id), Reserved reservation newIno

theorem Took.reserved_kept (took : Took ClientCall.body before event after) {id : ℕ} {number : StorageIno}
    (found : ∃ reservation ∈ before.calls id, Reserved reservation number) :
    ∃ reservation ∈ after.calls id, Reserved reservation number := by
  obtain ⟨reservation, present, isReserve, isNumber⟩ := found
  obtain ⟨moving, next, calls, _, moved⟩ := took.moved
  refine ⟨reservation, ?_, isReserve, isNumber⟩
  rw [calls]
  by_cases own : id = moving
  · subst own
    obtain ⟨⟨reply, ended⟩, returned, _⟩ := Option.map_eq_some_iff.mp isNumber
    rcases moved with ⟨fresh, _⟩ | ⟨old, isOld, _, running, _⟩
    · rw [fresh] at present
      cases present
    · obtain rfl := Option.some.inj (isOld.symm.trans present)
      exact absurd (SpinCall.phase_of_returned returned) (running _ _)
  · rw [Function.update_of_ne own]
    exact present

theorem Numbered.step (numbered : Numbered reserver before) (took : Took ClientCall.body before event after)
    (allowed : OwnNumber reserver before event) : Numbered reserver after := by
  intro id call present newIno makes
  apply took.reserved_kept
  obtain ⟨moving, next, calls, _, moved⟩ := took.moved
  rw [calls] at present
  by_cases own : id = moving
  · subst own
    rw [Function.update_self] at present
    obtain rfl := Option.some.inj present
    rcases moved with ⟨_, rfl, _⟩ | ⟨old, isOld, isOp, _⟩
    · exact allowed newIno makes
    · rw [isOp] at makes
      exact numbered id old isOld newIno makes
  · rw [Function.update_of_ne own] at present
    exact numbered id call present newIno makes

theorem numbered_initial (reserver : ℕ → ℕ) (db : Db Key.Value) : Numbered reserver (initial db) := by
  intro id call present
  cases present

theorem numbered_of_run {db : Db Key.Value}
    (run : Run (Step ClientCall.body) (OwnNumber reserver) (initial db) state) : Numbered reserver state := by
  have preserved : ∀ before event after, Numbered reserver before → Step ClientCall.body before event after →
      OwnNumber reserver before event → Numbered reserver after := by
    intro before event after numbered taken allowed
    exact numbered.step (took_of_step taken) allowed
  exact Run.invariant (Numbered reserver) preserved (numbered_initial reserver db) run

variable {first : Store}

/-- Two reservations have two numbers. -/
theorem Valid.reserved_by_one (valid : Valid ClientCall.body first state) {id other : ℕ}
    {call last : SpinCall ClientCall MiniReply} (present : state.calls id = some call)
    (lastPresent : state.calls other = some last) {number : StorageIno} (reserved : Reserved call number)
    (lastReserved : Reserved last number) : id = other := by
  obtain ⟨isReserve, isNumber⟩ := reserved
  obtain ⟨lastReserve, lastNumber⟩ := lastReserved
  obtain ⟨⟨reply, ended⟩, returned, isIno⟩ := Option.map_eq_some_iff.mp isNumber
  obtain ⟨⟨lastReply, lastEnded⟩, lastReturned, lastIno⟩ := Option.map_eq_some_iff.mp lastNumber
  obtain ⟨_, n, commit, listed, isId, isOp, isReply, _⟩ :=
    (valid.sound id call present).ended _ ended (SpinCall.phase_of_returned returned)
  obtain ⟨_, m, lastCommit, lastListed, lastId, lastOp, lastIsReply, _⟩ :=
    (valid.sound other last lastPresent).ended _ lastEnded (SpinCall.phase_of_returned lastReturned)
  rw [← isOp] at isReserve
  rw [← lastOp] at lastReserve
  have number := isReply.trans isIno
  have lastIsNumber := lastIsReply.trans lastIno
  rcases lt_trichotomy n m with earlier | rfl | later
  · exact absurd (reserved_lt valid.logged listed isReserve number lastListed lastReserve lastIsNumber earlier)
      (lt_irrefl _)
  · rw [← isId, ← lastId, Option.some.inj (listed.symm.trans lastListed)]
  · exact absurd (reserved_lt valid.logged lastListed lastReserve lastIsNumber listed isReserve number later)
      (lt_irrefl _)

/-- One call makes an inode: whatever has committed to make it was asked for the same. -/
theorem Valid.made_by_one (valid : Valid ClientCall.body first state) (entered : state.Entered)
    (numbered : Numbered reserver state) (injective : reserver.Injective) {n m : ℕ}
    {commit other : Commit Key.Value ℕ ClientCall MiniReply} (listed : state.log[n]? = some commit)
    (otherListed : state.log[m]? = some other) {ino : StorageIno} (makes : ino ∈ commit.op.call.creates)
    (otherMakes : ino ∈ other.op.call.creates) : other.op = commit.op := by
  obtain ⟨call, present, isOp, _⟩ := entered n commit listed
  obtain ⟨last, lastPresent, lastOp, _⟩ := entered m other otherListed
  rw [← isOp] at makes ⊢
  rw [← lastOp] at otherMakes ⊢
  obtain ⟨reservation, isReservation, reserved⟩ := numbered _ call present ino makes
  obtain ⟨lastReservation, lastIsReservation, lastReserved⟩ := numbered _ last lastPresent ino otherMakes
  have same : commit.id = other.id :=
    injective (valid.reserved_by_one isReservation lastIsReservation reserved lastReserved)
  rw [← same, present] at lastPresent
  rw [Option.some.inj lastPresent]

section Symlink

variable {n m : ℕ} {commit other : Commit Key.Value ℕ ClientCall MiniReply} {args : NewInode}
  {newIno : StorageIno} {now : SystemTime} {link : Bytes} (valid : Valid ClientCall.body first state)
  (entered : state.Entered) (numbered : Numbered reserver state) (injective : reserver.Injective)
  (listed : state.log[n]? = some commit) (isLink : args.inlineData = some link)
  (makes : commit.op.call = .directoryAddChildCheckedNewInode args newIno now)

include valid entered numbered injective listed isLink makes

/-- A commit that changes the inline data of an inode that a call makes writes what the call was
asked for, or it deletes the record. -/
theorem Valid.link_written (otherListed : state.log[m]? = some other)
    (changed : (storeAt first state.log (m + 1)).lookup (.inodeX newIno .inlineData) ≠
      (storeAt first state.log m).lookup (.inodeX newIno .inlineData)) :
    (storeAt first state.log (m + 1)).lookup (.inodeX newIno .inlineData) = some ⟨link, now⟩ ∨
      other.op.call = .deleteMetadata newIno .inlineData ∧
        (storeAt first state.log (m + 1)).lookup (.inodeX newIno .inlineData) = none := by
  have written := exists_write_of_changed otherListed changed
  have record := (within_of_logged valid.logged otherListed written).2 newIno .inlineData rfl
  rcases inlineData_records record with otherCreates | deletes
  -- Only the call itself can have made it again, with the same writes.
  · left
    have creates : newIno ∈ commit.op.call.creates := by rw [makes]; rfl
    have same := valid.made_by_one entered numbered injective listed otherListed creates otherCreates
    rcases made_ran valid.logged otherListed (same ▸ makes) with ⟨_, nothing⟩ | wroteAgain
    · rw [nothing] at written
      cases written
    · exact link_made otherListed isLink wroteAgain
  · exact Or.inr ⟨deletes, deleted_metadata valid.logged otherListed deletes⟩

theorem Valid.link_only
    (made : (storeAt first state.log (n + 1)).lookup (.inodeX newIno .inlineData) = some ⟨link, now⟩)
    (behind : n < m) (within : m ≤ state.log.length) {data : InoInlineData}
    (stored : (storeAt first state.log m).lookup (.inodeX newIno .inlineData) = some data) :
    data = ⟨link, now⟩ := by
  by_contra wrong
  obtain ⟨k, other, _, _, otherListed, still, lost⟩ := exists_commit_between
    (fun store : Store => ∀ found : InoInlineData,
      store.lookup (.inodeX newIno .inlineData) = some found → found = ⟨link, now⟩)
    (fun found isFound => Option.some.inj (isFound.symm.trans made)) (fun only => wrong (only data stored))
    behind within
  apply lost
  intro found isFound
  by_cases same : (storeAt first state.log (k + 1)).lookup (.inodeX newIno .inlineData) =
      (storeAt first state.log k).lookup (.inodeX newIno .inlineData)
  · exact still found (same.symm.trans isFound)
  · rcases valid.link_written entered numbered injective listed isLink makes otherListed same with
      isLinked | ⟨_, gone⟩
    · exact Option.some.inj (isFound.symm.trans isLinked)
    · rw [gone] at isFound
      cases isFound

theorem Valid.link_deleted
    (made : (storeAt first state.log (n + 1)).lookup (.inodeX newIno .inlineData) = some ⟨link, now⟩)
    (behind : n < m) (within : m ≤ state.log.length)
    (gone : (storeAt first state.log m).lookup (.inodeX newIno .inlineData) ≠ some ⟨link, now⟩) :
    ∃ commit ∈ state.log, commit.op.call = .deleteMetadata newIno .inlineData := by
  obtain ⟨k, other, _, _, otherListed, still, lost⟩ := exists_commit_between
    (fun store : Store => store.lookup (.inodeX newIno .inlineData) = some (⟨link, now⟩ : InoInlineData))
    made gone behind within
  rcases valid.link_written entered numbered injective listed isLink makes otherListed
    (fun same => lost (same.trans still)) with isLinked | ⟨deletes, _⟩
  · exact absurd isLinked lost
  · exact ⟨other, List.mem_of_getElem? otherListed, deletes⟩

end Symlink

/-- What a symlink points to never changes. Whoever reads it behind its creation gets what it was
made with, and it stays stored as long as no removal of the inode deletes it. The inodes
are numbered by a counter that is the one of the source below `2 ^ 64` (`reserveU64_eq`). -/
theorem symlink_target_kept (db : Db Key.Value) (injective : reserver.Injective)
    (run : Run (Step ClientCall.body) (OwnNumber reserver) (initial db) state) {id reader : ℕ}
    {call read : SpinCall ClientCall MiniReply} (present : state.calls id = some call)
    (readPresent : state.calls reader = some read) {args : NewInode} {newIno : StorageIno} {now : SystemTime}
    (makes : call.op.call = .directoryAddChildCheckedNewInode args newIno now) {link : Bytes}
    (isLink : args.inlineData = some link) {item : StorageDirItem} {ended : ℕ}
    (isMade : call.phase = .returned (.ok (.added (.newlyCreated item))) ended)
    (reads : read.op.call = .inodeReadInlineData newIno) (behind : ended ≤ read.since) {reply : MiniReply}
    {readEnded : ℕ} (isReturned : read.phase = .returned (.ok reply) readEnded) :
    reply = .inlineData link ∧
      (state.db.data.lookup (.inodeX newIno .inlineData) = some ⟨link, now⟩ ∨
        ∃ commit ∈ state.log, commit.op.call = .deleteMetadata newIno .inlineData) := by
  have valid := valid_of_run run
  have entered := entered_of_run run
  have numbered := numbered_of_run run
  obtain ⟨within, n, commit, listed, _, isOp, isReply, _, _, before⟩ :=
    (valid.sound id call present).ended _ ended isMade
  rw [← isOp] at makes
  have made : (storeAt db.data state.log (n + 1)).lookup (.inodeX newIno .inlineData) = some ⟨link, now⟩ := by
    rcases made_ran valid.logged listed makes with ⟨⟨existing, found⟩, _⟩ | wrote
    · rw [isReply] at found
      cases found
    · exact link_made listed isLink wrote
  have own : OwnReads (ClientCall.body read.op) := by
    rw [ClientCall.body, reads]
    exact MiniCall.ownReads _ (.inodeReadInlineData newIno) rfl
  obtain ⟨moment, after, since, early, inside, ran, _⟩ := valid.one_step readPresent isReturned own
  rw [ClientCall.body, reads] at ran
  obtain ⟨data, stored, rfl⟩ := read_inlineData ran
  have only := valid.link_only entered numbered injective listed isLink makes made
    (before.trans_le (behind.trans since)) (early.trans inside) stored
  refine ⟨by rw [only], ?_⟩
  by_cases kept : state.db.data.lookup (.inodeX newIno .inlineData) = some (⟨link, now⟩ : InoInlineData)
  · exact Or.inl kept
  · rw [valid.logged.data] at kept
    exact Or.inr (valid.link_deleted entered numbered injective listed isLink makes made
      (before.trans_le within) le_rfl kept)

theorem exists_numbered_run (reserver : ℕ → ℕ) (db : Db Key.Value) (events : List (SpinEvent ClientCall))
    (check : SpinSystem ClientCall MiniReply → Bool)
    (ran : (runAll (restrict (OwnNumber reserver) (step ClientCall.body)) (initial db) events).any check =
      true) :
    ∃ last, Run (Step ClientCall.body) (OwnNumber reserver) (initial db) last ∧ check last = true :=
  Run.of_restrict (fun _ _ _ taken => taken) events check ran

/-- The symlink is read when it is removed, and then its records are deleted. -/
theorem symlink_target_kept_removed :
    ∃ (state : SpinSystem ClientCall MiniReply) (read : SpinCall ClientCall MiniReply) (reply : MiniReply),
      Run (Step ClientCall.body) (OwnNumber (· + 5)) (initial ⟨∅, fun _ => 0⟩) state ∧
        state.calls 3 = some read ∧ read.phase = .returned (.ok reply) 6 ∧ reply = .inlineData [98] ∧
        dirEntry state.db.data 1 [97] = none ∧
        ∃ commit ∈ state.log, commit.op.call = .deleteMetadata 10 .inlineData := by
  obtain ⟨state, run, checked⟩ := exists_numbered_run (· + 5) ⟨∅, fun _ => 0⟩
    [.call 0 .miniTransaction ⟨paddingConfig 2 (by decide), .metaMutableReserveNewInos 1⟩, .start 0,
     .finish 0 .committed,
     .call 6 .miniTransaction ⟨paddingConfig 2 (by decide), .metaMutableReserveNewInos 1⟩, .start 6,
     .finish 6 .committed,
     .call 1 .miniTransaction ⟨paddingConfig 2 (by decide),
      .directoryAddChildCheckedNewInode ⟨1, [97], .symlink, 0o777, 0, 0, 0, some [98]⟩ 10 5⟩,
     .start 1, .finish 1 .committed,
     .call 2 .miniTransaction ⟨paddingConfig 3 (by decide), .directoryRemoveChild 1 [97] [.file, .symlink]⟩,
     .start 2, .finish 2 .committed,
     .call 4 .miniTransaction
      ⟨paddingConfig 3 (by decide), .inodeCheckForDeleteAndDeleteAtomicallyDescription 10⟩,
     .start 4, .finish 4 .committed,
     .call 3 .flexibleTransaction ⟨paddingConfig 4 (by decide), .inodeReadInlineData 10⟩, .start 3,
     .finish 3 .committed,
     .call 5 .flexibleTransaction ⟨paddingConfig 3 (by decide), .deleteMetadata 10 .inlineData⟩, .start 5,
     .finish 5 .committed]
    (fun state => decide (dirEntry state.db.data 1 [97] = none) &&
      decide (state.db.data.lookup (.inodeX 10 .inlineData) = none) &&
      ((state.calls 1).any fun call => call.op.call = .directoryAddChildCheckedNewInode
        ⟨1, [97], .symlink, 0o777, 0, 0, 0, some [98]⟩ 10 5 ∧
          call.returned = some (.added (.newlyCreated ⟨10, .symlink⟩), 3)) &&
      (state.calls 3).any fun call => call.op.call = .inodeReadInlineData 10 ∧ call.since = 5 ∧
        call.returned.map Prod.snd = some 6) (by decide +kernel)
  obtain ⟨three, isThird⟩ := Bool.and_eq_true_iff.mp checked
  obtain ⟨both, isFirst⟩ := Bool.and_eq_true_iff.mp three
  obtain ⟨removed, deleted⟩ := Bool.and_eq_true_iff.mp both
  obtain ⟨call, present, returned⟩ := (Option.any_eq_true _ _).mp isFirst
  obtain ⟨read, readPresent, readReturned⟩ := (Option.any_eq_true _ _).mp isThird
  obtain ⟨makes, isMade⟩ := of_decide_eq_true returned
  obtain ⟨reads, since, ended⟩ := of_decide_eq_true readReturned
  obtain ⟨⟨reply, _⟩, isReturned, rfl⟩ := Option.map_eq_some_iff.mp ended
  have phase := SpinCall.phase_of_returned isReturned
  obtain ⟨isReply, kept⟩ := symlink_target_kept _ (add_left_injective 5) run present readPresent makes rfl
    (SpinCall.phase_of_returned isMade) reads (by rw [since]; decide) phase
  have gone := of_decide_eq_true deleted
  refine ⟨state, read, reply, run, readPresent, phase, isReply, of_decide_eq_true removed, kept.resolve_left ?_⟩
  rw [gone]
  exact Option.some_ne_none _ ∘ Eq.symm

end Numbers

/-- No update of a size is lost. Behind an update that has returned, the size of the inode stays
what the update asked for or above it, whoever else updates it, until its records are deleted. -/
theorem size_update_kept (db : Db Key.Value)
    {allowed : SpinSystem ClientCall MiniReply → SpinEvent ClientCall → Prop}
    {state : SpinSystem ClientCall MiniReply} (run : Run (Step ClientCall.body) allowed (initial db) state)
    {id : ℕ} {call : SpinCall ClientCall MiniReply} (present : state.calls id = some call) {ino : StorageIno}
    {target : ℕ} (grows : call.op.call.grows call.op.cfg = some (ino, target)) {reply : MiniReply} {ended : ℕ}
    (isReturned : call.phase = .returned (.ok reply) ended)
    (settled : ∀ commit ∈ state.log.drop call.since, ¬ commit.op.call.Resets ino) {m : ℕ} (behind : ended ≤ m)
    (within : m ≤ state.log.length) :
    ∃ size : InoSize, (storeAt db.data state.log m).lookup (.inodeX ino .size) = some size ∧
      target ≤ size.size := by
  have valid := valid_of_run run
  have apart : ∀ n k commit, call.since ≤ n → n ≤ k → state.log[k]? = some commit →
      ¬ commit.op.call.Resets ino := by
    intro n k commit since order listed
    apply settled
    have dropped : (state.log.drop call.since)[k - call.since]? = some commit := by
      rw [List.getElem?_drop, Nat.add_sub_cancel' (since.trans order)]
      exact listed
    exact List.mem_of_getElem? dropped
  obtain ⟨n, after, since, before, _, ran, position⟩ :=
    valid.one_step present isReturned (ownReads_grows grows)
  obtain ⟨_, raised, _, isRaised, _, enough⟩ := grown_ran grows ran
  obtain ⟨p, rfl, isSince, early⟩ : ∃ p, after = storeAt db.data state.log p ∧ call.since ≤ p ∧ p ≤ ended := by
    rcases position with rfl | ⟨rfl, inside, _⟩
    · exact ⟨n, rfl, since, before⟩
    · exact ⟨n + 1, rfl, Nat.le_succ_of_le since, inside⟩
  obtain ⟨later, isLater, larger⟩ :=
    size_kept valid.logged (fun k commit => apart p k commit isSince) isRaised (early.trans behind) within
  exact ⟨later, isLater, enough.trans larger⟩

/-- An allocation that began before a block write had raised the size is refused and tried again. -/
theorem size_update_kept_race :
    ∃ (state : SpinSystem ClientCall MiniReply) (size : InoSize),
      Run (Step ClientCall.body) Answered (initial ⟨∅, fun _ => 0⟩) state ∧ state.log.length = 3 ∧
      (storeAt ∅ state.log 3).lookup (.inodeX 10 .size) = some size ∧ 20 ≤ size.size := by
  obtain ⟨state, run, checked⟩ := exists_run ClientCall.body ⟨∅, fun _ => 0⟩
    [.call 0 .miniTransaction ⟨paddingConfig 2 (by decide),
      .directoryAddChildCheckedNewInode ⟨1, [97], .file, 0, 0, 0, 0, none⟩ 10 5⟩,
     .start 0, .finish 0 .committed,
     .call 1 .miniTransaction ⟨paddingConfig 2 (by decide), .inodeAllocateSize 6 10 4 6⟩,
     .call 2 .miniTransaction
      ⟨paddingConfig 2 (by decide), .hbReplaceBlockHashForAddressOnlySizeUpdateB 7 10 20⟩,
     .start 1, .start 2, .finish 2 .committed, .finish 1 (.refused (.keyError "conflict")), .start 1,
     .finish 1 .committed]
    (fun state => decide (state.log.length = 3) &&
      (state.calls 2).any fun call => call.op.call.grows call.op.cfg = some (10, 20) ∧
        call.returned = some (.done, 2) ∧ ∀ commit ∈ state.log.drop call.since, ¬ commit.op.call.Resets 10)
    (by decide +kernel)
  obtain ⟨length, isSecond⟩ := Bool.and_eq_true_iff.mp checked
  obtain ⟨call, present, returned⟩ := (Option.any_eq_true _ _).mp isSecond
  obtain ⟨grows, reply, settled⟩ := of_decide_eq_true returned
  have three := of_decide_eq_true length
  obtain ⟨size, stored, enough⟩ := size_update_kept _ run present grows (SpinCall.phase_of_returned reply)
    settled (Nat.le_succ 2) three.ge
  exact ⟨state, size, run, three, stored, enough⟩

end SpinSystem

end TiFs
