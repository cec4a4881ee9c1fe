import TiFs.CallFootprints

/-! The history of one name. A call that has created an entry has found none, and one that has
removed or renamed it has found it, so the two alternate in the log; a name can be used as a
lock, and an entry as a piece of work that one client gets. -/

namespace TiFs

open KeyValue

section Bodies

variable {cfg : TiFsConfig} {store : Store} {txn : Txn Key.Value} {parent : ParentStorageIno}
  {name : ByteString}

/-- What a call that created the entry of one of its names has found and written. It deletes
no entry. -/
theorem created_ran {call : MiniCall} {item : StorageDirItem} (given : (parent, name) ∈ call.gives)
    (ran : call.body cfg ⟨store, []⟩ = .ok (.added (.newlyCreated item), txn)) :
    dirEntry store parent name = none ∧ Mutation.put (.directoryChild parent name) item ∈ txn.buffer ∧
      call.takes = [] := by
  cases call with
  | directoryAddChildCheckedNewInode args newIno now =>
      obtain ⟨rfl, rfl⟩ := Prod.mk.inj (List.mem_singleton.mp given)
      obtain ⟨result, inner, isReply⟩ := map_eq_ok ran
      obtain rfl := MiniReply.added.inj isReply
      cases found : dirEntry (Txn.mk store []).view args.parent args.name with
      | some existing =>
          rw [addNew_existed found] at inner
          cases inner
      | none =>
          rw [addNew_created found] at inner
          cases inner
          refine ⟨found, ?_, rfl⟩
          change _ ∈ createdWrites args newIno now
          exact List.mem_append_left _ (by simp)
  | directoryAddChildCheckedExistingInode above entry ino =>
      obtain ⟨rfl, rfl⟩ := Prod.mk.inj (List.mem_singleton.mp given)
      obtain ⟨result, inner, isReply⟩ := map_eq_ok ran
      obtain rfl := MiniReply.added.inj isReply
      cases found : dirEntry (Txn.mk store []).view parent name with
      | some existing =>
          rw [addExisting_existed found] at inner
          cases inner
      | none =>
          cases stored : inoDescription (Txn.mk store []).view ino with
          | none =>
              rw [addExisting_missing found stored] at inner
              cases inner
          | some desc =>
              rw [addExisting_created found stored] at inner
              cases inner
              exact ⟨found, List.mem_cons_of_mem _ List.mem_cons_self, rfl⟩
  | directoryRenameChild above entry newParent newName =>
      obtain ⟨result, _, isReply⟩ := map_eq_ok ran
      cases isReply
  | inodeOpen ino useId =>
      obtain ⟨result, _, isReply⟩ := map_eq_ok ran
      cases isReply
  | _ => cases given

def Deletes (parent : ParentStorageIno) (name : ByteString) (writes : List Write) : Prop :=
  Mutation.delete (.directoryChild parent name) ∈ writes ∧
    ∀ item, Mutation.put (.directoryChild parent name) item ∉ writes

theorem deletes_removedLinks
    (childIno : StorageIno) : Deletes parent name (removedLinks parent name childIno) := by
  refine ⟨List.mem_cons_self, ?_⟩
  intro item listed
  simp [removedLinks, Mutation.put, Mutation.delete] at listed

theorem renamed_ran {newParent : ParentStorageIno} {newName : ByteString} {result : Unit}
    (ran : directoryRenameChild parent name newParent newName ⟨store, []⟩ = .ok (result, txn)) :
    (dirEntry store parent name).isSome = true ∧ Deletes parent name txn.buffer := by
  cases found : dirEntry (Txn.mk store []).view parent name with
  | none =>
      rw [rename_missing found] at ran
      cases ran
  | some item =>
      refine ⟨Option.isSome_of_eq_some found, ?_⟩
      cases target : dirEntry (Txn.mk store []).view newParent newName with
      | some existing =>
          rw [rename_existed found target] at ran
          cases ran
          exact deletes_removedLinks item.ino
      | none =>
          cases stored : inoDescription (Txn.mk store []).view item.ino with
          | none =>
              rw [rename_noDescription found target stored] at ran
              cases ran
          | some desc =>
              rw [rename_moved found target stored] at ran
              cases ran
              change Deletes parent name (addedLinks newParent newName ⟨item.ino, desc.typ⟩ ++
                removedLinks parent name item.ino)
              refine ⟨List.mem_append_right _ List.mem_cons_self, ?_⟩
              intro other listed
              rcases List.mem_append.mp listed with added | removed
              · simp only [addedLinks, Mutation.put, List.mem_cons, Mutation.mk.injEq, reduceCtorEq, false_and,
                  Key.directoryChild.injEq, List.not_mem_nil, or_false, false_or] at added
                obtain ⟨⟨rfl, rfl⟩, _⟩ := added
                rw [found] at target
                cases target
              · exact (deletes_removedLinks item.ino).2 other removed

theorem taken_ran {call : MiniCall} {reply : MiniReply} (taken : (parent, name) ∈ call.takes)
    (ran : call.body cfg ⟨store, []⟩ = .ok (reply, txn)) :
    (dirEntry store parent name).isSome = true ∧ Deletes parent name txn.buffer := by
  cases call with
  | directoryRemoveChild above entry allowedTypes =>
      obtain ⟨rfl, rfl⟩ := Prod.mk.inj (List.mem_singleton.mp taken)
      obtain ⟨result, inner, _⟩ := map_eq_ok ran
      obtain ⟨found, _, rfl⟩ := removeChild_ok inner
      exact ⟨Option.isSome_of_eq_some found, deletes_removedLinks result.ino⟩
  | directoryRemoveChildEmptyDirectory above entry =>
      obtain ⟨rfl, rfl⟩ := Prod.mk.inj (List.mem_singleton.mp taken)
      obtain ⟨result, inner, _⟩ := map_eq_ok ran
      obtain ⟨found, _, _, rfl⟩ := removeEmpty_ok inner
      exact ⟨Option.isSome_of_eq_some found, deletes_removedLinks result.ino⟩
  | directoryRenameChild above entry newParent newName =>
      obtain ⟨rfl, rfl⟩ := Prod.mk.inj (List.mem_singleton.mp taken)
      obtain ⟨result, inner, _⟩ := map_eq_ok ran
      exact renamed_ran inner
  | inodeClose ino useId =>
      obtain ⟨rfl, rfl⟩ := Prod.mk.inj (List.mem_singleton.mp taken)
      obtain ⟨result, inner, _⟩ := map_eq_ok ran
      obtain ⟨item, found, _, rfl⟩ := close_ok inner
      exact ⟨Option.isSome_of_eq_some found, deletes_removedLinks item.ino⟩
  | _ => cases taken

end Bodies

section Log

variable {first : Store} {log : List (Commit Key.Value ℕ ClientCall MiniReply)} {db : Db Key.Value}
  {parent : ParentStorageIno} {name : ByteString} {n m l : ℕ}
  {commit : Commit Key.Value ℕ ClientCall MiniReply}

/-- The transaction has created the entry. -/
def Creates (parent : ParentStorageIno) (name : ByteString) (commit : Commit Key.Value ℕ ClientCall MiniReply) :
    Prop :=
  (parent, name) ∈ commit.op.call.gives ∧ ∃ item, commit.reply = .added (.newlyCreated item)

/-- The transaction has removed the entry or moved it away. -/
def Takes (parent : ParentStorageIno) (name : ByteString) (commit : Commit Key.Value ℕ ClientCall MiniReply) :
    Prop :=
  (parent, name) ∈ commit.op.call.takes

def Gives (parent : ParentStorageIno) (name : ByteString) (commit : Commit Key.Value ℕ ClientCall MiniReply) :
    Prop :=
  (parent, name) ∈ commit.op.call.gives

theorem names_of_logged (logged : Logged ClientCall.body first log db) (listed : log[n]? = some commit)
    {write : Write} (written : write ∈ commit.writes) :
    NamesOnly commit.op.call.gives commit.op.call.takes write :=
  (within_of_logged logged listed written).1

theorem entry_created (logged : Logged ClientCall.body first log db) (listed : log[n]? = some commit)
    (creates : Creates parent name commit) :
    dirEntry (storeAt first log n) parent name = none ∧
      (dirEntry (storeAt first log (n + 1)) parent name).isSome = true := by
  obtain ⟨given, item, isReply⟩ := creates
  obtain ⟨_, txn, ran, wrote⟩ := logged.ran listed
  rw [isReply] at ran
  obtain ⟨free, put, takesNone⟩ := created_ran given ran
  rw [wrote] at put
  have written : Key.directoryChild parent name ∈ commit.writes.map Mutation.key := List.mem_map_of_mem put
  refine ⟨(logged.unchanged listed written).trans free, ?_⟩
  obtain ⟨value, inWrites, isValue⟩ := exists_mem_of_written (storeAt first log n) written
  rw [dirEntry, storeAt_succ listed, isValue]
  cases value with
  | some item => rfl
  | none =>
      have taken : (parent, name) ∈ commit.op.call.takes :=
        names_of_logged logged listed inWrites parent name rfl
      rw [takesNone] at taken
      cases taken

theorem entry_taken (logged : Logged ClientCall.body first log db) (listed : log[n]? = some commit)
    (takes : Takes parent name commit) :
    (dirEntry (storeAt first log n) parent name).isSome = true ∧
      dirEntry (storeAt first log (n + 1)) parent name = none := by
  obtain ⟨_, txn, ran, wrote⟩ := logged.ran listed
  obtain ⟨found, deletes, puts⟩ := taken_ran takes ran
  rw [wrote] at deletes puts
  have written : Key.directoryChild parent name ∈ commit.writes.map Mutation.key := List.mem_map_of_mem deletes
  refine ⟨(congrArg Option.isSome (logged.unchanged listed written)).trans found, ?_⟩
  obtain ⟨value, inWrites, isValue⟩ := exists_mem_of_written (storeAt first log n) written
  rw [dirEntry, storeAt_succ listed, isValue]
  cases value with
  | none => rfl
  | some item => exact absurd inWrites (puts item)

/-- Between two creations of an entry it is taken. -/
theorem taken_between (logged : Logged ClientCall.body first log db)
    {last : Commit Key.Value ℕ ClientCall MiniReply} (listed : log[m]? = some commit)
    (creates : Creates parent name commit) (lastListed : log[l]? = some last)
    (createsAgain : Creates parent name last) (order : m < l) :
    ∃ n between, m < n ∧ n < l ∧ log[n]? = some between ∧ Takes parent name between := by
  have begins := (entry_created logged listed creates).2
  have ends := (entry_created logged lastListed createsAgain).1
  have within : l < log.length := (List.getElem?_eq_some_iff.mp lastListed).1
  obtain ⟨n, between, behind, before, isBetween, still, gone⟩ :=
    exists_commit_between (fun store => (dirEntry store parent name).isSome = true) begins
      (by rw [ends]; exact Bool.false_ne_true) order within.le
  rw [Option.not_isSome_iff_eq_none] at gone
  have changed : (storeAt first log (n + 1)).lookup (.directoryChild parent name) ≠
      (storeAt first log n).lookup (.directoryChild parent name) := by
    intro same
    rw [dirEntry, ← same, ← dirEntry, gone] at still
    cases still
  have written := exists_write_of_changed isBetween changed
  rw [← dirEntry, gone] at written
  exact ⟨n, between, behind, before, isBetween, names_of_logged logged isBetween written parent name rfl⟩

/-- Between two removals of an entry it is written. -/
theorem given_between (logged : Logged ClientCall.body first log db)
    {last : Commit Key.Value ℕ ClientCall MiniReply} (listed : log[m]? = some commit)
    (takes : Takes parent name commit) (lastListed : log[l]? = some last)
    (takesAgain : Takes parent name last) (order : m < l) :
    ∃ n between, m < n ∧ n < l ∧ log[n]? = some between ∧ Gives parent name between := by
  have begins := (entry_taken logged listed takes).2
  have ends := (entry_taken logged lastListed takesAgain).1
  have within : l < log.length := (List.getElem?_eq_some_iff.mp lastListed).1
  obtain ⟨n, between, behind, before, isBetween, still, there⟩ :=
    exists_commit_between (fun store => dirEntry store parent name = none) begins
      (fun free => by rw [free] at ends; cases ends) order within.le
  have changed : (storeAt first log (n + 1)).lookup (.directoryChild parent name) ≠
      (storeAt first log n).lookup (.directoryChild parent name) :=
    fun same => there (same.trans still)
  have written := exists_write_of_changed isBetween changed
  refine ⟨n, between, behind, before, isBetween, ?_⟩
  obtain ⟨item, isItem⟩ := Option.ne_none_iff_exists'.mp there
  have named := names_of_logged logged isBetween written parent name rfl
  rw [← dirEntry, isItem] at named
  exact named

end Log

/-- The commits of two calls, in either order, with another one between them. -/
def Between (log : List (Commit Key.Value ℕ ClientCall MiniReply)) (id other : ℕ)
    (holds : Commit Key.Value ℕ ClientCall MiniReply → Prop) : Prop :=
  ∃ (m n l : ℕ) (between : Commit Key.Value ℕ ClientCall MiniReply), m < n ∧ n < l ∧
    log[n]? = some between ∧ holds between ∧
    ((log[m]?).map Commit.id = some id ∧ (log[l]?).map Commit.id = some other ∨
      (log[m]?).map Commit.id = some other ∧ (log[l]?).map Commit.id = some id)

namespace SpinSystem

variable {db : Db Key.Value} {allowed : SpinSystem ClientCall MiniReply → SpinEvent ClientCall → Prop}
  {state : SpinSystem ClientCall MiniReply} {parent : ParentStorageIno} {name : ByteString}

theorem Valid.between {first : Store} (valid : Valid ClientCall.body first state) {id otherId : ℕ}
    (different : id ≠ otherId) {call other : SpinCall ClientCall MiniReply}
    (present : state.calls id = some call) (otherPresent : state.calls otherId = some other)
    {reply otherReply : MiniReply} {ended otherEnded : ℕ}
    (isReturned : call.phase = .returned (.ok reply) ended)
    (otherReturned : other.phase = .returned (.ok otherReply) otherEnded)
    {kind holds : Commit Key.Value ℕ ClientCall MiniReply → Prop}
    (isKind : ∀ commit : Commit Key.Value ℕ ClientCall MiniReply, commit.op = call.op → commit.reply = reply →
      kind commit)
    (otherKind : ∀ commit : Commit Key.Value ℕ ClientCall MiniReply, commit.op = other.op →
      commit.reply = otherReply → kind commit)
    (ordered : ∀ {m l : ℕ} {commit last : Commit Key.Value ℕ ClientCall MiniReply},
      state.log[m]? = some commit → kind commit → state.log[l]? = some last → kind last → m < l →
        ∃ n between, m < n ∧ n < l ∧ state.log[n]? = some between ∧ holds between) :
    Between state.log id otherId holds := by
  obtain ⟨_, m, commit, listed, isId, isOp, isReply, _⟩ :=
    (valid.sound id call present).ended reply ended isReturned
  obtain ⟨_, l, last, lastListed, lastId, lastOp, lastReply, _⟩ :=
    (valid.sound otherId other otherPresent).ended otherReply otherEnded otherReturned
  have commits : (state.log[m]?).map Commit.id = some id := by rw [listed, ← isId, Option.map_some]
  have lasts : (state.log[l]?).map Commit.id = some otherId := by rw [lastListed, ← lastId, Option.map_some]
  have isFirst := isKind commit isOp isReply
  have isLast := otherKind last lastOp lastReply
  rcases lt_trichotomy m l with earlier | rfl | later
  · obtain ⟨n, between, behind, before, isBetween, found⟩ := ordered listed isFirst lastListed isLast earlier
    exact ⟨m, n, l, between, behind, before, isBetween, found, Or.inl ⟨commits, lasts⟩⟩
  · exact absurd (Option.some.inj (commits.symm.trans lasts)) different
  · obtain ⟨n, between, behind, before, isBetween, found⟩ := ordered lastListed isLast listed isFirst later
    exact ⟨l, n, m, between, behind, before, isBetween, found, Or.inr ⟨lasts, commits⟩⟩

/-- A name as a lock: of two calls that created one entry, whoever made them and whatever ran
beside them, the later one comes behind a transaction that removed the entry or moved it away. -/
theorem created_by_one (run : Run (Step ClientCall.body) allowed (initial db) state) {id otherId : ℕ}
    (different : id ≠ otherId) {call other : SpinCall ClientCall MiniReply}
    (present : state.calls id = some call) (otherPresent : state.calls otherId = some other)
    (given : (parent, name) ∈ call.op.call.gives) (otherGiven : (parent, name) ∈ other.op.call.gives)
    {item otherItem : StorageDirItem} {ended otherEnded : ℕ}
    (isReturned : call.phase = .returned (.ok (.added (.newlyCreated item))) ended)
    (otherReturned : other.phase = .returned (.ok (.added (.newlyCreated otherItem))) otherEnded) :
    Between state.log id otherId (Takes parent name) := by
  have valid := valid_of_run run
  have creates : ∀ commit : Commit Key.Value ℕ ClientCall MiniReply, commit.op = call.op →
      commit.reply = .added (.newlyCreated item) → Creates parent name commit :=
    fun _ isOp isReply => ⟨isOp ▸ given, item, isReply⟩
  have otherCreates : ∀ commit : Commit Key.Value ℕ ClientCall MiniReply, commit.op = other.op →
      commit.reply = .added (.newlyCreated otherItem) → Creates parent name commit :=
    fun _ isOp isReply => ⟨isOp ▸ otherGiven, otherItem, isReply⟩
  exact valid.between different present otherPresent isReturned otherReturned creates otherCreates
    (taken_between valid.logged)

/-- The second client creates the entry when the first one has removed it. -/
theorem created_by_one_again :
    ∃ state : SpinSystem ClientCall MiniReply, Run (Step ClientCall.body) Answered (initial ⟨∅, fun _ => 0⟩) state ∧
      state.log.length = 4 ∧ Between state.log 0 2 (Takes 1 [97]) := by
  obtain ⟨state, run, checked⟩ := exists_run ClientCall.body ⟨∅, fun _ => 0⟩
    [.call 0 .miniTransaction ⟨paddingConfig 2 (by decide),
      .directoryAddChildCheckedNewInode ⟨1, [97], .file, 0, 0, 0, 0, none⟩ 10 5⟩,
     .call 1 .miniTransaction ⟨paddingConfig 2 (by decide),
      .directoryAddChildCheckedNewInode ⟨1, [97], .file, 0, 0, 0, 0, none⟩ 11 5⟩,
     .start 0, .start 1, .finish 0 .committed, .finish 1 (.refused (.keyError "conflict")), .start 1,
     .finish 1 .committed,
     .call 3 .miniTransaction ⟨paddingConfig 2 (by decide), .directoryRemoveChild 1 [97] [.file]⟩,
     .start 3, .finish 3 .committed,
     .call 2 .miniTransaction ⟨paddingConfig 2 (by decide),
      .directoryAddChildCheckedNewInode ⟨1, [97], .file, 0, 0, 0, 0, none⟩ 12 5⟩,
     .start 2, .finish 2 .committed]
    (fun state => decide (state.log.length = 4) &&
      ((state.calls 0).any fun call => (1, [97]) ∈ call.op.call.gives ∧
        call.returned = some (.added (.newlyCreated ⟨10, .file⟩), 1)) &&
      (state.calls 2).any fun call => (1, [97]) ∈ call.op.call.gives ∧
        call.returned = some (.added (.newlyCreated ⟨12, .file⟩), 4)) (by decide +kernel)
  obtain ⟨both, isThird⟩ := Bool.and_eq_true_iff.mp checked
  obtain ⟨length, isFirst⟩ := Bool.and_eq_true_iff.mp both
  obtain ⟨call, present, returned⟩ := (Option.any_eq_true _ _).mp isFirst
  obtain ⟨other, otherPresent, otherReturned⟩ := (Option.any_eq_true _ _).mp isThird
  obtain ⟨given, reply⟩ := of_decide_eq_true returned
  obtain ⟨otherGiven, otherReply⟩ := of_decide_eq_true otherReturned
  exact ⟨state, run, of_decide_eq_true length, created_by_one run (by decide) present otherPresent given otherGiven
    (SpinCall.phase_of_returned reply) (SpinCall.phase_of_returned otherReply)⟩

/-- An entry as a piece of work: of two calls that removed one entry or moved it away, the later
one comes behind a transaction that can have put the entry there again. -/
theorem taken_by_one (run : Run (Step ClientCall.body) allowed (initial db) state) {id otherId : ℕ}
    (different : id ≠ otherId) {call other : SpinCall ClientCall MiniReply}
    (present : state.calls id = some call) (otherPresent : state.calls otherId = some other)
    (taken : (parent, name) ∈ call.op.call.takes) (otherTaken : (parent, name) ∈ other.op.call.takes)
    {reply otherReply : MiniReply} {ended otherEnded : ℕ}
    (isReturned : call.phase = .returned (.ok reply) ended)
    (otherReturned : other.phase = .returned (.ok otherReply) otherEnded) :
    Between state.log id otherId (Gives parent name) := by
  have valid := valid_of_run run
  have takes : ∀ commit : Commit Key.Value ℕ ClientCall MiniReply, commit.op = call.op →
      commit.reply = reply → Takes parent name commit :=
    fun commit isOp _ => by rw [Takes, isOp]; exact taken
  have otherTakes : ∀ commit : Commit Key.Value ℕ ClientCall MiniReply, commit.op = other.op →
      commit.reply = otherReply → Takes parent name commit :=
    fun commit isOp _ => by rw [Takes, isOp]; exact otherTaken
  exact valid.between different present otherPresent isReturned otherReturned takes otherTakes
    (given_between valid.logged)

/-- Two clients move one file to names of their own; the second one finds it when it was
created again. -/
theorem taken_by_one_again :
    ∃ state : SpinSystem ClientCall MiniReply, Run (Step ClientCall.body) Answered (initial ⟨∅, fun _ => 0⟩) state ∧
      state.log.length = 4 ∧ Between state.log 1 2 (Gives 1 [97]) := by
  obtain ⟨state, run, checked⟩ := exists_run ClientCall.body ⟨∅, fun _ => 0⟩
    [.call 0 .miniTransaction ⟨paddingConfig 2 (by decide),
      .directoryAddChildCheckedNewInode ⟨1, [97], .file, 0, 0, 0, 0, none⟩ 10 5⟩,
     .start 0, .finish 0 .committed,
     .call 1 .miniTransaction ⟨paddingConfig 2 (by decide), .directoryRenameChild 1 [97] 1 [98]⟩,
     .call 2 .miniTransaction ⟨paddingConfig 2 (by decide), .directoryRenameChild 1 [97] 1 [99]⟩,
     .start 1, .start 2, .finish 2 (.refused (.keyError "unavailable")), .finish 1 .committed,
     .call 3 .miniTransaction ⟨paddingConfig 2 (by decide),
      .directoryAddChildCheckedNewInode ⟨1, [97], .file, 0, 0, 0, 0, none⟩ 11 5⟩,
     .start 3, .finish 3 .committed, .start 2, .finish 2 .committed]
    (fun state => decide (state.log.length = 4) &&
      ((state.calls 1).any fun call => (1, [97]) ∈ call.op.call.takes ∧ call.returned = some (.done, 2)) &&
      (state.calls 2).any fun call => (1, [97]) ∈ call.op.call.takes ∧ call.returned = some (.done, 4))
    (by decide +kernel)
  obtain ⟨both, isSecond⟩ := Bool.and_eq_true_iff.mp checked
  obtain ⟨length, isFirst⟩ := Bool.and_eq_true_iff.mp both
  obtain ⟨call, present, returned⟩ := (Option.any_eq_true _ _).mp isFirst
  obtain ⟨other, otherPresent, otherReturned⟩ := (Option.any_eq_true _ _).mp isSecond
  obtain ⟨taken, reply⟩ := of_decide_eq_true returned
  obtain ⟨otherTaken, otherReply⟩ := of_decide_eq_true otherReturned
  exact ⟨state, run, of_decide_eq_true length, taken_by_one run (by decide) present otherPresent taken otherTaken
    (SpinCall.phase_of_returned reply) (SpinCall.phase_of_returned otherReply)⟩

end SpinSystem

end TiFs
