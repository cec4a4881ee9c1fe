import TiFs.HashFsError
import TiFs.Directory

/-! What is replied when the transaction of an operation fails. Its error becomes one of the
storage interface and one of the file system again before the retry loop looks at it, and the
number that is replied is that of the error which the loop gives up with. -/

namespace TiFs

open KeyValue

/-- The numbers of `libc` that are replied. -/
inductive Errno where
  | enosys
  | enametoolong
  | enoent
  | eexist
  | efault
  | ebadf
  | einval
  | enotempty
  | eagain
  | enospc
  | erange
  deriving DecidableEq, Repr

/-- `From<FsError> for c_int`. -/
def FsError.errno : FsError → Errno
  | .unimplemented => .enosys
  | .nameTooLong _ => .enametoolong
  | .fileNotFound _ => .enoent
  | .fileExist _ => .eexist
  | .inodeNotFound _ => .efault
  | .keyNotFound _ => .efault
  | .fhNotFound _ => .ebadf
  | .invalidOffset _ _ => .einval
  | .unknownWhence _ => .einval
  | .blockNotFound _ _ => .einval
  | .dirNotEmpty _ => .enotempty
  | .unknownFileType => .einval
  | .keyError _ => .eagain
  | .retryTimesExcess _ => .eagain
  | .invalidStr => .einval
  | .blockSizeConflict _ _ => .einval
  | .noSpaceLeft _ => .enospc
  | .checksumMismatch _ _ => .erange
  | _ => .efault

/-- `From<HashFsError> for FsError`. A missing key has lost its name, of which only a text is left. -/
def FsError.ofHashFsError : HashFsError → FsError
  | .rawGrpcStatus status => .unknownError ("Error: GRPC Status: " ++ reprStr status)
  | .fsNotInitialized => .configParsingFailed "Fs not initialized."
  | .fsHasInvalidData msg => .unknownError ("msg: " ++ reprStr msg)
  | .fileNotFound => .fileNotFound ("undefined".toList.map fun char => UInt8.ofNat char.toNat)
  | .fsHasMissingData _ => .keyNotFound none
  | .unspecific msg => .unknownError msg
  | .fileAlreadyExists => .fileExist ("undefined".toList.map fun char => UInt8.ofNat char.toNat)
  | .inodeHasNoInlineData => .wrongFileType
  | .grpcMessageIncomplete => .grpcMessageIncomplete
  | .rawTonicTransportError err => .unknownError ("RawTonicTransportError: " ++ reprStr err)

inductive TransactionError where
  | temporaryIssue (issue : FsError)
  | persistentIssue (issue : FsError)
  deriving DecidableEq, Repr

def TransactionError.ofFsError : FsError → TransactionError
  | .keyError msg => .temporaryIssue (.keyError msg)
  | .tryLockFailed => .temporaryIssue .tryLockFailed
  | .unknownError msg => .temporaryIssue (.unknownError msg)
  | other => .persistentIssue other

/-- What the executions of an operation end with, the first one and those behind it. What other
clients do between two of them is part of what the later one does to the store. -/
abbrev Executions (A : Type) := Nat → Store → Except FsError A × Store

/-- `TiFs::spin` from an execution on, with the number of executions at its end. -/
inductive SpinLoop {A : Type} (execute : Executions A) : Nat → Nat → Store → Nat → Except FsError A → Store → Prop
  | value (k otherErrorCount : Nat) (store after : Store) (value : A)
      (ran : execute k store = (.ok value, after)) :
      SpinLoop execute k otherErrorCount store (k + 1) (.ok value) after
  | keyError (k otherErrorCount : Nat) (store between : Store) (msg : String) (total : Nat)
      (result : Except FsError A) (after : Store) (ran : execute k store = (.error (.keyError msg), between))
      (rest : SpinLoop execute (k + 1) otherErrorCount between total result after) :
      SpinLoop execute k otherErrorCount store total result after
  | unknownError (k otherErrorCount : Nat) (store between : Store) (msg : String) (total : Nat)
      (result : Except FsError A) (after : Store) (ran : execute k store = (.error (.unknownError msg), between))
      (fewer : otherErrorCount < 3)
      (rest : SpinLoop execute (k + 1) (otherErrorCount + 1) between total result after) :
      SpinLoop execute k otherErrorCount store total result after
  | givenUp (k otherErrorCount : Nat) (store after : Store) (msg : String)
      (ran : execute k store = (.error (.unknownError msg), after)) (many : 3 ≤ otherErrorCount) :
      SpinLoop execute k otherErrorCount store (k + 1) (.error (.unknownError msg)) after
  | failed (k otherErrorCount : Nat) (store after : Store) (issue : FsError)
      (ran : execute k store = (.error issue, after)) (noKeyError : ∀ msg, issue ≠ .keyError msg)
      (known : ∀ msg, issue ≠ .unknownError msg) :
      SpinLoop execute k otherErrorCount store (k + 1) (.error issue) after

def throughHashFs (issue : FsError) : FsError := .ofHashFsError (.ofFsError issue)

def onHashFs {A : Type} (op : Executions A) : Executions A := fun k store =>
  ((op k store).1.mapError throughHashFs, (op k store).2)

/-- The operation is executed once, and the number of the error is replied. -/
structure RepliesAs {A : Type} (op : Executions A) (store : Store) (issue : FsError) : Prop where
  ends : ∃ total result after, SpinLoop (onHashFs op) 0 0 store total result after
  once : ∀ total result after, SpinLoop (onHashFs op) 0 0 store total result after →
    total = 1 ∧ ∃ reply : FsError, result = .error reply ∧ reply.errno = issue.errno

/-- The errors that both conversions keep. -/
def FsError.IsKept (issue : FsError) : Prop :=
  (∃ file, issue = .fileNotFound file) ∨ ∃ key, issue = .keyNotFound key

section Spin

variable {A : Type} {op : Executions A} {store : Store} {issue : FsError}

theorem throughHashFs_kept (kept : issue.IsKept) :
    (throughHashFs issue).errno = issue.errno ∧ (∀ msg, throughHashFs issue ≠ .keyError msg) ∧
      ∀ msg, throughHashFs issue ≠ .unknownError msg := by
  rcases kept with ⟨file, rfl⟩ | ⟨key, rfl⟩
  · exact ⟨rfl, nofun, nofun⟩
  · exact ⟨rfl, nofun, nofun⟩

/-- An error that is not kept becomes an unknown one, or one with another number. -/
theorem throughHashFs_lost (lost : ¬ issue.IsKept) :
    (∃ msg, throughHashFs issue = .unknownError msg) ∨
      ∃ inode, issue = .inodeNotFound inode := by
  cases issue with
  | fileNotFound file => exact absurd (Or.inl ⟨file, rfl⟩) lost
  | keyNotFound key => exact absurd (Or.inr ⟨key, rfl⟩) lost
  | inodeNotFound inode => exact Or.inr ⟨inode, rfl⟩
  | _ => exact Or.inl ⟨_, rfl⟩

theorem throughHashFs_ne_keyError (issue : FsError) (msg : String) : throughHashFs issue ≠ .keyError msg := by
  cases issue <;> nofun

theorem onHashFs_error {k : Nat} {after : Store} (ran : op k store = (.error issue, after)) :
    onHashFs op k store = (.error (throughHashFs issue), after) := by
  rw [onHashFs, ran]
  rfl

/-- The loop ends, as no error of a key reaches it. -/
theorem spin_ends (op : Executions A) (k otherErrorCount : Nat) (store : Store) :
    ∃ total result after, SpinLoop (onHashFs op) k otherErrorCount store total result after ∧ k < total := by
  induction left : 3 - otherErrorCount using Nat.strong_induction_on generalizing k otherErrorCount store with
  | _ left ih =>
      rcases ran : op k store with ⟨outcome, between⟩
      cases outcome with
      | ok value =>
          have seen : onHashFs op k store = (.ok value, between) := by
            rw [onHashFs, ran]
            rfl
          exact ⟨_, _, _, .value k otherErrorCount store between value seen, Nat.lt_succ_self k⟩
      | error issue =>
          have seen := onHashFs_error ran
          by_cases unknown : ∃ msg, throughHashFs issue = .unknownError msg
          · obtain ⟨msg, isUnknown⟩ := unknown
            rw [isUnknown] at seen
            by_cases fewer : otherErrorCount < 3
            · obtain ⟨total, result, after, rest, later⟩ :=
                ih (3 - (otherErrorCount + 1)) (by omega) (k + 1) (otherErrorCount + 1) between rfl
              exact ⟨total, result, after, .unknownError k otherErrorCount store between msg total result after
                seen fewer rest, by omega⟩
            · exact ⟨_, _, _, .givenUp k otherErrorCount store between msg seen (Nat.not_lt.mp fewer),
                Nat.lt_succ_self k⟩
          · exact ⟨_, _, _, .failed k otherErrorCount store between _ seen (throughHashFs_ne_keyError issue)
              (fun msg same => unknown ⟨msg, same⟩), Nat.lt_succ_self k⟩

theorem replies_of_kept (kept : issue.IsKept) (ends : (op 0 store).1 = .error issue) :
    RepliesAs op store issue := by
  obtain ⟨sameNumber, noKeyError, known⟩ := throughHashFs_kept kept
  have seen : onHashFs op 0 store = (.error (throughHashFs issue), (op 0 store).2) :=
    onHashFs_error (Prod.ext ends rfl)
  obtain ⟨total, result, after, run, _⟩ := spin_ends op 0 0 store
  refine ⟨⟨total, result, after, run⟩, ?_⟩
  intro total result after run
  cases run with
  | value _ _ _ _ _ ran =>
      rw [seen] at ran
      cases ran
  | keyError _ _ _ _ msg _ _ _ ran _ =>
      rw [seen] at ran
      exact absurd (Except.error.inj (Prod.mk.inj ran).1) (noKeyError msg)
  | unknownError _ _ _ _ msg _ _ _ ran _ _ =>
      rw [seen] at ran
      exact absurd (Except.error.inj (Prod.mk.inj ran).1) (known msg)
  | givenUp _ _ _ _ _ ran many => omega
  | failed _ _ _ _ reply ran _ _ =>
      rw [seen] at ran
      exact ⟨rfl, reply, rfl, by rw [← Except.error.inj (Prod.mk.inj ran).1, sameNumber]⟩

theorem not_replies_of_lost (lost : ¬ issue.IsKept) (ends : (op 0 store).1 = .error issue) :
    ¬ RepliesAs op store issue := by
  have seen : onHashFs op 0 store = (.error (throughHashFs issue), (op 0 store).2) :=
    onHashFs_error (Prod.ext ends rfl)
  intro replies
  rcases throughHashFs_lost lost with ⟨msg, isUnknown⟩ | ⟨inode, rfl⟩
  · rw [isUnknown] at seen
    obtain ⟨total, result, after, rest, later⟩ := spin_ends op 1 1 (op 0 store).2
    have once := (replies.once total result after
      (.unknownError 0 0 store _ msg total result after seen (by omega) rest)).1
    omega
  · obtain ⟨_, reply, isReply, sameNumber⟩ :=
      replies.once _ _ _ (.failed 0 0 store _ _ seen (throughHashFs_ne_keyError _) nofun)
    rw [← Except.error.inj isReply] at sameNumber
    cases sameNumber

/-- An operation that ends with one unknown error each time is executed four times. -/
theorem spin_of_unknown {msg : String} (isUnknown : throughHashFs issue = .unknownError msg)
    (always : ∀ k, op k store = (.error issue, store)) {k otherErrorCount total : Nat} {before : Store}
    {result : Except FsError A} {after : Store} (unchanged : before = store) (few : otherErrorCount ≤ 3)
    (run : SpinLoop (onHashFs op) k otherErrorCount before total result after) :
    total = k + (4 - otherErrorCount) ∧ result = .error (.unknownError msg) ∧ after = store := by
  have seen : ∀ k, onHashFs op k store = (.error (.unknownError msg), store) := fun k =>
    isUnknown ▸ onHashFs_error (always k)
  induction run with
  | value k _ _ _ _ ran =>
      rw [unchanged, seen k] at ran
      cases ran
  | keyError k _ _ _ _ _ _ _ ran =>
      rw [unchanged, seen k] at ran
      cases ran
  | unknownError k _ _ _ _ _ _ _ ran fewer _ ih =>
      rw [unchanged, seen k] at ran
      obtain ⟨isTotal, ends⟩ := ih (Prod.mk.inj ran).2.symm (by omega)
      exact ⟨by omega, ends⟩
  | givenUp k _ _ _ _ ran many =>
      rw [unchanged, seen k] at ran
      obtain ⟨isIssue, isAfter⟩ := Prod.mk.inj ran
      exact ⟨by omega, isIssue.symm, isAfter.symm⟩
  | failed k _ _ _ _ ran _ known =>
      rw [unchanged, seen k] at ran
      exact absurd (Except.error.inj (Prod.mk.inj ran).1).symm (known msg)

/-- The error of a transaction is replied as it is, after one execution, exactly if it says that
a file or a key was not found. -/
theorem error_replied_iff (op : Executions A) (store : Store) (issue : FsError)
    (ends : (op 0 store).1 = .error issue) : RepliesAs op store issue ↔ issue.IsKept := by
  constructor
  · intro replies
    by_contra lost
    exact not_replies_of_lost lost ends replies
  · intro kept
    exact replies_of_kept kept ends

end Spin

def runTransaction {A : Type} (body : Mini A) : Executions A := fun _ store =>
  match atomically body store with
  | .ok (value, after) => (.ok value, after)
  | .error issue => (.error issue, store)

def directoryRemoveChildDirectory (parent : ParentStorageIno) (name : ByteString) : Executions StorageDirItem :=
  runTransaction (directoryRemoveChildEmptyDirectory parent name)

/-- `directory_rename_child`: names that are too long are refused before the transaction. -/
def checkedRenameChild (parent : ParentStorageIno) (name : ByteString) (newParent : ParentStorageIno)
    (newName : ByteString) : Executions Unit := fun k store =>
  match checkFileName name, checkFileName newName with
  | .error issue, _ => (.error issue, store)
  | .ok _, .error issue => (.error issue, store)
  | .ok _, .ok _ => runTransaction (directoryRenameChild parent name newParent newName) k store

section Replies

variable {store after : Store} {parent newParent : ParentStorageIno} {name newName : ByteString} {total : Nat}

theorem rmdir_nonempty {ino : StorageIno} {entry : ByteString}
    (isDirectory : dirEntry store parent name = some ⟨ino, .directory⟩)
    (nonempty : dirEntry store ino entry ≠ none) (k : Nat) :
    directoryRemoveChildDirectory parent name k store = (.error (.dirNotEmpty name), store) := by
  have shown := scan_nonempty (Txn.view ⟨store, []⟩) ino entry nonempty Nat.one_pos
  have thrown : atomically (directoryRemoveChildEmptyDirectory parent name) store =
      .error (.dirNotEmpty name) := by
    have found : dirEntry (Txn.view ⟨store, []⟩) parent name = some ⟨ino, .directory⟩ := isDirectory
    have scanned : directoryScanForChildren ino 1 ⟨store, []⟩ = .ok (_, ⟨store, []⟩) := rfl
    rw [atomically, directoryRemoveChildEmptyDirectory, bind_ok (getChild_run found)]
    simp only [ne_eq, not_true_eq_false, if_false]
    rw [bind_ok scanned, if_pos shown]
    rfl
  rw [directoryRemoveChildDirectory, runTransaction, thrown]

/-- `rmdir` of a directory that is not empty is executed four times, and what is replied does not
say why it failed. -/
theorem rmdir_nonempty_reply {ino : StorageIno} {entry : ByteString} {result : Except FsError StorageDirItem}
    (isDirectory : dirEntry store parent name = some ⟨ino, .directory⟩)
    (nonempty : dirEntry store ino entry ≠ none)
    (run : SpinLoop (onHashFs (directoryRemoveChildDirectory parent name)) 0 0 store total result after) :
    total = 4 ∧ after = store ∧ ∃ reply : FsError, result = .error reply ∧ reply.errno = .efault := by
  obtain ⟨isTotal, isResult, unchanged⟩ :=
    spin_of_unknown rfl (rmdir_nonempty isDirectory nonempty) rfl (Nat.zero_le 3) run
  exact ⟨isTotal, unchanged, _, isResult, rfl⟩

theorem rename_long (short : name.length ≤ maxNameLen) (long : maxNameLen < newName.length) (k : Nat) :
    checkedRenameChild parent name newParent newName k store = (.error (.nameTooLong newName), store) := by
  rw [checkedRenameChild, checkFileName, if_pos short, checkFileName, if_neg (Nat.not_le.mpr long)]

theorem rename_long_reply {result : Except FsError Unit} (short : name.length ≤ maxNameLen)
    (long : maxNameLen < newName.length)
    (run : SpinLoop (onHashFs (checkedRenameChild parent name newParent newName)) 0 0 store total result after) :
    total = 4 ∧ after = store ∧ ∃ reply : FsError, result = .error reply ∧ reply.errno = .efault := by
  obtain ⟨isTotal, isResult, unchanged⟩ :=
    spin_of_unknown rfl (fun k => rename_long short long k) rfl (Nat.zero_le 3) run
  exact ⟨isTotal, unchanged, _, isResult, rfl⟩

end Replies

def fullDirectory : Store := applyAll ∅
  [Mutation.put (.directoryChild rootInode [97]) ⟨10, .directory⟩,
   Mutation.put (.directoryChild 10 [98]) ⟨11, .file⟩]

theorem missing_file_replied :
    RepliesAs (directoryRemoveChildDirectory rootInode [99]) fullDirectory (.fileNotFound [99]) :=
  (error_replied_iff (directoryRemoveChildDirectory rootInode [99]) fullDirectory (.fileNotFound [99]) rfl).mpr
    (Or.inl ⟨[99], rfl⟩)

/-- Errors that are persistent are not all replied as they are: `rmdir` of a directory that is
not empty is executed four times and replies `EFAULT`. -/
theorem persistent_error_retried :
    ¬ ∀ (A : Type) (op : Executions A) (store : Store) (issue : FsError), (op 0 store).1 = .error issue →
      TransactionError.ofFsError issue = .persistentIssue issue → RepliesAs op store issue := by
  intro claim
  have isDirectory : dirEntry fullDirectory rootInode [97] = some ⟨10, .directory⟩ := by decide
  have nonempty : dirEntry fullDirectory 10 [98] ≠ none := by decide
  have failed := rmdir_nonempty isDirectory nonempty
  have replies := claim _ (directoryRemoveChildDirectory rootInode [97]) fullDirectory (.dirNotEmpty [97])
    (congrArg Prod.fst (failed 0)) rfl
  refine not_replies_of_lost ?_ (congrArg Prod.fst (failed 0)) replies
  rintro (⟨file, same⟩ | ⟨key, same⟩)
  · cases same
  · cases same

end TiFs
