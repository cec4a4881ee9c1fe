import TiFs.Attributes
import TiFs.Names

/-! `setattr` and `getattr`: what is reported of an inode after its attributes were set. The
size that is given is not looked at, the modification time is stored and never read, and
the reported times follow the last change of the attribute record. -/

namespace TiFs

open KeyValue

structure SetAttrArgs where
  mode : Option UInt32
  uid : Option Nat
  gid : Option Nat
  size : Option Nat
  atime : Option TimeOrNow
  mtime : Option TimeOrNow
  ctime : Option SystemTime
  fh : Option Nat
  crtime : Option SystemTime
  chgtime : Option SystemTime
  bkuptime : Option SystemTime
  flags : Option Nat

structure SetAttrClock where
  atime : SystemTime
  mtime : SystemTime
  ctime : SystemTime

/-- A record that is not given stays. -/
def putIfGiven (ino : StorageIno) (kind : InoMetadata) : Option kind.Value → Fuse Unit
  | some value => Fuse.storage (put (.inodeX ino kind) value)
  | none => pure ()

def inodeSetAllAttributes (clock : SetAttrClock) (ino : StorageIno) (attributes : SetAttributes) : Fuse Unit := do
  putIfGiven ino .accessTime (attributes.atime.map (getTimeFromTimeOrNow clock.atime))
  putIfGiven ino .modificationTime (attributes.mtime.map (getTimeFromTimeOrNow clock.mtime))
  let inoAttr ← Fuse.storage (fetch (.inodeX ino .unixAttributes))
  if 0 < (attributes.update clock.ctime inoAttr).1 then
    Fuse.storage (put (.inodeX ino .unixAttributes) (attributes.update clock.ctime inoAttr).2)

/-- What `Txn::set_attributes` passes on. -/
def SetAttrArgs.attributes (args : SetAttrArgs) : SetAttributes where
  mode := args.mode.map fun mode => UInt16.ofNat (asFilePerm mode)
  uid := args.uid
  gid := args.gid
  size := args.size
  atime := args.atime
  mtime := args.mtime
  ctime := args.ctime
  crtime := args.crtime
  chgtime := args.chgtime
  bkuptime := args.bkuptime
  flags := args.flags

def getAllFileAttributes (cfg : TiFsConfig) (lIno : LogicalIno) : Fuse FuserFileAttr :=
  getAllFileAttributesStorageIno cfg lIno.storageIno lIno.kind

def Fuse.getattr (cfg : TiFsConfig) (ino : Nat) : Fuse FuserFileAttr :=
  getAllFileAttributes cfg (LogicalIno.fromRaw ino)

def Fuse.setattr (cfg : TiFsConfig) (clock : SetAttrClock) (ino : Nat) (args : SetAttrArgs) :
    Fuse FuserFileAttr := do
  let lIno := LogicalIno.fromRaw ino
  if lIno.kind ≠ .regular then
    throw (.own (.inoKindNotSupported lIno.kind))
  inodeSetAllAttributes clock lIno.storageIno args.attributes
  getAllFileAttributes cfg lIno

def TimeReported (given : Option TimeOrNow) (before after : SystemTime) : Prop :=
  match given with
  | some (.specificTime time) => after = time
  | some .now => True
  | none => after = before

/-- The given mode without the set-uid and set-gid bits. -/
def clearedMode (mode : UInt32) : Nat := (mode &&& ~~~ (0o4000 ||| 0o2000)).toNat

structure Reported (args : SetAttrArgs) (before after : FuserFileAttr) : Prop where
  mode : after.perm = (args.mode.map clearedMode).getD before.perm
  uid : after.uid = args.uid.getD before.uid
  gid : after.gid = args.gid.getD before.gid
  size : after.size = args.size.getD before.size
  atime : TimeReported args.atime before.atime after.atime
  mtime : TimeReported args.mtime before.mtime after.mtime
  flags : after.flags = args.flags.getD before.flags

/-- When a call reports all that it was given: the mode has the sixteen bits of a
permission, the size is the one that is stored, and the change of the attribute record
moves neither the reported modification time away from the one that it should be nor the
reported access time of an inode without a record of it. -/
structure SetAttrArgs.Kept (args : SetAttrArgs) (clock : SetAttrClock) (inoAttr : InoStorageFileAttr)
    (inoSize : InoSize) (accessTime : Option SystemTime) : Prop where
  mode : ∀ mode ∈ args.mode, mode.toNat < 2 ^ 16
  size : ∀ size ∈ args.size, size = inoSize.size
  atime : args.atime = none → accessTime ≠ none ∨
    max inoSize.lastChange (args.ctime.getD clock.ctime) = max inoSize.lastChange inoAttr.lastChange
  mtime : TimeReported args.mtime (max inoSize.lastChange inoAttr.lastChange)
    (max inoSize.lastChange (args.ctime.getD clock.ctime))

section Run

variable {ino : StorageIno} {clock : SetAttrClock} {attributes : SetAttributes} {store : Store}

theorem clearedMode_lt_iff (mode : UInt32) : clearedMode mode < 2 ^ 16 ↔ mode.toNat < 2 ^ 16 := by
  have isAnd : clearedMode mode = mode.toNat &&& 4294964223 := by
    rw [clearedMode, UInt32.toNat_and]
    rfl
  have small : mode.toNat >>> 16 < 2 ^ 16 := by
    rw [Nat.shiftRight_eq_div_pow]
    have bound := mode.toNat_lt
    omega
  have upper : clearedMode mode >>> 16 = mode.toNat >>> 16 := by
    rw [isAnd, Nat.shiftRight_and_distrib]
    exact Nat.and_two_pow_sub_one_of_lt_two_pow small
  rw [Nat.shiftRight_eq_div_pow, Nat.shiftRight_eq_div_pow] at upper
  omega

theorem asFilePerm_eq_iff (mode : UInt32) :
    (UInt16.ofNat (asFilePerm mode)).toNat = clearedMode mode ↔ mode.toNat < 2 ^ 16 := by
  have isMod : (UInt16.ofNat (asFilePerm mode)).toNat = clearedMode mode % 2 ^ 16 := by
    rw [asFilePerm, clearedMode, UInt16.ofNat_toNat, UInt32.toNat_toUInt16]
  rw [isMod, ← clearedMode_lt_iff]
  constructor
  · intro same
    rw [← same]
    exact Nat.mod_lt _ (by decide)
  · exact Nat.mod_eq_of_lt

theorem putIfGiven_run (ino : StorageIno) (kind : InoMetadata) (value : Option kind.Value) (store : Store) :
    ∃ after, putIfGiven ino kind value store = .ok (.ok (), after) ∧
      after.lookup (.inodeX ino kind) = value.or (store.lookup (.inodeX ino kind)) ∧
      ∀ key, key ≠ .inodeX ino kind → after.lookup key = store.lookup key := by
  cases value with
  | none => exact ⟨store, rfl, Option.none_or.symm, fun _ _ => rfl⟩
  | some value =>
      refine ⟨applyAll store [Mutation.put (.inodeX ino kind) value], rfl, ?_, ?_⟩
      · rw [Option.some_or]
        exact lookup_put_self store _ _
      · exact fun key different => lookup_put_of_ne store _ _ _ different

/-- A record that was changed is written back, which makes no difference to one that was not. -/
theorem putChanged_run (clock : SetAttrClock) (attributes : SetAttributes) {inoAttr : InoStorageFileAttr}
    (stored : attrRecord store ino = some inoAttr) :
    ∃ after, (if 0 < (attributes.update clock.ctime inoAttr).1 then
        Fuse.storage (put (.inodeX ino .unixAttributes) (attributes.update clock.ctime inoAttr).2)
        else pure () : Fuse Unit) store = .ok (.ok (), after) ∧
      attrRecord after ino = some (attributes.update clock.ctime inoAttr).2 ∧
      ∀ key, key ≠ .inodeX ino .unixAttributes → after.lookup key = store.lookup key := by
  by_cases changed : 0 < (attributes.update clock.ctime inoAttr).1
  · rw [if_pos changed]
    exact ⟨_, rfl, lookup_put_self store _ _, fun key different => lookup_put_of_ne store _ _ _ different⟩
  · rw [if_neg changed, update_unchanged (Nat.eq_zero_of_not_pos changed)]
    exact ⟨store, rfl, stored, fun _ _ => rfl⟩

/-- What a call leaves of the records of its inode. -/
theorem setAllAttributes_run (clock : SetAttrClock) (attributes : SetAttributes) {inoAttr : InoStorageFileAttr}
    (stored : attrRecord store ino = some inoAttr) :
    ∃ after, inodeSetAllAttributes clock ino attributes store = .ok (.ok (), after) ∧
      attrRecord after ino = some (attributes.update clock.ctime inoAttr).2 ∧
      after.lookup (.inodeX ino .accessTime) =
        (attributes.atime.map (getTimeFromTimeOrNow clock.atime)).or (store.lookup (.inodeX ino .accessTime)) ∧
      ∀ kind, kind ≠ .unixAttributes → kind ≠ .accessTime → kind ≠ .modificationTime →
        after.lookup (.inodeX ino kind) = store.lookup (.inodeX ino kind) := by
  obtain ⟨first, ranFirst, isAtime, framed⟩ := putIfGiven_run ino .accessTime
    (attributes.atime.map (getTimeFromTimeOrNow clock.atime)) store
  obtain ⟨second, ranSecond, _, alsoFramed⟩ := putIfGiven_run ino .modificationTime
    (attributes.mtime.map (getTimeFromTimeOrNow clock.mtime)) first
  have still : attrRecord second ino = some inoAttr := by
    rw [attrRecord, alsoFramed _ (by simp), framed _ (by simp)]
    exact stored
  obtain ⟨after, ranLast, isAttr, lastFramed⟩ := putChanged_run clock attributes still
  refine ⟨after, ?_, isAttr, ?_, ?_⟩
  · rw [inodeSetAllAttributes, Fuse.bind_ok ranFirst, Fuse.bind_ok ranSecond, Fuse.bind_ok (Fuse.fetch_ok still)]
    exact ranLast
  · rw [lastFramed _ (by simp), alsoFramed _ (by simp), isAtime]
  · intro kind notAttr notAtime notMtime
    rw [lastFramed _ (by simpa using notAttr), alsoFramed _ (by simpa using notMtime),
      framed _ (by simpa using notAtime)]

theorem setAllAttributes_missing (clock : SetAttrClock) (attributes : SetAttributes)
    (missing : attrRecord store ino = none) :
    ∃ issue after, inodeSetAllAttributes clock ino attributes store = .ok (.error issue, after) := by
  obtain ⟨first, ranFirst, _, framed⟩ := putIfGiven_run ino .accessTime
    (attributes.atime.map (getTimeFromTimeOrNow clock.atime)) store
  obtain ⟨second, ranSecond, _, alsoFramed⟩ := putIfGiven_run ino .modificationTime
    (attributes.mtime.map (getTimeFromTimeOrNow clock.mtime)) first
  have still : second.lookup (.inodeX ino .unixAttributes) = none := by
    rw [alsoFramed _ (by simp), framed _ (by simp)]
    exact missing
  obtain ⟨issue, failed⟩ := Fuse.fetch_error still
  refine ⟨issue, second, ?_⟩
  rw [inodeSetAllAttributes, Fuse.bind_ok ranFirst, Fuse.bind_ok ranSecond]
  exact Fuse.bind_error failed

theorem putIfGiven_inv {kind : InoMetadata} {Given : Type} {value : Given → kind.Value} {given : Option Given}
    {after : Store} (ran : putIfGiven ino kind (given.map value) store = .ok (.ok (), after)) :
    (given = none ∧ after = store) ∨
      ∃ time, given = some time ∧ after = applyAll store [Mutation.put (.inodeX ino kind) (value time)] := by
  cases given with
  | none => exact Or.inl ⟨rfl, (Prod.mk.inj (Except.ok.inj ran)).2.symm⟩
  | some time => exact Or.inr ⟨time, rfl, (Prod.mk.inj (Except.ok.inj ran)).2.symm⟩

theorem setAllAttributes_alone {after : Store}
    (ran : inodeSetAllAttributes clock ino attributes store = .ok (.ok (), after)) :
    Run SetAttrSystem.Step (fun _ _ => True) (SetAttrSystem.begin store ino [attributes])
      ⟨after, [⟨ino, attributes, .returned (.ok ())⟩]⟩ := by
  have advance : ∀ (now : SystemTime) (phase next : SetAttrPhase) (store later : Store),
      SetAttrCall.step now ⟨ino, attributes, phase⟩ store = (next, later) →
      SetAttrSystem.Step ⟨store, [⟨ino, attributes, phase⟩]⟩ (.advance 0 now)
        ⟨later, [⟨ino, attributes, next⟩]⟩ := by
    intro now phase next store later stepped
    simp only [SetAttrSystem.Step, SetAttrSystem.step, List.getElem?_cons_zero, Option.map_some, stepped,
      List.set_cons_zero]
  obtain ⟨first, ranFirst, _⟩ := putIfGiven_run ino .accessTime
    (attributes.atime.map (getTimeFromTimeOrNow clock.atime)) store
  obtain ⟨second, ranSecond, _⟩ := putIfGiven_run ino .modificationTime
    (attributes.mtime.map (getTimeFromTimeOrNow clock.mtime)) first
  have atime : SetAttrCall.step clock.atime ⟨ino, attributes, .putAtime⟩ store = (.putMtime, first) := by
    rcases putIfGiven_inv ranFirst with ⟨given, isAfter⟩ | ⟨time, given, isAfter⟩
    · simp only [SetAttrCall.step, given, isAfter]
    · simp only [SetAttrCall.step, given, isAfter]
  have mtime : SetAttrCall.step clock.mtime ⟨ino, attributes, .putMtime⟩ first = (.fetchAttr, second) := by
    rcases putIfGiven_inv ranSecond with ⟨given, isAfter⟩ | ⟨time, given, isAfter⟩
    · simp only [SetAttrCall.step, given, isAfter]
    · simp only [SetAttrCall.step, given, isAfter]
  have read : Run SetAttrSystem.Step (fun _ _ => True) (SetAttrSystem.begin store ino [attributes])
      ⟨second, [⟨ino, attributes, .fetchAttr⟩]⟩ :=
    (Run.single (.advance 0 clock.atime) (advance _ _ _ _ _ atime) trivial).snoc (.advance 0 clock.mtime)
      (advance _ _ _ _ _ mtime) trivial
  rw [inodeSetAllAttributes, Fuse.bind_ok ranFirst, Fuse.bind_ok ranSecond] at ran
  cases stored : second.lookup (.inodeX ino .unixAttributes) with
  | none =>
      obtain ⟨issue, failed⟩ := Fuse.fetch_error stored
      rw [Fuse.bind_error failed] at ran
      cases ran
  | some inoAttr =>
      rw [Fuse.bind_ok (Fuse.fetch_ok stored)] at ran
      by_cases changed : 0 < (attributes.update clock.ctime inoAttr).1
      · rw [if_pos changed] at ran
        rw [← (Prod.mk.inj (Except.ok.inj ran)).2]
        have fetched : SetAttrCall.step clock.ctime ⟨ino, attributes, .fetchAttr⟩ second =
            (.putAttr (attributes.update clock.ctime inoAttr).2, second) := by
          simp only [SetAttrCall.step, stored, if_pos changed]
        exact (read.snoc (.advance 0 clock.ctime) (advance _ _ _ _ _ fetched) trivial).snoc (.advance 0 0)
          (advance _ _ _ _ _ rfl) trivial
      · rw [if_neg changed] at ran
        rw [← (Prod.mk.inj (Except.ok.inj ran)).2]
        have fetched : SetAttrCall.step clock.ctime ⟨ino, attributes, .fetchAttr⟩ second =
            (.returned (.ok ()), second) := by
          simp only [SetAttrCall.step, stored, if_neg changed]
        exact read.snoc (.advance 0 clock.ctime) (advance _ _ _ _ _ fetched) trivial

end Run

section Report

variable {cfg : TiFsConfig} {args : SetAttrArgs} {clock : SetAttrClock} {desc : InoDescription}
  {inoAttr : InoStorageFileAttr} {size : InoSize} {accessTime : Option SystemTime}

def recordsBefore (desc : InoDescription) (inoAttr : InoStorageFileAttr) (size : InoSize)
    (accessTime : Option SystemTime) : InoData :=
  (desc, inoAttr, size, accessTime.getD (max size.lastChange inoAttr.lastChange))

def recordsAfter (args : SetAttrArgs) (clock : SetAttrClock) (desc : InoDescription)
    (inoAttr : InoStorageFileAttr) (size : InoSize) (accessTime : Option SystemTime) : InoData :=
  recordsBefore desc (args.attributes.update clock.ctime inoAttr).2 size
    ((args.atime.map (getTimeFromTimeOrNow clock.atime)).or accessTime)

theorem reported_iff :
    Reported args ((recordsBefore desc inoAttr size accessTime).stat cfg .regular)
        ((recordsAfter args clock desc inoAttr size accessTime).stat cfg .regular) ↔
      args.Kept clock inoAttr size accessTime := by
  have mode : (args.attributes.update clock.ctime inoAttr).2.perm =
      (args.mode.map clearedMode).getD inoAttr.perm ↔ ∀ mode ∈ args.mode, mode.toNat < 2 ^ 16 := by
    rw [update_snd]
    simp only [SetAttrArgs.attributes, Option.map_map]
    cases args.mode with
    | none => simp
    | some mode =>
        have exact_iff := asFilePerm_eq_iff mode
        simpa using exact_iff
  have sizes : size.size = args.size.getD size.size ↔ ∀ given ∈ args.size, given = size.size := by
    cases args.size with
    | none => simp
    | some given => simp [eq_comm]
  have changed : (args.attributes.update clock.ctime inoAttr).2.lastChange = args.ctime.getD clock.ctime := by
    rw [update_snd]
    rfl
  have atime : TimeReported args.atime (accessTime.getD (max size.lastChange inoAttr.lastChange))
      (((args.atime.map (getTimeFromTimeOrNow clock.atime)).or accessTime).getD
        (max size.lastChange (args.ctime.getD clock.ctime))) ↔
      (args.atime = none → accessTime ≠ none ∨
        max size.lastChange (args.ctime.getD clock.ctime) = max size.lastChange inoAttr.lastChange) := by
    cases args.atime with
    | some time => cases time <;> simp [TimeReported, getTimeFromTimeOrNow]
    | none => cases accessTime <;> simp [TimeReported]
  constructor
  · intro reported
    refine ⟨mode.mp reported.mode, sizes.mp reported.size, ?_, ?_⟩
    · have isAtime := reported.atime
      simp only [recordsAfter, recordsBefore, InoData.stat, mapStorageAttrToFuser, Option.getD_some,
        changed] at isAtime
      exact atime.mp isAtime
    · have isMtime := reported.mtime
      simp only [recordsAfter, recordsBefore, InoData.stat, mapStorageAttrToFuser, changed] at isMtime
      exact isMtime
  · intro kept
    constructor
    · exact mode.mpr kept.mode
    · simp [recordsAfter, recordsBefore, InoData.stat, mapStorageAttrToFuser, update_snd, SetAttrArgs.attributes]
    · simp [recordsAfter, recordsBefore, InoData.stat, mapStorageAttrToFuser, update_snd, SetAttrArgs.attributes]
    · exact sizes.mpr kept.size
    · simp only [recordsAfter, recordsBefore, InoData.stat, mapStorageAttrToFuser, Option.getD_some, changed]
      exact atime.mpr kept.atime
    · simp only [recordsAfter, recordsBefore, InoData.stat, mapStorageAttrToFuser, changed]
      exact kept.mtime
    · simp [recordsAfter, recordsBefore, InoData.stat, mapStorageAttrToFuser, update_snd, SetAttrArgs.attributes]

end Report

/-- The special directories have no record of their own. -/
def SpecialsBare (store : Store) : Prop :=
  attrRecord store openedInodeParentInode = none ∧ attrRecord store snapshotParentInode = none

section Getattr

variable {cfg : TiFsConfig} {store : Store} {lIno : LogicalIno} {data : InoData}

theorem special_ne (bare : SpecialsBare store) {inoAttr : InoStorageFileAttr} {ino : StorageIno}
    (stored : attrRecord store ino = some inoAttr) : ino ≠ openedInodeParentInode ∧ ino ≠ snapshotParentInode := by
  constructor
  · intro same
    rw [same, bare.1] at stored
    cases stored
  · intro same
    rw [same, bare.2] at stored
    cases stored

theorem getAllFileAttributes_eq (cfg : TiFsConfig)
    (notSpecial : lIno.storageIno ≠ openedInodeParentInode ∧ lIno.storageIno ≠ snapshotParentInode) :
    getAllFileAttributes cfg lIno =
      inodeGetAllAttributes lIno.storageIno >>= fun data => pure (data.stat cfg lIno.kind) := by
  rw [getAllFileAttributes, getAllFileAttributesStorageIno, if_neg notSpecial.1, if_neg notSpecial.2]

theorem getAllFileAttributes_run (cfg : TiFsConfig)
    (notSpecial : lIno.storageIno ≠ openedInodeParentInode ∧ lIno.storageIno ≠ snapshotParentInode)
    (found : inoData store lIno.storageIno = some data) :
    getAllFileAttributes cfg lIno store = .ok (.ok (data.stat cfg lIno.kind), store) := by
  rw [getAllFileAttributes_eq cfg notSpecial]
  exact Fuse.bind_ok (attributes_run found)

theorem getAllFileAttributes_ok
    (notSpecial : lIno.storageIno ≠ openedInodeParentInode ∧ lIno.storageIno ≠ snapshotParentInode)
    {reply : FuserFileAttr} {after : Store}
    (ran : getAllFileAttributes cfg lIno store = .ok (.ok reply, after)) :
    after = store ∧ ∃ data, inoData store lIno.storageIno = some data ∧ reply = data.stat cfg lIno.kind := by
  cases found : inoData store lIno.storageIno with
  | none =>
      obtain ⟨issue, failed⟩ := attributes_missing found
      rw [getAllFileAttributes_eq cfg notSpecial, Fuse.bind_error failed] at ran
      cases ran
  | some data =>
      rw [getAllFileAttributes_run cfg notSpecial found] at ran
      obtain ⟨isReply, rfl⟩ := Prod.mk.inj (Except.ok.inj ran)
      exact ⟨rfl, data, rfl, (Except.ok.inj isReply).symm⟩

end Getattr

theorem inoData_set {args : SetAttrArgs} {clock : SetAttrClock} {ino : StorageIno} {store after : Store}
    {inoAttr : InoStorageFileAttr} (stored : attrRecord store ino = some inoAttr)
    (isAttr : attrRecord after ino = some (args.attributes.update clock.ctime inoAttr).2)
    (isAtime : after.lookup (.inodeX ino .accessTime) =
      (args.atime.map (getTimeFromTimeOrNow clock.atime)).or (store.lookup (.inodeX ino .accessTime)))
    (framed : ∀ kind, kind ≠ .unixAttributes → kind ≠ .accessTime → kind ≠ .modificationTime →
      after.lookup (.inodeX ino kind) = store.lookup (.inodeX ino kind))
    {data : InoData} (found : inoData after ino = some data) :
    ∃ desc size, inoSize store ino = some size ∧
      inoData store ino = some (recordsBefore desc inoAttr size (store.lookup (.inodeX ino .accessTime))) ∧
      data = recordsAfter args clock desc inoAttr size (store.lookup (.inodeX ino .accessTime)) := by
  obtain ⟨desc, isDesc, found⟩ := Option.bind_eq_some_iff.mp found
  obtain ⟨attr, isOther, found⟩ := Option.bind_eq_some_iff.mp found
  obtain ⟨size, isSize, rfl⟩ := Option.map_eq_some_iff.mp found
  rw [framed .description (by decide) (by decide) (by decide)] at isDesc
  rw [framed .size (by decide) (by decide) (by decide)] at isSize
  obtain rfl := Option.some.inj (isAttr.symm.trans isOther)
  refine ⟨desc, size, isSize, ?_, ?_⟩
  · rw [inoData, isDesc, Option.bind_some, show store.lookup (.inodeX ino .unixAttributes) = _ from stored,
      Option.bind_some, isSize, Option.map_some]
    rfl
  · rw [isAtime]
    rfl

/-- A call that succeeds reports its fields as given and the others as before exactly if
the mode, the size and the times that it is given are kept. -/
theorem setattr_reported_iff (cfg : TiFsConfig) (clock : SetAttrClock) (ino : Nat) (args : SetAttrArgs)
    (store after : Store) (reply : FuserFileAttr) (bare : SpecialsBare store)
    (ran : Fuse.setattr cfg clock ino args store = .ok (.ok reply, after)) :
    ∃ before inoAttr size, Fuse.getattr cfg ino store = .ok (.ok before, store) ∧
      Fuse.getattr cfg ino after = .ok (.ok reply, after) ∧
      attrRecord store (LogicalIno.fromRaw ino).storageIno = some inoAttr ∧
      inoSize store (LogicalIno.fromRaw ino).storageIno = some size ∧
      (Reported args before reply ↔ args.Kept clock inoAttr size
        (store.lookup (.inodeX (LogicalIno.fromRaw ino).storageIno .accessTime))) := by
  unfold Fuse.setattr at ran
  split at ran
  · cases ran
  · next isRegular =>
      have regular : (LogicalIno.fromRaw ino).kind = .regular := not_not.mp isRegular
      have calls : (inodeSetAllAttributes clock (LogicalIno.fromRaw ino).storageIno args.attributes >>=
          fun _ => getAllFileAttributes cfg (LogicalIno.fromRaw ino)) store = .ok (.ok reply, after) := ran
      cases stored : attrRecord store (LogicalIno.fromRaw ino).storageIno with
      | none =>
          obtain ⟨issue, last, failed⟩ := setAllAttributes_missing clock args.attributes stored
          rw [Fuse.bind_error failed] at calls
          cases calls
      | some inoAttr =>
          have notSpecial := special_ne bare stored
          obtain ⟨last, set, isAttr, isAtime, framed⟩ := setAllAttributes_run clock args.attributes stored
          rw [Fuse.bind_ok set] at calls
          obtain ⟨rfl, data, found, rfl⟩ := getAllFileAttributes_ok notSpecial calls
          obtain ⟨desc, size, isSize, old, rfl⟩ := inoData_set stored isAttr isAtime framed found
          refine ⟨_, inoAttr, size, getAllFileAttributes_run cfg notSpecial old,
            getAllFileAttributes_run cfg notSpecial found, rfl, isSize, ?_⟩
          rw [regular]
          exact reported_iff

def attributedFile : Store := applyAll ∅
  [Mutation.put (.inodeX 10 .description) ⟨10, .file, 0⟩,
   Mutation.put (.inodeX 10 .unixAttributes) ⟨0o644, 0, 0, 0, 0, 7⟩,
   Mutation.put (.inodeX 10 .size) ⟨5, 1, 7⟩]

def noArgs : SetAttrArgs := ⟨none, none, none, none, none, none, none, none, none, none, none, none⟩

/-- The owner and the access time are set, at the time of the last change. -/
theorem setattr_reported_chown : ∃ before after reply, SpecialsBare attributedFile ∧
    Fuse.getattr (paddingConfig 2 Nat.two_pos) 73 attributedFile = .ok (.ok before, attributedFile) ∧
    Fuse.setattr (paddingConfig 2 Nat.two_pos) ⟨7, 7, 7⟩ 73
      { noArgs with uid := some 5, atime := some (.specificTime 3) } attributedFile = .ok (.ok reply, after) ∧
    Reported { noArgs with uid := some 5, atime := some (.specificTime 3) } before reply := by
  have bare : SpecialsBare attributedFile := ⟨by decide, by decide⟩
  have ran : ∃ reply after, Fuse.setattr (paddingConfig 2 Nat.two_pos) ⟨7, 7, 7⟩ 73
      { noArgs with uid := some 5, atime := some (.specificTime 3) } attributedFile =
        .ok (.ok reply, after) := ⟨_, _, rfl⟩
  obtain ⟨reply, after, ran⟩ := ran
  obtain ⟨before, inoAttr, size, old, _, isAttr, isSize, reported⟩ :=
    setattr_reported_iff _ _ 73 _ _ _ _ bare ran
  obtain rfl : (⟨0o644, 0, 0, 0, 0, 7⟩ : InoStorageFileAttr) = inoAttr := Option.some.inj isAttr
  obtain rfl : (⟨5, 1, 7⟩ : InoSize) = size := Option.some.inj isSize
  refine ⟨before, after, reply, bare, old, ran, reported.mpr ⟨?_, ?_, ?_, rfl⟩⟩
  · exact fun mode given => by cases given
  · exact fun given isGiven => by cases isGiven
  · exact fun missing => by cases missing

/-- The modification time is set to 3 at time 9, and 9 is reported. -/
theorem mtime_not_reported :
    ¬ ∀ (cfg : TiFsConfig) (clock : SetAttrClock) (ino : Nat) (args : SetAttrArgs) (store after : Store)
      (before reply : FuserFileAttr), SpecialsBare store →
      Fuse.getattr cfg ino store = .ok (.ok before, store) →
      Fuse.setattr cfg clock ino args store = .ok (.ok reply, after) →
      Fuse.getattr cfg ino after = .ok (.ok reply, after) ∧ Reported args before reply := by
  intro claim
  have touched : ∃ before reply after,
      Fuse.getattr (paddingConfig 2 Nat.two_pos) 73 attributedFile = .ok (.ok before, attributedFile) ∧
      Fuse.setattr (paddingConfig 2 Nat.two_pos) ⟨9, 9, 9⟩ 73
        { noArgs with mtime := some (.specificTime 3) } attributedFile = .ok (.ok reply, after) ∧
      reply.mtime = 9 := ⟨_, _, _, rfl, rfl, rfl⟩
  obtain ⟨before, reply, after, old, ran, isNow⟩ := touched
  have reported := (claim _ _ 73 _ _ after before reply ⟨by decide, by decide⟩ old ran).2.mtime
  rw [isNow] at reported
  cases reported

end TiFs
