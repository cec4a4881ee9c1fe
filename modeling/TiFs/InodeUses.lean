import TiFs.DirectoryListing
import TiFs.GrpcTransparency
import TiFs.HandleTable
import TiFs.Links

/-! The uses of inodes that a mounted client publishes: `open` publishes one if the client has
none, file handles share it, and the last reference to it that is dropped unpublishes it. -/

namespace TiFs

open KeyValue Tables

theorem uuidToString_injective : Function.Injective uuidToString := by
  intro id other same
  have read := Grpc.parseHyphenated_uuidToString id
  rw [same, Grpc.parseHyphenated_uuidToString other] at read
  exact (Option.some.inj read).symm

structure InoUse where
  ino : StorageIno
  useId : Uuid
  deriving DecidableEq, Repr

def InoUse.name (use : InoUse) : ByteString := uuidToString use.useId

/-- A use is dropped with its last reference, and a task of its own then closes it. The error
of that task is only logged. -/
inductive UsePhase where
  | held
  | closing
  | closed
  | failed
  deriving DecidableEq, Repr

structure UseRecord where
  use : InoUse
  phase : UsePhase
  deriving DecidableEq, Repr

inductive OpenPhase where
  | publishing
  | registering (use : Nat)
  | opened (use : Nat)
  | returned (fh : UInt64)
  | failed (issue : FsError)

def OpenPhase.reference : OpenPhase → Option Nat
  | .registering use => some use
  | .opened use => some use
  | _ => none

structure OpenCall where
  ino : UInt64
  phase : OpenPhase

def OpenCall.storageIno (call : OpenCall) : StorageIno := (LogicalIno.fromRaw call.ino.toNat).storageIno

/-- The `opened_ino` and the file handles of `TiFsMutable` with all uses that there ever were. A
use is known by its place in the list, and a handler by its use. `borrowed` are the handlers
that running calls have cloned or taken out of the table. -/
structure InodeUses where
  store : Store
  openedIno : Table UInt64 Nat
  handles : TiFsMutable Nat
  opens : List OpenCall
  borrowed : List (Option Nat)
  uses : List UseRecord

/-- `begun` is the store as the transaction has read it. -/
inductive UseEvent where
  | open (ino : UInt64)
  | publish (call : Nat) (useId : Uuid) (begun : Store)
  | register (call : Nat)
  | insertHandler (call : Nat) (first : Option UInt64)
  | borrow (fh : UInt64)
  | giveBack (borrow : Nat)
  | release (fh : UInt64) (flushed : Bool)
  | close (use : Nat)
  | closeFails (use : Nat)
  | cleanWeak (ino : UInt64)
  | others (after : Store)

def OwnDescriptions (store : Store) : Prop :=
  ∀ ino desc, inoDescription store ino = some desc → desc.ino = ino

def Key.ownDescription (store : Store) : Key → Bool
  | .inodeX ino .description => (inoDescription store ino).all fun desc => desc.ino = ino
  | _ => true

theorem ownDescriptions_iff {store : Store} :
    OwnDescriptions store ↔ ∀ key ∈ store.keys, key.ownDescription store = true := by
  constructor
  · intro own key _
    cases key with
    | inodeX ino kind =>
        cases kind with
        | description =>
            rw [Key.ownDescription, Option.all_eq_true]
            exact fun desc stored => decide_eq_true (own ino desc stored)
        | _ => rfl
    | _ => rfl
  · intro all ino desc stored
    have listed : Key.inodeX ino .description ∈ store.keys := by
      rw [Finmap.mem_keys, ← Finmap.lookup_isSome]
      exact Option.isSome_of_eq_some stored
    have own := all _ listed
    rw [Key.ownDescription, Option.all_eq_true] at own
    exact of_decide_eq_true (own desc stored)

instance (store : Store) : Decidable (OwnDescriptions store) := decidable_of_iff _ ownDescriptions_iff.symm

namespace InodeUses

def mounted (store : Store) : InodeUses := ⟨store, ∅, TiFsMutable.new, [], [], []⟩

def upgrades (state : InodeUses) (use : Nat) : Bool :=
  (state.opens.any fun call => call.phase.reference = some use) ||
    (state.handles.fileHandlers.keys.any fun fh => state.handles.fileHandlers.lookup fh = some use) ||
    state.borrowed.any fun reference => reference = some use

theorem upgrades_iff {state : InodeUses} {use : Nat} :
    state.upgrades use = true ↔ (∃ call ∈ state.opens, call.phase.reference = some use) ∨
      (∃ fh, state.handles.fileHandlers.lookup fh = some use) ∨ some use ∈ state.borrowed := by
  have inTable : (∃ fh, state.handles.fileHandlers.lookup fh = some use) ↔
      ∃ fh ∈ state.handles.fileHandlers.keys, state.handles.fileHandlers.lookup fh = some use := by
    refine exists_congr fun fh => ?_
    refine ⟨fun found => ⟨?_, found⟩, And.right⟩
    exact AList.lookup_isSome.mp (Option.isSome_of_eq_some found)
  rw [inTable]
  simp only [upgrades, Bool.or_eq_true, List.any_eq_true, decide_eq_true_eq, or_assoc,
    exists_eq_right]

def getInoUse (state : InodeUses) (ino : UInt64) : Option Nat :=
  (state.openedIno.lookup ino).filter state.upgrades

def setUse (state : InodeUses) (use : Nat) (phase : UsePhase) : InodeUses :=
  { state with uses := state.uses.modify use fun record => { record with phase := phase } }

def dropped (state : InodeUses) (use : Nat) : InodeUses :=
  if state.upgrades use then state else state.setUse use .closing

def step (state : InodeUses) : UseEvent → Option InodeUses
  | .open ino =>
      match state.getInoUse ino with
      | some use => some { state with opens := state.opens ++ [⟨ino, .opened use⟩] }
      | none => some { state with opens := state.opens ++ [⟨ino, .publishing⟩] }
  | .publish i useId begun =>
      match state.opens[i]? with
      | some ⟨ino, .publishing⟩ =>
          let storageIno := (LogicalIno.fromRaw ino.toNat).storageIno
          match inodeOpen storageIno useId ⟨begun, []⟩ with
          | .ok ((), txn) =>
              some { state with
                store := applyAll state.store txn.buffer
                opens := state.opens.set i ⟨ino, .registering state.uses.length⟩
                uses := state.uses ++ [⟨⟨storageIno, useId⟩, .held⟩] }
          | .error issue => some { state with opens := state.opens.set i ⟨ino, .failed issue⟩ }
      | _ => none
  | .register i =>
      match state.opens[i]? with
      | some ⟨ino, .registering use⟩ =>
          some { state with
            openedIno := state.openedIno.insert ino use
            opens := state.opens.set i ⟨ino, .opened use⟩ }
      | _ => none
  | .insertHandler i first =>
      match state.opens[i]? with
      | some ⟨ino, .opened use⟩ => do
          let (fh, handles) ← state.handles.openHandler first use
          some { state with handles := handles, opens := state.opens.set i ⟨ino, .returned fh⟩ }
      | _ => none
  | .borrow fh => do
      let use ← state.handles.fileHandlers.lookup fh
      some { state with borrowed := state.borrowed ++ [some use] }
  | .giveBack i =>
      match state.borrowed[i]? with
      | some (some use) => some (dropped { state with borrowed := state.borrowed.set i none } use)
      | _ => none
  -- An error of the flush is returned before the handler is taken out of the table.
  | .release _ false => some state
  | .release fh true => do
      let (handler, handles) ← state.handles.releaseFileHandler fh
      some { state with handles := handles, borrowed := state.borrowed ++ [handler] }
  | .close use => do
      let record ← state.uses[use]?
      if record.phase = .closing then
        match atomically (inodeClose record.use.ino record.use.useId) state.store with
        | .ok ((), after) => some { state.setUse use .closed with store := after }
        | .error _ => some (state.setUse use .failed)
      else none
  | .closeFails use => do
      let record ← state.uses[use]?
      if record.phase = .closing then some (state.setUse use .failed) else none
  -- `retain` of the heartbeat, one entry at a time.
  | .cleanWeak ino =>
      match state.getInoUse ino with
      | some _ => some state
      | none => some { state with openedIno := state.openedIno.erase ino }
  | .others after => some { state with store := after }

def Step (before : InodeUses) (event : UseEvent) (after : InodeUses) : Prop := before.step event = some after

structure Published (store : Store) (use : InoUse) : Prop where
  entry : ∃ typ, dirEntry store openedInodeParentInode use.name = some ⟨use.ino, typ⟩
  link : hasParentLink store use.ino openedInodeParentInode use.name

/-- A new id was never drawn before, the descriptions are in order, and the transactions of
others leave the entries of these uses alone. -/
def Separate (state : InodeUses) : UseEvent → Prop
  | .publish _ useId begun => (∀ record ∈ state.uses, record.use.useId ≠ useId) ∧ OwnDescriptions begun
  | .insertHandler _ first => TiFsMutable.IsFirst state.handles.freedFhs first
  | .others after => ∀ record ∈ state.uses,
      dirEntry after openedInodeParentInode record.use.name =
        dirEntry state.store openedInodeParentInode record.use.name ∧
      (hasParentLink after record.use.ino openedInodeParentInode record.use.name ↔
        hasParentLink state.store record.use.ino openedInodeParentInode record.use.name)
  | _ => True

def IsUseOf (state : InodeUses) (use : Nat) (ino : UInt64) : Prop :=
  ∃ record, state.uses[use]? = some record ∧
    record.use.ino = (LogicalIno.fromRaw ino.toNat).storageIno

/-- The references are to the uses that are held, and of the uses all but the closed ones are
published. -/
structure Kept (state : InodeUses) : Prop where
  consistent : TiFsMutable.Consistent state.handles
  held : ∀ use, state.upgrades use = true ↔
    ∃ record, state.uses[use]? = some record ∧ record.phase = .held
  known : ∀ ino use, state.openedIno.lookup ino = some use → state.IsUseOf use ino
  calls : ∀ call ∈ state.opens, ∀ use, call.phase.reference = some use → state.IsUseOf use call.ino
  names : (state.uses.map fun record => record.use.useId).Nodup
  published : ∀ record ∈ state.uses, record.phase ≠ .closed → Published state.store record.use
  gone : ∀ record ∈ state.uses, record.phase = .closed →
    dirEntry state.store openedInodeParentInode record.use.name = none

theorem kept_mounted (store : Store) : Kept (mounted store) where
  consistent := TiFsMutable.consistent_new
  held := by
    intro use
    constructor
    · rintro ⟨⟩
    · rintro ⟨record, missing, _⟩
      cases missing
  known := nofun
  calls := nofun
  names := List.nodup_nil
  published := nofun
  gone := nofun

theorem Kept.moved {before after : InodeUses} (kept : before.Kept)
    (consistent : TiFsMutable.Consistent after.handles) (sameStore : after.store = before.store)
    (sameUses : after.uses = before.uses)
    (references : ∀ use, after.upgrades use = true ↔ before.upgrades use = true)
    (known : ∀ ino use, after.openedIno.lookup ino = some use → before.IsUseOf use ino)
    (calls : ∀ call ∈ after.opens, ∀ use, call.phase.reference = some use → before.IsUseOf use call.ino) :
    after.Kept where
  consistent := consistent
  held := by
    intro use
    rw [references use, sameUses]
    exact kept.held use
  known := by
    intro ino use found
    rw [IsUseOf, sameUses]
    exact known ino use found
  calls := by
    intro call member use isReference
    rw [IsUseOf, sameUses]
    exact calls call member use isReference
  names := sameUses ▸ kept.names
  published := by
    rw [sameUses, sameStore]
    exact kept.published
  gone := by
    rw [sameUses, sameStore]
    exact kept.gone

theorem exists_reference_set {opens : List OpenCall} {i : Nat} {old : OpenCall} (present : opens[i]? = some old)
    (new : OpenCall) (use : Nat) :
    (∃ call ∈ opens.set i new, call.phase.reference = some use) ∨ old.phase.reference = some use ↔
      (∃ call ∈ opens, call.phase.reference = some use) ∨ new.phase.reference = some use := by
  have member := List.mem_of_getElem? present
  have inside : i < opens.length := (List.getElem?_eq_some_iff.mp present).1
  constructor
  · rintro (⟨call, listed, isReference⟩ | isReference)
    · rcases List.mem_or_eq_of_mem_set listed with before | rfl
      · exact Or.inl ⟨call, before, isReference⟩
      · exact Or.inr isReference
    · exact Or.inl ⟨old, member, isReference⟩
  · rintro (⟨call, listed, isReference⟩ | isReference)
    · rcases eq_or_mem_set present listed new with rfl | kept
      · exact Or.inr isReference
      · exact Or.inl ⟨call, kept, isReference⟩
    · exact Or.inl ⟨new, List.mem_set inside new, isReference⟩

theorem exists_reference_kept {opens : List OpenCall} {i : Nat} {old new : OpenCall}
    (present : opens[i]? = some old)
    (same : new.phase.reference = old.phase.reference) (use : Nat) :
    (∃ call ∈ opens.set i new, call.phase.reference = some use) ↔
      ∃ call ∈ opens, call.phase.reference = some use := by
  have moved := exists_reference_set present new use
  have inside : i < opens.length := (List.getElem?_eq_some_iff.mp present).1
  constructor
  · intro after
    rcases moved.mp (Or.inl after) with before | isNew
    · exact before
    · exact ⟨old, List.mem_of_getElem? present, same ▸ isNew⟩
  · intro before
    rcases moved.mpr (Or.inl before) with after | isOld
    · exact after
    · exact ⟨new, List.mem_set inside new, same.trans isOld⟩

theorem exists_reference_gained {opens : List OpenCall} {i : Nat} {old : OpenCall}
    (present : opens[i]? = some old)
    (noReference : old.phase.reference = none) (new : OpenCall) (use : Nat) :
    (∃ call ∈ opens.set i new, call.phase.reference = some use) ↔
      (∃ call ∈ opens, call.phase.reference = some use) ∨ new.phase.reference = some use := by
  rw [← exists_reference_set present new use, noReference, or_iff_left nofun]

theorem exists_held_concat (uses : List UseRecord) (use : InoUse) (i : Nat) :
    (∃ record, (uses ++ [⟨use, .held⟩])[i]? = some record ∧ record.phase = .held) ↔
      (∃ record, uses[i]? = some record ∧ record.phase = .held) ∨ i = uses.length := by
  constructor
  · rintro ⟨record, found, isHeld⟩
    rcases getElem?_concat_cases found with ⟨rfl, _⟩ | old
    · exact Or.inr rfl
    · exact Or.inl ⟨record, old, isHeld⟩
  · rintro (⟨record, found, isHeld⟩ | rfl)
    · exact ⟨record, (List.getElem?_append_left (List.getElem?_eq_some_iff.mp found).1).trans found, isHeld⟩
    · exact ⟨⟨use, .held⟩, List.getElem?_concat_length, rfl⟩

theorem Kept.calls_set {before : InodeUses} (kept : before.Kept) (i : Nat) {new : OpenCall}
    (isUse : ∀ use, new.phase.reference = some use → before.IsUseOf use new.ino) :
    ∀ call ∈ before.opens.set i new, ∀ use, call.phase.reference = some use → before.IsUseOf use call.ino := by
  intro call member use isReference
  rcases List.mem_or_eq_of_mem_set member with old | rfl
  · exact kept.calls call old use isReference
  · exact isUse use isReference

theorem getInoUse_eq_some {state : InodeUses} {ino : UInt64} {use : Nat}
    (found : state.getInoUse ino = some use) :
    state.openedIno.lookup ino = some use ∧ state.upgrades use = true := by
  obtain ⟨isUse, alive⟩ := Option.filter_eq_some_iff.mp found
  exact ⟨isUse, alive⟩

theorem Kept.open {before : InodeUses} (kept : before.Kept) {call : OpenCall}
    (references : ∀ use, call.phase.reference = some use →
      before.upgrades use = true ∧ before.IsUseOf use call.ino) :
    Kept { before with opens := before.opens ++ [call] } := by
  refine kept.moved kept.consistent rfl rfl ?_ kept.known ?_
  · intro use
    simp only [upgrades_iff, List.mem_append, List.mem_singleton, or_and_right, exists_or, exists_eq_left]
    constructor
    · rintro ((old | new) | others)
      · exact Or.inl old
      · exact upgrades_iff.mp (references use new).1
      · exact Or.inr others
    · rintro (old | others)
      · exact Or.inl (Or.inl old)
      · exact Or.inr others
  · intro other member use isReference
    rcases List.mem_append.mp member with old | new
    · exact kept.calls other old use isReference
    · obtain rfl := List.mem_singleton.mp new
      exact (references use isReference).2

theorem Kept.advanced {before : InodeUses} (kept : before.Kept) {i : Nat} {old : OpenCall}
    (present : before.opens[i]? = some old) (new : OpenCall)
    (same : new.phase.reference = old.phase.reference) (sameIno : new.ino = old.ino)
    {openedIno : Table UInt64 Nat}
    (known : ∀ ino use, openedIno.lookup ino = some use → before.IsUseOf use ino) :
    Kept { before with openedIno := openedIno, opens := before.opens.set i new } := by
  refine kept.moved kept.consistent rfl rfl ?_ known ?_
  · intro use
    simp only [upgrades_iff, exists_reference_kept present same use]
  · apply kept.calls_set i
    intro use isReference
    rw [sameIno]
    exact kept.calls old (List.mem_of_getElem? present) use (same ▸ isReference)

theorem Kept.published_open {before : InodeUses} (kept : before.Kept) {i : Nat} {ino : UInt64} {useId : Uuid}
    {begun : Store} {txn : Txn Key.Value} (present : before.opens[i]? = some ⟨ino, .publishing⟩)
    (ran : inodeOpen (LogicalIno.fromRaw ino.toNat).storageIno useId ⟨begun, []⟩ = .ok ((), txn))
    (separate : before.Separate (.publish i useId begun)) :
    Kept { before with
      store := applyAll before.store txn.buffer
      opens := before.opens.set i ⟨ino, .registering before.uses.length⟩
      uses := before.uses ++ [⟨⟨(LogicalIno.fromRaw ino.toNat).storageIno, useId⟩, .held⟩] } := by
  obtain ⟨fresh, own⟩ := separate
  obtain ⟨desc, linked, stored, _, _, rfl⟩ := open_ok ran
  rw [own _ desc stored]
  have different : ∀ record ∈ before.uses, (openedInodeParentInode, record.use.name) ≠
      (openedInodeParentInode, uuidToString useId) := by
    intro record member same
    exact fresh record member (uuidToString_injective (Prod.mk.inj same).2)
  have old : ∀ {use : Nat} {raw : UInt64}, before.IsUseOf use raw → ∃ record,
      (before.uses ++ [⟨⟨(LogicalIno.fromRaw ino.toNat).storageIno, useId⟩, .held⟩])[use]? = some record ∧
        record.use.ino = (LogicalIno.fromRaw raw.toNat).storageIno := by
    rintro use raw ⟨record, found, isIno⟩
    exact ⟨record, (List.getElem?_append_left (List.getElem?_eq_some_iff.mp found).1).trans found, isIno⟩
  have new : (before.uses ++ [⟨⟨(LogicalIno.fromRaw ino.toNat).storageIno, useId⟩, .held⟩])[before.uses.length]? =
      some ⟨⟨(LogicalIno.fromRaw ino.toNat).storageIno, useId⟩, .held⟩ := List.getElem?_concat_length
  constructor
  · exact kept.consistent
  · intro use
    have gained := exists_reference_gained present rfl ⟨ino, .registering before.uses.length⟩ use
    have others := kept.held use
    rw [exists_held_concat, ← others, upgrades_iff, upgrades_iff, gained]
    constructor
    · rintro ((old | new) | rest)
      · exact Or.inl (Or.inl old)
      · exact Or.inr (Option.some.inj new).symm
      · exact Or.inl (Or.inr rest)
    · rintro ((old | rest) | rfl)
      · exact Or.inl (Or.inl old)
      · exact Or.inr rest
      · exact Or.inl (Or.inr rfl)
  · exact fun raw use found => old (kept.known raw use found)
  · intro call member use isReference
    rcases List.mem_or_eq_of_mem_set member with before | rfl
    · exact old (kept.calls call before use isReference)
    · obtain rfl := Option.some.inj isReference
      exact ⟨_, new, rfl⟩
  · rw [List.map_append, List.map_singleton, ← List.concat_eq_append, List.nodup_concat]
    refine ⟨?_, kept.names⟩
    intro listed
    obtain ⟨record, member, same⟩ := List.mem_map.mp listed
    exact fresh record member same
  · intro record member unclosed
    rcases List.mem_append.mp member with isOld | isNew
    · obtain ⟨⟨typ, entry⟩, link⟩ := kept.published record isOld unclosed
      refine ⟨⟨typ, ?_⟩, ?_⟩
      · rw [Txn.mutate, List.nil_append, dirEntry_addedLinks, if_neg (different record isOld)]
        exact entry
      · exact (hasParentLink_addedLinks _ _ _ _ _ _ _).mpr (Or.inr link)
    · obtain rfl := List.mem_singleton.mp isNew
      refine ⟨⟨linked.typ, ?_⟩, ?_⟩
      · rw [Txn.mutate, List.nil_append, dirEntry_addedLinks]
        exact if_pos rfl
      · exact (hasParentLink_addedLinks _ _ _ _ _ _ _).mpr (Or.inl ⟨rfl, rfl⟩)
  · intro record member closed
    rcases List.mem_append.mp member with isOld | isNew
    · rw [Txn.mutate, List.nil_append, dirEntry_addedLinks, if_neg (different record isOld)]
      exact kept.gone record isOld closed
    · obtain rfl := List.mem_singleton.mp isNew
      cases closed

theorem getElem?_setUse (state : InodeUses) (use : Nat) (phase : UsePhase) (i : Nat) :
    (state.setUse use phase).uses[i]? =
      (state.uses[i]?).map fun record => if use = i then { record with phase := phase } else record := by
  rw [setUse, List.getElem?_modify]
  split <;> cases state.uses[i]? <;> rfl

theorem isUseOf_setUse {state : InodeUses} {use i : Nat} {phase : UsePhase} {ino : UInt64}
    (isUse : state.IsUseOf i ino) : (state.setUse use phase).IsUseOf i ino := by
  obtain ⟨record, found, isIno⟩ := isUse
  refine ⟨if use = i then { record with phase := phase } else record, ?_, ?_⟩
  · rw [getElem?_setUse, found]
    rfl
  · split <;> exact isIno

theorem mem_setUse {state : InodeUses} {use : Nat} {phase : UsePhase} {record : UseRecord}
    (member : record ∈ (state.setUse use phase).uses) :
    ∃ i old, state.uses[i]? = some old ∧ record.use = old.use ∧
      record.phase = if use = i then phase else old.phase := by
  obtain ⟨i, found⟩ := List.mem_iff_getElem?.mp member
  rw [getElem?_setUse] at found
  obtain ⟨old, isOld, rfl⟩ := Option.map_eq_some_iff.mp found
  refine ⟨i, old, isOld, ?_, ?_⟩
  · split <;> rfl
  · split <;> rfl

theorem exists_held_setUse (state : InodeUses) (use : Nat) {phase : UsePhase} (unheld : phase ≠ .held)
    (i : Nat) :
    (∃ record, (state.setUse use phase).uses[i]? = some record ∧ record.phase = .held) ↔
      i ≠ use ∧ ∃ record, state.uses[i]? = some record ∧ record.phase = .held := by
  rw [getElem?_setUse]
  constructor
  · rintro ⟨record, found, isHeld⟩
    obtain ⟨old, isOld, rfl⟩ := Option.map_eq_some_iff.mp found
    by_cases same : use = i
    · rw [if_pos same] at isHeld
      exact absurd isHeld unheld
    · rw [if_neg same] at isHeld
      exact ⟨Ne.symm same, old, isOld, isHeld⟩
  · rintro ⟨different, record, found, isHeld⟩
    refine ⟨record, ?_, isHeld⟩
    rw [found, Option.map_some, if_neg (Ne.symm different)]

theorem useIds_setUse (state : InodeUses) (use : Nat) (phase : UsePhase) :
    ((state.setUse use phase).uses.map fun record => record.use.useId) =
      state.uses.map fun record => record.use.useId := by
  apply List.ext_getElem?
  intro i
  rw [List.getElem?_map, List.getElem?_map, getElem?_setUse, Option.map_map]
  congr 1
  funext record
  simp only [Function.comp]
  split <;> rfl

theorem Kept.dropped {before : InodeUses} (kept : before.Kept) (after : InodeUses)
    (consistent : TiFsMutable.Consistent after.handles) (sameStore : after.store = before.store)
    (sameUses : after.uses = before.uses) (sameKnown : after.openedIno = before.openedIno)
    (sameOpens : after.opens = before.opens) {use : Nat} (was : before.upgrades use = true)
    (references : ∀ other, other ≠ use → (after.upgrades other = true ↔ before.upgrades other = true)) :
    (after.dropped use).Kept := by
  have isUseOf : ∀ {i raw}, before.IsUseOf i raw → after.IsUseOf i raw := by
    intro i raw isUse
    rw [IsUseOf, sameUses]
    exact isUse
  by_cases alive : after.upgrades use = true
  · rw [InodeUses.dropped, if_pos alive]
    refine kept.moved consistent sameStore sameUses ?_ (sameKnown ▸ kept.known) (sameOpens ▸ kept.calls)
    intro other
    by_cases same : other = use
    · rw [same, iff_true_intro alive, iff_true_intro was]
    · exact references other same
  · rw [InodeUses.dropped, if_neg alive]
    have unheld : UsePhase.closing ≠ .held := nofun
    obtain ⟨last, isLast, wasHeld⟩ := (kept.held use).mp was
    constructor
    · exact consistent
    · intro other
      rw [exists_held_setUse after use unheld, sameUses, ← kept.held other]
      change after.upgrades other = true ↔ _
      by_cases same : other = use
      · simp only [same, alive, ne_eq, not_true_eq_false, false_and, Bool.false_eq_true]
      · simp only [references other same, ne_eq, same, not_false_eq_true, true_and]
    · intro raw other found
      exact isUseOf_setUse (isUseOf (kept.known raw other (sameKnown ▸ found)))
    · intro call member other isReference
      exact isUseOf_setUse (isUseOf (kept.calls call (sameOpens ▸ member) other isReference))
    · rw [useIds_setUse, sameUses]
      exact kept.names
    · intro record member unclosed
      obtain ⟨i, old, isOld, sameUse, isPhase⟩ := mem_setUse member
      rw [sameUses] at isOld
      have open_ : old.phase ≠ .closed := by
        by_cases same : use = i
        · subst same
          obtain rfl := Option.some.inj (isLast.symm.trans isOld)
          rw [wasHeld]
          nofun
        · rw [if_neg same] at isPhase
          exact isPhase ▸ unclosed
      rw [sameUse]
      change Published after.store old.use
      rw [sameStore]
      exact kept.published old (List.mem_of_getElem? isOld) open_
    · intro record member closed
      obtain ⟨i, old, isOld, sameUse, isPhase⟩ := mem_setUse member
      rw [sameUses] at isOld
      have different : use ≠ i := by
        intro same
        rw [if_pos same, closed] at isPhase
        cases isPhase
      rw [if_neg different, closed] at isPhase
      rw [sameUse]
      change dirEntry after.store _ _ = none
      rw [sameStore]
      exact kept.gone old (List.mem_of_getElem? isOld) isPhase.symm

/-- The close of a use that nobody references any more. -/
theorem Kept.ended {before : InodeUses} (kept : before.Kept) {use : Nat} {record : UseRecord}
    (found : before.uses[use]? = some record) (closing : record.phase = .closing) (phase : UsePhase)
    (unheld : phase ≠ .held) (after : Store)
    (others : ∀ other ∈ before.uses, other.use.useId ≠ record.use.useId →
      dirEntry after openedInodeParentInode other.use.name =
        dirEntry before.store openedInodeParentInode other.use.name ∧
      (hasParentLink before.store other.use.ino openedInodeParentInode other.use.name →
        hasParentLink after other.use.ino openedInodeParentInode other.use.name))
    (published : phase ≠ .closed → Published after record.use)
    (gone : phase = .closed → dirEntry after openedInodeParentInode record.use.name = none) :
    Kept { before.setUse use phase with store := after } := by
  have different : ∀ {i other}, before.uses[i]? = some other → use ≠ i → other.use.useId ≠ record.use.useId := by
    intro i other isOther distinct same
    have first : (before.uses.map fun record => record.use.useId)[use]? = some record.use.useId := by
      rw [List.getElem?_map, found]
      rfl
    have second : (before.uses.map fun record => record.use.useId)[i]? = some record.use.useId := by
      rw [List.getElem?_map, isOther, Option.map_some, same]
    have inside : use < (before.uses.map fun record => record.use.useId).length :=
      (List.getElem?_eq_some_iff.mp first).1
    exact distinct ((List.getElem?_inj inside kept.names).mp (first.trans second.symm))
  constructor
  · exact kept.consistent
  · intro other
    change before.upgrades other = true ↔ ∃ record, (before.setUse use phase).uses[other]? = some record ∧ _
    rw [exists_held_setUse before use unheld, kept.held other]
    refine (and_iff_right_of_imp ?_).symm
    rintro ⟨one, isOne, isHeld⟩ rfl
    obtain rfl := Option.some.inj (found.symm.trans isOne)
    rw [closing] at isHeld
    cases isHeld
  · exact fun ino other isKnown => isUseOf_setUse (kept.known ino other isKnown)
  · exact fun call member other isReference => isUseOf_setUse (kept.calls call member other isReference)
  · exact (useIds_setUse before use phase).symm ▸ kept.names
  · intro one member unclosed
    obtain ⟨i, old, isOld, sameUse, isPhase⟩ := mem_setUse member
    rw [sameUse]
    by_cases same : use = i
    · subst same
      obtain rfl := Option.some.inj (found.symm.trans isOld)
      rw [if_pos rfl] at isPhase
      exact published (isPhase ▸ unclosed)
    · rw [if_neg same] at isPhase
      obtain ⟨sameEntry, link⟩ := others old (List.mem_of_getElem? isOld) (different isOld same)
      obtain ⟨⟨typ, entry⟩, linked⟩ := kept.published old (List.mem_of_getElem? isOld) (isPhase ▸ unclosed)
      exact ⟨⟨typ, sameEntry.trans entry⟩, link linked⟩
  · intro one member closed
    obtain ⟨i, old, isOld, sameUse, isPhase⟩ := mem_setUse member
    rw [sameUse]
    by_cases same : use = i
    · subst same
      obtain rfl := Option.some.inj (found.symm.trans isOld)
      rw [if_pos rfl] at isPhase
      exact gone (isPhase.symm.trans closed)
    · rw [if_neg same] at isPhase
      obtain ⟨sameEntry, _⟩ := others old (List.mem_of_getElem? isOld) (different isOld same)
      exact sameEntry.trans (kept.gone old (List.mem_of_getElem? isOld) (isPhase.symm.trans closed))

theorem openHandler_handlers {d after : TiFsMutable Nat} (consistent : TiFsMutable.Consistent d)
    {first : Option UInt64} (picked : TiFsMutable.IsFirst d.freedFhs first) {handler : Nat} {fh : UInt64}
    (opened : d.openHandler first handler = some (fh, after)) (use : Nat) :
    (∃ fh, after.fileHandlers.lookup fh = some use) ↔
      (∃ fh, d.fileHandlers.lookup fh = some use) ∨ use = handler := by
  have unused := consistent.getFreeFh_unused picked
  have same : (d.getFreeFh first).2.fileHandlers = d.fileHandlers := by
    rcases TiFsMutable.getFreeFh_cases picked with ⟨reused, _, result⟩ | ⟨_, result⟩ <;> rw [result]
  simp only [TiFsMutable.openHandler, TiFsMutable.insertHandler, Option.bind_eq_bind] at opened
  split at opened
  · rw [Option.bind_some, Option.some.injEq] at opened
    obtain ⟨rfl, rfl⟩ := Prod.mk.inj opened
    simp only [same]
    constructor
    · rintro ⟨other, found⟩
      by_cases isNew : other = (d.getFreeFh first).1
      · rw [isNew, AList.lookup_insert] at found
        exact Or.inr (Option.some.inj found).symm
      · rw [AList.lookup_insert_ne isNew] at found
        exact Or.inl ⟨other, found⟩
    · rintro (⟨other, found⟩ | rfl)
      · have different : other ≠ (d.getFreeFh first).1 := by
          rintro rfl
          exact unused (AList.lookup_isSome.mp (Option.isSome_of_eq_some found))
        exact ⟨other, (AList.lookup_insert_ne different).trans found⟩
      · exact ⟨_, AList.lookup_insert _⟩
  · simp only [Option.bind_none, reduceCtorEq] at opened

theorem releaseFileHandler_handlers {d after : TiFsMutable Nat} {fh : UInt64} {handler : Option Nat}
    (released : d.releaseFileHandler fh = some (handler, after)) (use : Nat) :
    (∃ fh, after.fileHandlers.lookup fh = some use) ∨ some use = handler ↔
      ∃ fh, d.fileHandlers.lookup fh = some use := by
  unfold TiFsMutable.releaseFileHandler at released
  cases isHandler : d.fileHandlers.lookup fh with
  | none =>
      rw [isHandler] at released
      obtain ⟨rfl, rfl⟩ := Prod.mk.inj (Option.some.inj released)
      exact or_iff_left nofun
  | some removed =>
      rw [isHandler] at released
      obtain ⟨_, isResult⟩ := Option.ite_none_right_eq_some.mp released
      obtain ⟨rfl, rfl⟩ := Prod.mk.inj (Option.some.inj isResult)
      constructor
      · rintro (⟨other, found⟩ | isRemoved)
        · have different : other ≠ fh := by
            rintro rfl
            rw [AList.lookup_erase] at found
            cases found
          exact ⟨other, (AList.lookup_erase_ne different).symm.trans found⟩
        · exact ⟨fh, isHandler.trans isRemoved.symm⟩
      · rintro ⟨other, found⟩
        by_cases same : other = fh
        · rw [same, isHandler] at found
          exact Or.inr found.symm
        · exact Or.inl ⟨other, (AList.lookup_erase_ne same).trans found⟩

theorem exists_borrowed_set {borrowed : List (Option Nat)} {i use : Nat}
    (present : borrowed[i]? = some (some use)) {other : Nat} (different : other ≠ use) :
    some other ∈ borrowed.set i none ↔ some other ∈ borrowed := by
  constructor
  · intro listed
    rcases List.mem_or_eq_of_mem_set listed with old | missing
    · exact old
    · cases missing
  · intro listed
    rcases eq_or_mem_set present listed none with same | kept
    · exact absurd (Option.some.inj same) different
    · exact kept

theorem close_published {store : Store} {use : InoUse} (published : Published store use) :
    atomically (inodeClose use.ino use.useId) store =
      .ok ((), applyAll store (removedLinks openedInodeParentInode use.name use.ino)) := by
  obtain ⟨⟨typ, entry⟩, _⟩ := published
  have accepted : typ ∈ [StorageDirItemKind.directory, .file, .symlink] := by cases typ <;> decide
  have found : dirEntry (Txn.mk store []).view openedInodeParentInode (uuidToString use.useId) =
      some ⟨use.ino, typ⟩ := entry
  have ran : inodeClose use.ino use.useId ⟨store, []⟩ =
      .ok ((), (Txn.mk store []).mutate (removedLinks openedInodeParentInode use.name use.ino)) := by
    rw [inodeClose, bind_ok (removeChild_removed found accepted)]
    simp only [ne_eq, not_true_eq_false, if_false]
    rfl
  exact atomically_eq_ok ran

theorem kept_close {before : InodeUses} (kept : before.Kept) {use : Nat} {record : UseRecord}
    (found : before.uses[use]? = some record) (closing : record.phase = .closing) :
    Kept { before.setUse use .closed with
      store := applyAll before.store (removedLinks openedInodeParentInode record.use.name record.use.ino) } := by
  refine kept.ended found closing .closed nofun _ ?_ (absurd rfl) ?_
  · intro other member different
    have names : (openedInodeParentInode, other.use.name) ≠ (openedInodeParentInode, record.use.name) := by
      intro same
      exact different (uuidToString_injective (Prod.mk.inj same).2)
    constructor
    · rw [dirEntry_removedLinks, if_neg names]
    · exact fun linked => (hasParentLink_removedLinks _ _ _ _ _ _ _).mpr ⟨fun same => names same.2, linked⟩
  · intro _
    rw [dirEntry_removedLinks, if_pos rfl]

theorem kept_closeFails {before : InodeUses} (kept : before.Kept) {use : Nat} {record : UseRecord}
    (found : before.uses[use]? = some record) (closing : record.phase = .closing) :
    Kept (before.setUse use .failed) := by
  have member := List.mem_of_getElem? found
  have published := kept.published record member (closing ▸ nofun)
  exact kept.ended found closing .failed nofun before.store (fun _ _ _ => ⟨rfl, id⟩) (fun _ => published) nofun

theorem kept_others {before : InodeUses} (kept : before.Kept) {after : Store}
    (separate : before.Separate (.others after)) : Kept { before with store := after } where
  consistent := kept.consistent
  held := kept.held
  known := kept.known
  calls := kept.calls
  names := kept.names
  published := by
    intro record member unclosed
    obtain ⟨⟨typ, entry⟩, link⟩ := kept.published record member unclosed
    obtain ⟨sameEntry, sameLink⟩ := separate record member
    exact ⟨⟨typ, sameEntry.trans entry⟩, sameLink.mpr link⟩
  gone := fun record member closed => (separate record member).1.trans (kept.gone record member closed)

theorem kept_step {before after : InodeUses} {event : UseEvent} (kept : before.Kept)
    (taken : before.Step event after) (separate : before.Separate event) : after.Kept := by
  cases event with
  | «open» ino =>
      rw [Step, step] at taken
      split at taken
      · next use found =>
          obtain rfl := Option.some.inj taken
          obtain ⟨isKnown, alive⟩ := getInoUse_eq_some found
          apply kept.open
          intro other isReference
          obtain rfl := Option.some.inj isReference
          exact ⟨alive, kept.known ino _ isKnown⟩
      · obtain rfl := Option.some.inj taken
        exact kept.open nofun
  | publish i useId begun =>
      rw [Step, step] at taken
      split at taken
      · next ino present =>
          dsimp only at taken
          split at taken
          · next txn ran =>
              obtain rfl := Option.some.inj taken
              exact kept.published_open present ran separate
          · next issue _ =>
              obtain rfl := Option.some.inj taken
              exact kept.advanced present ⟨ino, .failed issue⟩ rfl rfl kept.known
      · cases taken
  | register i =>
      rw [Step, step] at taken
      split at taken
      · next ino use present =>
          obtain rfl := Option.some.inj taken
          apply kept.advanced present ⟨ino, .opened use⟩ rfl rfl
          intro other isUse found
          by_cases same : other = ino
          · rw [same, AList.lookup_insert] at found
            obtain rfl := Option.some.inj found
            rw [same]
            exact kept.calls _ (List.mem_of_getElem? present) _ rfl
          · rw [AList.lookup_insert_ne same] at found
            exact kept.known other isUse found
      · cases taken
  | insertHandler i first =>
      rw [Step, step] at taken
      split at taken
      · next ino use present =>
          obtain ⟨⟨fh, handles⟩, opened, isNext⟩ := Option.bind_eq_some_iff.mp taken
          obtain rfl := Option.some.inj isNext
          refine kept.moved (kept.consistent.openHandler separate opened) rfl rfl ?_ kept.known
            (kept.calls_set i nofun)
          intro other
          have moved := exists_reference_set present ⟨ino, .returned fh⟩ other
          have inTable := openHandler_handlers kept.consistent separate opened other
          have isOld : OpenPhase.reference (.opened use) = some other ↔ other = use :=
            Option.some_inj.trans eq_comm
          rw [isOld, or_iff_left (show OpenPhase.reference (.returned fh) ≠ some other from nofun)] at moved
          rw [upgrades_iff, upgrades_iff, ← moved, inTable]
          constructor
          · rintro (call | (table | isUse) | old)
            · exact Or.inl (Or.inl call)
            · exact Or.inr (Or.inl table)
            · exact Or.inl (Or.inr isUse)
            · exact Or.inr (Or.inr old)
          · rintro ((call | isUse) | table | old)
            · exact Or.inl call
            · exact Or.inr (Or.inl (Or.inr isUse))
            · exact Or.inr (Or.inl (Or.inl table))
            · exact Or.inr (Or.inr old)
      · cases taken
  | borrow fh =>
      obtain ⟨use, isHandler, isNext⟩ := Option.bind_eq_some_iff.mp taken
      obtain rfl := Option.some.inj isNext
      refine kept.moved kept.consistent rfl rfl ?_ kept.known kept.calls
      intro other
      simp only [upgrades_iff, List.mem_append, List.mem_singleton, Option.some.injEq]
      constructor
      · rintro (call | table | old | rfl)
        · exact Or.inl call
        · exact Or.inr (Or.inl table)
        · exact Or.inr (Or.inr old)
        · exact Or.inr (Or.inl ⟨fh, isHandler⟩)
      · rintro (call | table | old)
        · exact Or.inl call
        · exact Or.inr (Or.inl table)
        · exact Or.inr (Or.inr (Or.inl old))
  | giveBack i =>
      rw [Step, step] at taken
      split at taken
      · next use present =>
          obtain rfl := Option.some.inj taken
          refine kept.dropped { before with borrowed := before.borrowed.set i none } kept.consistent
            rfl rfl rfl rfl ?_ ?_
          · exact upgrades_iff.mpr (Or.inr (Or.inr (List.mem_of_getElem? present)))
          · intro other different
            simp only [upgrades_iff, exists_borrowed_set present different]
      · cases taken
  | release fh flushed =>
      cases flushed with
      | false =>
          obtain rfl := Option.some.inj taken
          exact kept
      | true =>
          obtain ⟨⟨handler, handles⟩, released, isNext⟩ := Option.bind_eq_some_iff.mp taken
          obtain rfl := Option.some.inj isNext
          refine kept.moved (kept.consistent.releaseFileHandler released) rfl rfl ?_ kept.known kept.calls
          intro other
          have inTable := releaseFileHandler_handlers released other
          rw [upgrades_iff, upgrades_iff, ← inTable, List.mem_append, List.mem_singleton]
          constructor
          · rintro (call | table | old | isHandler)
            · exact Or.inl call
            · exact Or.inr (Or.inl (Or.inl table))
            · exact Or.inr (Or.inr old)
            · exact Or.inr (Or.inl (Or.inr isHandler))
          · rintro (call | (table | isHandler) | old)
            · exact Or.inl call
            · exact Or.inr (Or.inl table)
            · exact Or.inr (Or.inr (Or.inr isHandler))
            · exact Or.inr (Or.inr (Or.inl old))
  | close use =>
      obtain ⟨record, found, rest⟩ := Option.bind_eq_some_iff.mp taken
      obtain ⟨closing, isNext⟩ := Option.ite_none_right_eq_some.mp rest
      rw [close_published (kept.published record (List.mem_of_getElem? found) (closing ▸ nofun))] at isNext
      obtain rfl := Option.some.inj isNext
      exact kept_close kept found closing
  | closeFails use =>
      obtain ⟨record, found, rest⟩ := Option.bind_eq_some_iff.mp taken
      obtain ⟨closing, isNext⟩ := Option.ite_none_right_eq_some.mp rest
      obtain rfl := Option.some.inj isNext
      exact kept_closeFails kept found closing
  | cleanWeak ino =>
      rw [Step, step] at taken
      split at taken
      · obtain rfl := Option.some.inj taken
        exact kept
      · obtain rfl := Option.some.inj taken
        refine kept.moved kept.consistent rfl rfl (fun _ => Iff.rfl) ?_ kept.calls
        intro other use found
        by_cases same : other = ino
        · rw [same, AList.lookup_erase] at found
          cases found
        · rw [AList.lookup_erase_ne same] at found
          exact kept.known other use found
  | others after =>
      obtain rfl := Option.some.inj taken
      exact kept_others kept separate

theorem kept_run {store : Store} {state : InodeUses} (run : Run Step Separate (mounted store) state) :
    state.Kept := by
  refine Run.invariant Kept ?_ (kept_mounted store) run
  intro before event after kept taken separate
  exact kept_step kept taken separate

/-- As long as a file handle or a running call refers to a use, the use is published, so that no
unlink of a client finds the inode unused; a call of `open` has a use of the inode it was
asked for. -/
theorem open_files_published (store : Store) {state : InodeUses} (run : Run Step Separate (mounted store) state)
    {use : Nat} (alive : state.upgrades use = true) :
    ∃ record, state.uses[use]? = some record ∧ Published state.store record.use ∧
      atomically (inodeCheckForDeleteAndDeleteAtomicallyDescription record.use.ino) state.store =
        .ok (.stillUsed, state.store) ∧
      ∀ call ∈ state.opens, call.phase.reference = some use → record.use.ino = call.storageIno := by
  have kept := kept_run run
  obtain ⟨record, found, isHeld⟩ := (kept.held use).mp alive
  have published := kept.published record (List.mem_of_getElem? found) (isHeld ▸ nofun)
  refine ⟨record, found, published, ?_, ?_⟩
  · exact atomically_eq_ok (checkForDelete_used ⟨_, _, published.link⟩)
  · intro call member isReference
    obtain ⟨other, isOther, isIno⟩ := kept.calls call member use isReference
    obtain rfl := Option.some.inj (found.symm.trans isOther)
    exact isIno

def describedFile : Store := applyAll ∅ [Mutation.put (.inodeX 10 .description) ⟨10, .file, 0⟩]

instance (store : Store) (ino : StorageIno) (parent : ParentStorageIno) (name : ByteString) :
    Decidable (hasParentLink store ino parent name) :=
  inferInstanceAs (Decidable ((store.lookup (.parentLink ino parent name) : Option Unit) = some ()))

instance (state : InodeUses) (event : UseEvent) : Decidable (state.Separate event) :=
  match event with
  | .open _ => isTrue trivial
  | .publish _ useId begun =>
      inferInstanceAs (Decidable ((∀ record ∈ state.uses, record.use.useId ≠ useId) ∧ OwnDescriptions begun))
  | .register _ => isTrue trivial
  | .insertHandler _ first => inferInstanceAs (Decidable (TiFsMutable.IsFirst state.handles.freedFhs first))
  | .borrow _ => isTrue trivial
  | .giveBack _ => isTrue trivial
  | .release _ _ => isTrue trivial
  | .close _ => isTrue trivial
  | .closeFails _ => isTrue trivial
  | .cleanWeak _ => isTrue trivial
  | .others after => inferInstanceAs (Decidable (∀ record ∈ state.uses,
      dirEntry after openedInodeParentInode record.use.name =
        dirEntry state.store openedInodeParentInode record.use.name ∧
      (hasParentLink after record.use.ino openedInodeParentInode record.use.name ↔
        hasParentLink state.store record.use.ino openedInodeParentInode record.use.name)))

theorem exists_run (store : Store) (events : List UseEvent) (check : InodeUses → Bool)
    (ran : (runAll (restrict Separate step) (mounted store) events).any check = true) :
    ∃ state, Run Step Separate (mounted store) state ∧ check state = true :=
  Run.of_restrict (fun _ _ _ taken => taken) events check ran

/-- Two opens of a file share one use. A call still writes through the first handle when both
handles are released. -/
def openTwice : List UseEvent :=
  [.open 73, .publish 0 5 describedFile, .register 0, .open 73, .insertHandler 0 none, .insertHandler 1 none,
    .borrow 0, .release 0 true, .release 1 true, .giveBack 1, .giveBack 2, .cleanWeak 73]

theorem open_files_published_shared :
    ∃ state, Run Step Separate (mounted describedFile) state ∧ state.handles.fileHandlers.keys = [] ∧
      atomically (inodeCheckForDeleteAndDeleteAtomicallyDescription 10) state.store =
        .ok (.stillUsed, state.store) := by
  obtain ⟨state, run, checked⟩ := exists_run describedFile openTwice
    (fun state => state.handles.fileHandlers.keys = [] ∧ state.upgrades 0 = true ∧
      ∀ record ∈ state.uses[0]?, record.use.ino = 10) (by decide +kernel)
  obtain ⟨noHandle, alive, isIno⟩ := of_decide_eq_true checked
  obtain ⟨record, found, _, used, _⟩ := open_files_published describedFile run alive
  rw [isIno record found] at used
  exact ⟨state, run, noHandle, used⟩

/-- A use is published until the close of its last reference has run: no use is left behind
but one whose close has failed. -/
theorem use_published_iff (store : Store) {state : InodeUses} (run : Run Step Separate (mounted store) state)
    {use : Nat} {record : UseRecord} (found : state.uses[use]? = some record) :
    (dirEntry state.store openedInodeParentInode record.use.name).isSome ↔
      state.upgrades use = true ∨ record.phase = .closing ∨ record.phase = .failed := by
  have kept := kept_run run
  have member := List.mem_of_getElem? found
  have isHeld : state.upgrades use = true ↔ record.phase = .held := by
    rw [kept.held use]
    constructor
    · rintro ⟨other, isOther, held⟩
      exact Option.some.inj (found.symm.trans isOther) ▸ held
    · exact fun held => ⟨record, found, held⟩
  rw [isHeld]
  cases current : record.phase with
  | closed =>
      simp [kept.gone record member current]
  | _ =>
      obtain ⟨⟨typ, entry⟩, _⟩ := kept.published record member (current ▸ nofun)
      simp [entry]

/-- The last reference is dropped: the use stays published until the task that closes it. -/
theorem use_published_iff_dropped :
    ∃ state, Run Step Separate (mounted describedFile) state ∧ state.upgrades 0 = false ∧
      (dirEntry state.store openedInodeParentInode (uuidToString 5)).isSome := by
  obtain ⟨state, run, checked⟩ := exists_run describedFile (openTwice ++ [.giveBack 0])
    (fun state => state.upgrades 0 = false ∧ state.uses[0]? = some ⟨⟨10, 5⟩, .closing⟩) (by decide +kernel)
  obtain ⟨gone, found⟩ := of_decide_eq_true checked
  exact ⟨state, run, gone, (use_published_iff describedFile run found).mpr (Or.inr (Or.inl rfl))⟩

end InodeUses

end TiFs
