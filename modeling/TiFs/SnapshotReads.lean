import TiFs.BlockEffects

/-! Reads of inodes that no operation addresses any more, as those of a snapshot: their
blocks are shared with other inodes, and the counters keep them. -/

namespace TiFs

open KeyValue Tables

def Work.ino {cfg : TiFsConfig} : Work cfg → StorageIno
  | .write ino _ => ino
  | .clear addr _ => addr.ino
  | .clone dst _ _ => dst

def Work.Within {cfg : TiFsConfig} (involved : Set Bytes) : Work cfg → Prop
  | .write _ plan => ∀ group ∈ plan.groups, group.data ∈ involved
  | _ => True

def Op.Within {cfg : TiFsConfig} (involved : Set Bytes) : Op cfg → Prop
  | .write task => ∀ group ∈ task.plan.groups, group.data ∈ involved
  | _ => True

/-- The operations address inodes outside the snapshot; the blocks they write are among
the involved ones. -/
def BlockSystem.Outside {cfg : TiFsConfig} (snapshot : Set StorageIno) (involved : Set Bytes)
    (_ : BlockSystem cfg) : BlockEvent cfg → Prop
  | .spawn work => work.ino ∉ snapshot ∧ work.Within involved
  | _ => True

instance {cfg : TiFsConfig} (snapshot : Set StorageIno) (involved : Set Bytes)
    [DecidablePred (· ∈ snapshot)] [DecidablePred (· ∈ involved)] (state : BlockSystem cfg) :
    ∀ event, Decidable (state.Outside snapshot involved event)
  | .spawn (.write ino plan) => inferInstanceAs (Decidable (ino ∉ snapshot ∧
      ∀ group ∈ plan.groups, group.data ∈ involved))
  | .spawn (.clear addr _) => inferInstanceAs (Decidable (addr.ino ∉ snapshot ∧ True))
  | .spawn (.clone dst _ _) => inferInstanceAs (Decidable (dst ∉ snapshot ∧ True))
  | .advance _ _ => isTrue trivial
  | .abandon _ => isTrue trivial

structure SnapshotKept {cfg : TiFsConfig} (snapshot : Set StorageIno) (involved : Set Bytes)
    (first : Store) (state : BlockSystem cfg) : Prop where
  covered : state.Covered
  outside : ∀ op ∈ state.ops, ∀ ino ∈ snapshot, ¬ op.Addresses ino
  within : ∀ op ∈ state.ops, op.Within involved
  addressed : ∀ hash data, blockData state.store hash = some data → Addressed cfg involved hash data
  mappings : ∀ addr : BlockAddress, addr.ino ∈ snapshot → mapping state.store addr = mapping first addr
  blocks : ∀ (addr : BlockAddress) hash, addr.ino ∈ snapshot → mapping first addr = some hash →
    ∃ data, blockData state.store hash = some data ∧ blockData first hash = some data

section Kept

variable {cfg : TiFsConfig} {snapshot : Set StorageIno} {involved : Set Bytes} {first : Store}

theorem Work.start_outside {work : Work cfg} (outside : work.ino ∉ snapshot) :
    ∀ ino ∈ snapshot, ¬ work.start.Addresses ino := by
  intro ino member addresses
  cases work with
  | write other plan =>
      obtain ⟨rfl, _⟩ := addresses
      exact outside member
  | clear addr doSizeUpdate =>
      obtain ⟨rfl, _⟩ := addresses
      exact outside member
  | clone dst hashes lengths =>
      obtain ⟨rfl, _⟩ := addresses
      exact outside member

theorem Work.start_within {work : Work cfg} (within : work.Within involved) :
    work.start.Within involved := by
  cases work with
  | write other plan => exact within
  | clear addr doSizeUpdate => trivial
  | clone dst hashes lengths => trivial

theorem Op.within_of_step {op next : Op cfg} {ambient : Ambient} {store after : Store}
    (sound : op.Sound) (within : op.Within involved)
    (ran : op.step ambient store = .ok (next, after)) : next.Within involved := by
  cases op with
  | write task =>
      obtain ⟨phase, rfl, _⟩ := Op.move_of_step sound ran
      exact within
  | clear task =>
      obtain ⟨result, _, isNext⟩ := except_map_eq_ok ran
      obtain ⟨rfl, _⟩ := Prod.mk.inj isNext
      trivial
  | clone task =>
      obtain ⟨result, _, isNext⟩ := except_map_eq_ok ran
      obtain ⟨rfl, _⟩ := Prod.mk.inj isNext
      trivial
  | ended failure =>
      obtain ⟨rfl, _⟩ := Prod.mk.inj (Except.ok.inj ran)
      trivial

theorem Op.Effect.addressed {op : Op cfg} {store after : Store} (effect : op.Effect store after)
    (sound : op.Sound) (within : op.Within involved)
    (stored : ∀ hash data, blockData store hash = some data → Addressed cfg involved hash data)
    {hash : TiFsHash} {data : Bytes} (found : blockData after hash = some data) :
    Addressed cfg involved hash data := by
  by_cases listed : hash ∈ op.uploads.map Prod.fst
  · obtain ⟨block, member, rfl⟩ := List.mem_map.mp listed
    rw [effect.uploaded block member] at found
    obtain rfl := Option.some.inj found
    cases op with
    | write task => exact uploads_addressed sound within member
    | clear task => cases member
    | clone task => cases member
    | ended failure => cases member
  · exact stored hash data (effect.old hash data listed found)

/-- A block that is still counted is still stored, with the same data. -/
theorem Op.Effect.block_kept {op : Op cfg} {store after : Store} (effect : op.Effect store after)
    (injective : Set.InjOn cfg.calculateHash involved)
    (stored : ∀ hash data, blockData store hash = some data → Addressed cfg involved hash data)
    (addressed : ∀ hash data, blockData after hash = some data → Addressed cfg involved hash data)
    {hash : TiFsHash} {data : Bytes} (found : blockData store hash = some data)
    (counted : 0 < counter after hash) : blockData after hash = some data := by
  by_cases listed : hash ∈ op.uploads.map Prod.fst
  · obtain ⟨block, member, rfl⟩ := List.mem_map.mp listed
    have isStored := effect.uploaded block member
    have new := addressed _ _ isStored
    have old := stored _ _ found
    rw [isStored, injective new.1 old.1 (new.2.trans old.2.symm)]
  · have spared : op.Spares store hash := by
      by_contra notSpared
      rw [effect.zero hash notSpared] at counted
      exact Nat.lt_irrefl 0 counted
    rw [effect.kept hash listed spared, found]

theorem SnapshotKept.ended {state : BlockSystem cfg} (kept : SnapshotKept snapshot involved first state)
    {i : Nat} {op : Op cfg} (present : state.ops[i]? = some op) (failure : Option FsError) :
    SnapshotKept snapshot involved first ⟨state.store, state.ops.set i (.ended failure)⟩ where
  covered := kept.covered.ended present failure
  outside := by
    intro other member
    rcases List.mem_or_eq_of_mem_set member with old | isNew
    · exact kept.outside other old
    · rw [isNew]
      exact fun _ _ => id
  within := by
    intro other member
    rcases List.mem_or_eq_of_mem_set member with old | isNew
    · exact kept.within other old
    · rw [isNew]
      trivial
  addressed := kept.addressed
  mappings := kept.mappings
  blocks := kept.blocks

theorem SnapshotKept.step {before after : BlockSystem cfg} {event : BlockEvent cfg}
    (injective : Set.InjOn cfg.calculateHash involved)
    (kept : SnapshotKept snapshot involved first before) (taken : before.Step event after)
    (allowed : before.Outside snapshot involved event) : SnapshotKept snapshot involved first after := by
  have covered := BlockSystem.covered_step kept.covered taken
  cases BlockSystem.effect_of_step taken with
  | spawned work =>
      refine ⟨covered, ?_, ?_, kept.addressed, kept.mappings, kept.blocks⟩
      · intro op member
        rcases List.mem_append.mp member with old | isNew
        · exact kept.outside op old
        · rw [List.mem_singleton.mp isNew]
          exact Work.start_outside allowed.1
      · intro op member
        rcases List.mem_append.mp member with old | isNew
        · exact kept.within op old
        · rw [List.mem_singleton.mp isNew]
          exact Work.start_within allowed.2
  | moved i ambient op next store present ran =>
      have member := List.mem_of_getElem? present
      have sound := kept.covered.sound op member
      obtain ⟨effect, sameInode⟩ := Op.effect_of_step sound ran
      have addressed : ∀ hash data, blockData store hash = some data → Addressed cfg involved hash data :=
        fun hash data found => effect.addressed sound (kept.within op member) kept.addressed found
      have mappings : ∀ addr : BlockAddress, addr.ino ∈ snapshot →
          mapping store addr = mapping first addr := by
        intro addr inSnapshot
        rw [effect.mappings addr (kept.outside op member addr.ino inSnapshot)]
        exact kept.mappings addr inSnapshot
      refine ⟨covered, ?_, ?_, addressed, mappings, ?_⟩
      · intro other isOther ino inSnapshot addresses
        rcases List.mem_or_eq_of_mem_set isOther with old | isNew
        · exact kept.outside other old ino inSnapshot addresses
        · rw [isNew] at addresses
          exact kept.outside op member ino inSnapshot (sameInode ino addresses)
      · intro other isOther
        rcases List.mem_or_eq_of_mem_set isOther with old | isNew
        · exact kept.within other old
        · rw [isNew]
          exact Op.within_of_step sound (kept.within op member) ran
      · intro addr hash inSnapshot isMapped
        obtain ⟨data, found, isFirst⟩ := kept.blocks addr hash inSnapshot isMapped
        -- The snapshot's own mapping keeps the counter above zero.
        have counted := covered.counter_pos_of_mapping ((mappings addr inSnapshot).trans isMapped)
        exact ⟨data, effect.block_kept injective kept.addressed addressed found counted, isFirst⟩
  | failed i ambient op issue present ran => exact kept.ended present (some issue)
  | abandoned i op present => exact kept.ended present none

theorem cached_or_stored {cache : BlocksData} (injective : Set.InjOn cfg.calculateHash involved)
    (cached : ∀ hash data, cache.lookup hash = some data → Addressed cfg involved hash data)
    {hash : TiFsHash} {data : Bytes} (addressed : Addressed cfg involved hash data) :
    (cache.lookup hash).or (some data) = some data := by
  cases hit : cache.lookup hash with
  | none => rfl
  | some other =>
      obtain ⟨isInvolved, sameHash⟩ := cached hash other hit
      rw [Option.some_or, injective isInvolved addressed.1 (sameHash.trans addressed.2.symm)]

end Kept

/-- Reads of a snapshot return the same after any run of operations on other inodes. -/
theorem snapshot_reads_same (cfg : TiFsConfig) (store : Store)
    (exact : ∀ hash, counter store hash = mapped store hash)
    (stored : ∀ addr hash, mapping store addr = some hash → (blockData store hash).isSome)
    (involved : Set Bytes) (injective : Set.InjOn cfg.calculateHash involved)
    (addressed : ∀ hash data, blockData store hash = some data → Addressed cfg involved hash data)
    (snapshot : Set StorageIno) (state : BlockSystem cfg)
    (run : Run BlockSystem.Step (BlockSystem.Outside snapshot involved) ⟨store, []⟩ state)
    (ino : StorageIno) (inSnapshot : ino ∈ snapshot) (cache later : BlocksData)
    (cached : ∀ hash data, cache.lookup hash = some data → Addressed cfg involved hash data)
    (laterCached : ∀ hash data, later.lookup hash = some data → Addressed cfg involved hash data)
    (start : Nat) (chunkSize : Option Nat) :
    (hbReadData cfg ino start chunkSize later state.store).1 =
      (hbReadData cfg ino start chunkSize cache store).1 := by
  have kept : SnapshotKept snapshot involved store state := by
    refine Run.invariant (SnapshotKept snapshot involved store) ?_ ?_ run
    · intro before event after kept taken allowed
      exact kept.step injective taken allowed
    · constructor
      · exact ⟨fun op member => absurd member List.not_mem_nil, fun hash => (exact hash).ge⟩
      · exact fun op member => absurd member List.not_mem_nil
      · exact fun op member => absurd member List.not_mem_nil
      · exact addressed
      · exact fun _ _ => rfl
      · intro addr hash _ isMapped
        obtain ⟨data, found⟩ := Option.isSome_iff_exists.mp (stored addr hash isMapped)
        exact ⟨data, found, found⟩
  obtain ⟨filled, isRead, _⟩ := hbReadData_scanned ino start chunkSize addressed cached
  obtain ⟨filledLater, isReadLater, _⟩ := hbReadData_scanned ino start chunkSize kept.addressed
    laterCached
  rw [isRead, isReadLater]
  apply congrArg Except.ok
  apply readBlocks_congr
  intro index _ _
  have sameHash : scanned cfg state.store ino index = scanned cfg store ino index := by
    rw [scanned, scanned, kept.mappings ⟨ino, index⟩ inSnapshot]
  rw [sameHash]
  cases isHash : scanned cfg store ino index with
  | none => rfl
  | some hash =>
      have isMapped : mapping store ⟨ino, index⟩ = some hash := (Option.filter_eq_some_iff.mp isHash).1
      obtain ⟨data, found, isFirst⟩ := kept.blocks ⟨ino, index⟩ hash inSnapshot isMapped
      have isAddressed := addressed hash data isFirst
      rw [Option.bind_some, Option.bind_some, found, isFirst,
        cached_or_stored injective cached isAddressed, cached_or_stored injective laterCached isAddressed]

def sharedBlock : Store :=
  applyAll ∅ [.put (.inodeX 10 .size) ⟨2, 1, 0⟩, .put (.blockHash ⟨10, 0⟩) (padHash 3 [7, 7]),
    .put (.blockHash ⟨20, 0⟩) (padHash 3 [7, 7]), .put (.hashedBlock (padHash 3 [7, 7])) [7, 7],
    .put (.countedNamedUsages (padHash 3 [7, 7])) 2]

theorem sharedBlock_mapping {addr : BlockAddress} {hash : TiFsHash}
    (found : mapping sharedBlock addr = some hash) : hash = padHash 3 [7, 7] := by
  rcases lookup_applyAll_eq_some found with none | listed
  · cases none
  · simp only [List.mem_cons, List.not_mem_nil, or_false] at listed
    rcases listed with other | first | second | other | other
    · cases other
    · cases first; rfl
    · cases second; rfl
    · cases other
    · cases other

theorem sharedBlock_exact (hash : TiFsHash) : counter sharedBlock hash = mapped sharedBlock hash := by
  by_cases same : hash = padHash 3 [7, 7]
  · rw [same]
    decide +kernel
  · have unmapped : mapped sharedBlock hash = 0 := by
      by_contra some
      obtain ⟨addr, listed⟩ := Finset.card_pos.mp (Nat.pos_of_ne_zero some)
      exact same (sharedBlock_mapping ((mem_mappedTo _ _ _).mp listed))
    rw [unmapped, counter, sharedBlock, lookup_applyAll_of_notMem]
    · rfl
    · simpa using same

theorem sharedBlock_addressed {hash : TiFsHash} {data : Bytes}
    (found : blockData sharedBlock hash = some data) :
    Addressed (paddingConfig 2 (by decide)) {data | data.length ≤ 2} hash data := by
  rcases lookup_applyAll_eq_some found with none | listed
  · cases none
  · simp only [List.mem_cons, List.not_mem_nil, or_false] at listed
    rcases listed with other | other | other | block | other
    · cases other
    · cases other
    · cases other
    · cases block
      exact ⟨by decide, rfl⟩
    · cases other

/-- The live file is overwritten and its block counted down. -/
theorem snapshot_reads_same_overwritten :
    ∃ state : BlockSystem (paddingConfig 2 (by decide)),
      Run BlockSystem.Step (BlockSystem.Outside {ino | ino = 20} {data | data.length ≤ 2})
        ⟨sharedBlock, []⟩ state ∧
      (mapping state.store ⟨10, 0⟩ = some (padHash 3 [9, 9]) ∧
        counter state.store (padHash 3 [7, 7]) = 1) ∧
      (hbReadData (paddingConfig 2 (by decide)) 20 0 (some 2) ∅ state.store).1 =
        (hbReadData (paddingConfig 2 (by decide)) 20 0 (some 2) ∅ sharedBlock).1 := by
  obtain ⟨state, run, check⟩ := BlockSystem.exists_run
    (BlockSystem.Outside {ino | ino = 20} {data | data.length ≤ 2})
    (⟨sharedBlock, []⟩ : BlockSystem (paddingConfig 2 (by decide)))
    [.spawn (.write 10 ninesPlan), .advance 0 ⟨5, 1⟩, .advance 0 ⟨5, 1⟩, .advance 0 ⟨5, 1⟩,
      .advance 0 ⟨5, 1⟩, .advance 0 ⟨5, 1⟩, .advance 0 ⟨5, 1⟩, .advance 0 ⟨5, 1⟩]
    (fun state => mapping state.store ⟨10, 0⟩ = some (padHash 3 [9, 9]) ∧
      counter state.store (padHash 3 [7, 7]) = 1) (by decide +kernel)
  refine ⟨state, run, of_decide_eq_true check, ?_⟩
  apply snapshot_reads_same _ sharedBlock sharedBlock_exact _ _ (padding_injOn (by decide))
    (fun _ _ => sharedBlock_addressed) _ state run 20 rfl
  · intro hash data found
    cases found
  · intro hash data found
    cases found
  · intro addr hash found
    rw [sharedBlock_mapping found]
    rfl

end TiFs
