import TiFs.SetAttr

/-! When `lookup`, `getattr` and `readdir` agree on an entry. A lookup gives the special
directories their own numbers and `getattr` reports the one of the root, virtual files are
found for entries that are no files, and a listing ends with the limit of a scan. -/

namespace TiFs

open KeyValue

def InoKind.nameOf : InoKind → ByteString → ByteString
  | .regular, filename => filename
  | .hash, filename => dot :: filename ++ hashSuffix
  | .hashes, filename => dot :: filename ++ hashesSuffix

/-- The attributes that a lookup has found are reported for their number, and the entry is
listed with it. -/
structure LookupAgrees (cfg : TiFsConfig) (store : Store) (parent : Nat) (name : ByteString)
    (stat : FuserFileAttr) : Prop where
  reported : Fuse.getattr cfg stat.ino store = .ok (.ok stat, store)
  listed : ∃ dir, atomically (readDir1 (LogicalIno.fromRaw parent).storageIno) store = .ok (dir, store) ∧
    ∃ item ∈ dir, item.name = name ∧ item.ino.toRaw = stat.ino

/-- Descriptions carry the number that they are stored under, which is below the limit, and
the special directories have no records. -/
structure NumberedInodes (store : Store) : Prop where
  own : ∀ ino desc, inoDescription store ino = some desc → desc.ino = ino ∧ rootInode ≤ ino ∧ ino < inodeLimit
  bare : SpecialsBare store

/-- The entry behind a name is listed under it: it is no special directory, it is within
the limit of a scan, and it is a file if the name is the one of a virtual file. -/
structure EntryListed (store : Store) (dirIno : StorageIno) (name : ByteString) : Prop where
  free : ¬ IsReserved dirIno name
  entry : ∀ filename kind, parseFilename name = some (filename, kind) →
    filename ∈ ((childNames store dirIno).sort NameLe).take maxTikvScanLimit ∧
      (kind = .regular ∨ ∀ item, dirEntry store dirIno filename = some item → item.typ = .file)

section Names

variable {name filename : ByteString} {kind : InoKind}

theorem name_of_slice {suffix : ByteString} (dotted : name.head? = some dot) (ends : suffix <:+ name)
    (cut : slice name 1 (name.length - suffix.length) = some filename) : name = dot :: filename ++ suffix := by
  obtain ⟨front, rfl⟩ := ends
  cases front with
  | nil =>
      rw [List.nil_append, Nat.sub_self, slice, if_neg (by omega)] at cut
      cases cut
  | cons first rest =>
      rw [List.cons_append, List.head?_cons] at dotted
      rw [slice_between] at cut
      rw [Option.some.inj dotted, Option.some.inj cut]

theorem name_of_parsed (parsed : parseFilename name = some (filename, kind)) : name = kind.nameOf filename := by
  unfold parseFilename at parsed
  split at parsed
  · next dotted =>
      split at parsed
      · next ends =>
          obtain ⟨part, cut, same⟩ := Option.map_eq_some_iff.mp parsed
          obtain ⟨rfl, rfl⟩ := Prod.mk.inj same
          exact name_of_slice dotted.2 ends cut
      · split at parsed
        · next ends =>
            obtain ⟨part, cut, same⟩ := Option.map_eq_some_iff.mp parsed
            obtain ⟨rfl, rfl⟩ := Prod.mk.inj same
            exact name_of_slice dotted.2 ends cut
        · obtain ⟨rfl, rfl⟩ := Prod.mk.inj (Option.some.inj parsed)
          rfl
  · obtain ⟨rfl, rfl⟩ := Prod.mk.inj (Option.some.inj parsed)
    rfl

theorem nameOf_injective {first second : ByteString} (same : kind.nameOf first = kind.nameOf second) :
    first = second := by
  cases kind with
  | regular => exact same
  | hash => exact List.append_cancel_right (List.cons.inj same).2
  | hashes => exact List.append_cancel_right (List.cons.inj same).2

theorem name_of_mem_entries {item : DirItem} {entry : DirectoryItem} (listed : item ∈ entry.entries) :
    item.name = item.ino.kind.nameOf entry.name := by
  have isName := (mem_entries listed).2
  cases kind : item.ino.kind with
  | regular =>
      rw [kind] at isName
      exact isName
  | hash =>
      rw [kind] at isName
      exact isName
  | hashes =>
      rw [kind] at isName
      exact isName

theorem file_of_mem_entries {item : DirItem} {entry : DirectoryItem} (listed : item ∈ entry.entries) :
    item.ino.kind = .regular ∨ entry.typ = .file := by
  unfold DirectoryItem.entries at listed
  split at listed
  · next isFile => exact Or.inr isFile
  · rw [List.mem_singleton.mp listed]
    exact Or.inl rfl

theorem entry_shown (entry : DirectoryItem) (shown : kind = .regular ∨ entry.typ = .file) :
    ∃ item ∈ entry.entries, item.ino = ⟨entry.ino, kind⟩ ∧ item.name = kind.nameOf entry.name := by
  unfold DirectoryItem.entries
  cases kind with
  | regular => exact ⟨entry.regularEntry, by split <;> simp, rfl, rfl⟩
  | hash =>
      have isFile := shown.resolve_left (by decide)
      exact ⟨entry.fullHashEntry, by simp [isFile], rfl, rfl⟩
  | hashes =>
      have isFile := shown.resolve_left (by decide)
      exact ⟨entry.blockHashesEntry, by simp [isFile], rfl, rfl⟩

end Names

section Agree

variable {cfg : TiFsConfig} {store : Store} {parent : Nat} {name : ByteString}

theorem readDir1_scan (store : Store) (dirIno : StorageIno) : atomically (readDir1 dirIno) store =
    .ok ((scannedChildren store dirIno).flatMap DirectoryItem.entries ++ specialEntries dirIno, store) :=
  rfl

theorem lookup_found {entry : Entry} {after : Store}
    (ran : Fuse.lookup cfg parent name store = .ok (.ok entry, after)) :
    (∃ special data, reservedIno (LogicalIno.fromRaw parent).storageIno name = some special ∧
      inoData store rootInode = some data ∧
      entry.stat = { data.stat cfg .regular with ino := LogicalIno.toRaw ⟨special, .regular⟩ }) ∨
    (∃ filename kind item data, reservedIno (LogicalIno.fromRaw parent).storageIno name = none ∧
      parseFilename name = some (filename, kind) ∧
      dirEntry store (LogicalIno.fromRaw parent).storageIno filename = some item ∧
      inoData store item.ino = some data ∧ entry.stat = data.stat cfg kind) := by
  unfold Fuse.lookup at ran
  obtain ⟨found, between, special, ran⟩ := Fuse.bind_inv ran
  cases reserved : reservedIno (LogicalIno.fromRaw parent).storageIno name with
  | some number =>
      cases isData : inoData store rootInode with
      | none =>
          obtain ⟨issue, failed⟩ : ∃ issue, lookupSpecial cfg (LogicalIno.fromRaw parent) name store =
              .ok (.error issue, store) := special_missing reserved isData
          rw [failed] at special
          cases special
      | some data =>
          rw [special_run reserved isData] at special
          obtain ⟨isFound, rfl⟩ := Prod.mk.inj (Except.ok.inj special)
          rw [← Except.ok.inj isFound] at ran
          obtain ⟨isEntry, _⟩ := Prod.mk.inj (Except.ok.inj ran)
          rw [← Except.ok.inj isEntry]
          exact Or.inl ⟨number, data, rfl, rfl, rfl⟩
  | none =>
      rw [special_none reserved] at special
      obtain ⟨isFound, rfl⟩ := Prod.mk.inj (Except.ok.inj special)
      rw [← Except.ok.inj isFound] at ran
      cases parsed : parseFilename name with
      | none =>
          rw [parsed] at ran
          cases ran
      | some parts =>
          obtain ⟨filename, kind⟩ := parts
          rw [parsed] at ran
          obtain ⟨_, first, checked, ran⟩ := Fuse.bind_inv ran
          rw [(checked_inv checked).2] at ran
          have failing : ∀ issue, lookupAllInfoLogical cfg (LogicalIno.fromRaw parent).storageIno filename kind
              store ≠ .ok (.error issue, store) := by
            intro issue failed
            rw [Fuse.bind_error failed] at ran
            cases ran
          cases isItem : dirEntry store (LogicalIno.fromRaw parent).storageIno filename with
          | none =>
              obtain ⟨issue, failed⟩ : ∃ issue, lookupAllInfoLogical cfg (LogicalIno.fromRaw parent).storageIno
                  filename kind store = .ok (.error issue, store) := child_missing (by simp [isItem])
              exact absurd failed (failing issue)
          | some item =>
              cases isData : inoData store item.ino with
              | none =>
                  obtain ⟨issue, failed⟩ : ∃ issue, lookupAllInfoLogical cfg
                      (LogicalIno.fromRaw parent).storageIno filename kind store = .ok (.error issue, store) :=
                    child_missing (by simp [isItem, isData])
                  exact absurd failed (failing issue)
              | some data =>
                  rw [Fuse.bind_ok (child_run isItem isData)] at ran
                  obtain ⟨isEntry, _⟩ := Prod.mk.inj (Except.ok.inj ran)
                  rw [← Except.ok.inj isEntry]
                  exact Or.inr ⟨filename, kind, item, data, rfl, rfl, isItem, isData, rfl⟩

theorem records_of_inoData {ino : StorageIno} {data : InoData} (found : inoData store ino = some data) :
    inoDescription store ino = some data.1 ∧ attrRecord store ino = some data.2.1 := by
  obtain ⟨desc, isDesc, rest⟩ := Option.bind_eq_some_iff.mp found
  obtain ⟨attr, isAttr, rest⟩ := Option.bind_eq_some_iff.mp rest
  obtain ⟨size, _, rfl⟩ := Option.map_eq_some_iff.mp rest
  exact ⟨isDesc, isAttr⟩

/-- A lookup of a reserved name and `getattr` report different numbers. -/
theorem special_not_reported (numbered : NumberedInodes store) {special : StorageIno} {data : InoData}
    (reserved : reservedIno (LogicalIno.fromRaw parent).storageIno name = some special)
    (found : inoData store rootInode = some data) :
    Fuse.getattr cfg (LogicalIno.toRaw ⟨special, .regular⟩) store ≠
      .ok (.ok { data.stat cfg .regular with ino := LogicalIno.toRaw ⟨special, .regular⟩ }, store) := by
  have isSpecial : special = openedInodeParentInode ∨ special = snapshotParentInode := by
    unfold reservedIno at reserved
    split at reserved
    · split at reserved
      · exact Or.inl (Option.some.inj reserved).symm
      · split at reserved
        · exact Or.inr (Option.some.inj reserved).symm
        · cases reserved
    · cases reserved
  have isNumber : data.1.ino = rootInode :=
    (numbered.own rootInode data.1 (records_of_inoData found).1).1
  have reads : Fuse.getattr cfg (LogicalIno.toRaw ⟨special, .regular⟩) store =
      .ok (.ok (data.stat cfg .regular), store) := by
    rcases isSpecial with rfl | rfl
    · exact Fuse.bind_ok (attributes_run found)
    · exact Fuse.bind_ok (attributes_run found)
  intro reported
  rw [reads] at reported
  have sameIno : LogicalIno.toRaw ⟨data.1.ino, .regular⟩ = LogicalIno.toRaw ⟨special, .regular⟩ :=
    congrArg FuserFileAttr.ino (Except.ok.inj (Prod.mk.inj (Except.ok.inj reported)).1)
  rw [isNumber] at sameIno
  rcases isSpecial with rfl | rfl
  · revert sameIno
    decide
  · revert sameIno
    decide

theorem child_reported (numbered : NumberedInodes store) {ino : StorageIno} {kind : InoKind} {data : InoData}
    (found : inoData store ino = some data) :
    data.1.ino = ino ∧
      Fuse.getattr cfg (data.stat cfg kind).ino store = .ok (.ok (data.stat cfg kind), store) := by
  obtain ⟨isDesc, isAttr⟩ := records_of_inoData found
  obtain ⟨isNumber, positive, small⟩ := numbered.own ino data.1 isDesc
  refine ⟨isNumber, ?_⟩
  have decoded : LogicalIno.fromRaw (data.stat cfg kind).ino = ⟨ino, kind⟩ := by
    rw [← isNumber] at positive small ⊢
    exact fromRaw_toRaw positive small
  rw [Fuse.getattr, decoded]
  exact getAllFileAttributes_run cfg (special_ne numbered.bare isAttr) found

/-- An entry that is not reserved is listed by its name and number if the scan returns it
and it has a file of the kind. -/
theorem child_listed_iff {dirIno : StorageIno} {filename : ByteString} {kind : InoKind} {item : StorageDirItem}
    (free : ¬ IsReserved dirIno name) (parsed : parseFilename name = some (filename, kind))
    (isItem : dirEntry store dirIno filename = some item) :
    (∃ listed ∈ (scannedChildren store dirIno).flatMap DirectoryItem.entries ++ specialEntries dirIno,
      listed.name = name ∧ listed.ino.toRaw = LogicalIno.toRaw ⟨item.ino, kind⟩) ↔
    filename ∈ ((childNames store dirIno).sort NameLe).take maxTikvScanLimit ∧
      (kind = .regular ∨ item.typ = .file) := by
  have isName := name_of_parsed parsed
  constructor
  · rintro ⟨listed, member, sameName, sameIno⟩
    rcases List.mem_append.mp member with inEntries | special
    · obtain ⟨child, scanned, shown⟩ := List.mem_flatMap.mp inEntries
      have sameKind : listed.ino.kind = kind := kind_of_toRaw sameIno
      have isChild : child.name = filename := by
        apply nameOf_injective
        rw [← isName, ← sameName, name_of_mem_entries shown, sameKind]
      obtain ⟨isEntry, within⟩ := mem_scanned_iff.mp scanned
      rw [isChild] at isEntry within
      rw [isItem] at isEntry
      refine ⟨within, ?_⟩
      rw [← sameKind, Option.some.inj isEntry]
      exact file_of_mem_entries shown
    · exfalso
      apply free
      unfold specialEntries at special
      split at special
      · next isRoot =>
          simp only [List.mem_cons, List.not_mem_nil, or_false] at special
          rcases special with rfl | rfl
          · exact ⟨isRoot, Or.inl sameName.symm⟩
          · exact ⟨isRoot, Or.inr sameName.symm⟩
      · cases special
  · rintro ⟨within, shown⟩
    obtain ⟨listed, member, isIno, listedName⟩ := entry_shown ⟨item.ino, filename, item.typ⟩ shown
    have scanned : (⟨item.ino, filename, item.typ⟩ : DirectoryItem) ∈ scannedChildren store dirIno :=
      mem_scanned_iff.mpr ⟨isItem, within⟩
    refine ⟨listed, List.mem_append_left _ (List.mem_flatMap.mpr ⟨_, scanned, member⟩), ?_, ?_⟩
    · rw [listedName, isName]
    · rw [isIno]

/-- What a lookup has found is reported by its number and listed with it exactly if the
entry is listed under the name. -/
theorem lookup_agrees_iff (cfg : TiFsConfig) (store after : Store) (parent : Nat) (name : ByteString)
    (entry : Entry) (numbered : NumberedInodes store)
    (ran : Fuse.lookup cfg parent name store = .ok (.ok entry, after)) :
    LookupAgrees cfg store parent name entry.stat ↔
      EntryListed store (LogicalIno.fromRaw parent).storageIno name := by
  rcases lookup_found ran with ⟨special, data, reserved, found, isStat⟩ |
    ⟨filename, kind, item, data, notReserved, parsed, isItem, found, isStat⟩
  · constructor
    · intro agrees
      have reported := agrees.reported
      rw [isStat] at reported
      exact absurd reported (special_not_reported numbered reserved found)
    · intro listed
      rw [reservedIno_eq_none listed.free] at reserved
      cases reserved
  · have free : ¬ IsReserved (LogicalIno.fromRaw parent).storageIno name := by
      intro isReserved
      obtain ⟨special, isSpecial, _⟩ := reservedIno_special isReserved
      rw [notReserved] at isSpecial
      cases isSpecial
    obtain ⟨isNumber, reported⟩ : data.1.ino = item.ino ∧
        Fuse.getattr cfg (data.stat cfg kind).ino store = .ok (.ok (data.stat cfg kind), store) :=
      child_reported numbered found
    have isIno : entry.stat.ino = LogicalIno.toRaw ⟨item.ino, kind⟩ := by
      rw [isStat, ← isNumber]
      rfl
    constructor
    · intro agrees
      refine ⟨free, ?_⟩
      intro otherName otherKind otherParsed
      rw [parsed] at otherParsed
      obtain ⟨rfl, rfl⟩ := Prod.mk.inj (Option.some.inj otherParsed)
      obtain ⟨dir, read, listed⟩ := agrees.listed
      rw [readDir1_scan] at read
      rw [← (Prod.mk.inj (Except.ok.inj read)).1, isIno] at listed
      obtain ⟨within, shown⟩ := (child_listed_iff free parsed isItem).mp listed
      refine ⟨within, shown.imp_right ?_⟩
      intro isFile other isOther
      rw [isItem] at isOther
      rw [← Option.some.inj isOther]
      exact isFile
    · intro listed
      obtain ⟨within, shown⟩ := listed.entry filename kind parsed
      refine ⟨?_, _, readDir1_scan store _, ?_⟩
      · rw [isStat]
        exact reported
      · rw [isIno]
        exact (child_listed_iff free parsed isItem).mpr ⟨within, shown.imp_right fun isFile => isFile item isItem⟩

end Agree

section Numbered

variable {store : Store}

theorem NumberedInodes.writes {writes : List Write} (numbered : NumberedInodes store)
    (descriptions : ∀ ino desc, Mutation.put (.inodeX ino .description) desc ∈ writes →
      desc.ino = ino ∧ rootInode ≤ ino ∧ ino < inodeLimit)
    (attributes : ∀ ino inoAttr, Mutation.put (.inodeX ino .unixAttributes) inoAttr ∈ writes →
      ino ≠ openedInodeParentInode ∧ ino ≠ snapshotParentInode) : NumberedInodes (applyAll store writes) where
  own := by
    intro ino desc found
    rcases lookup_applyAll_eq_some found with old | new
    · exact numbered.own ino desc old
    · exact descriptions ino desc new
  bare := by
    constructor
    · rw [attrRecord, Option.eq_none_iff_forall_not_mem]
      intro inoAttr found
      rcases lookup_applyAll_eq_some found with old | new
      · exact absurd (numbered.bare.1.symm.trans old) (Option.some_ne_none inoAttr).symm
      · exact (attributes _ inoAttr new).1 rfl
    · rw [attrRecord, Option.eq_none_iff_forall_not_mem]
      intro inoAttr found
      rcases lookup_applyAll_eq_some found with old | new
      · exact absurd (numbered.bare.2.symm.trans old) (Option.some_ne_none inoAttr).symm
      · exact (attributes _ inoAttr new).2 rfl

theorem NumberedInodes.created {args : NewInode} {newIno : StorageIno} {now : SystemTime}
    (numbered : NumberedInodes store) (positive : rootInode ≤ newIno) (small : newIno < inodeLimit)
    (notSpecial : newIno ≠ openedInodeParentInode ∧ newIno ≠ snapshotParentInode) :
    NumberedInodes (applyAll store (createdWrites args newIno now)) := by
  apply numbered.writes
  · intro ino desc listed
    obtain ⟨rfl, isNumber⟩ := description_of_createdWrites listed
    exact ⟨isNumber, positive, small⟩
  · intro ino inoAttr listed
    rw [createdWrites, List.mem_append] at listed
    rcases listed with first | last
    · simp only [Mutation.put, List.mem_cons, Mutation.mk.injEq, Key.inodeX.injEq, reduceCtorEq, and_true,
        and_false, false_and, List.not_mem_nil, or_false, false_or] at first
      rw [first.1]
      exact notSpecial
    · split at last
      · simp [Mutation.put] at last
      · cases last

end Numbered

theorem numbered_rootWithFile : NumberedInodes rootWithFile := by
  have blank : NumberedInodes (∅ : Store) := ⟨fun ino desc found => (by simp [inoDescription] at found), rfl, rfl⟩
  have initial : NumberedInodes (Operation.initStore (paddingConfig 2 Nat.two_pos) ⟨0, 0, .reserve⟩ 1) := by
    refine NumberedInodes.created (blank.writes ?_ ?_) (by decide) (by decide) (by decide)
    · intro ino desc listed
      simp [initWrites, Mutation.put] at listed
    · intro ino inoAttr listed
      simp [initWrites, Mutation.put] at listed
  have reserved : NumberedInodes (applyAll (Operation.initStore (paddingConfig 2 Nat.two_pos) ⟨0, 0, .reserve⟩ 1)
      [Mutation.put .metaMutable ⟨11⟩]) := by
    apply initial.writes
    · intro ino desc listed
      simp [Mutation.put] at listed
    · intro ino inoAttr listed
      simp [Mutation.put] at listed
  -- the reservation of the number is the first of the writes
  have parts : rootWithFile =
      applyAll (applyAll (Operation.initStore (paddingConfig 2 Nat.two_pos) ⟨0, 0, .reserve⟩ 1)
        [Mutation.put .metaMutable ⟨11⟩]) (createdWrites (Operation.rootChild [97] .file) 10 2) := by
    rw [rootWithFile, applyAll_cons, applyAll_cons, applyAll_nil]
  rw [parts]
  exact reserved.created (by decide) (by decide) (by decide)

/-- The block hashes of the file `a`. -/
theorem lookup_agrees_hashes : ∃ entry,
    Fuse.lookup (paddingConfig 2 Nat.two_pos) 1 (dot :: [97] ++ hashesSuffix) rootWithFile =
      .ok (.ok entry, rootWithFile) ∧
    LookupAgrees (paddingConfig 2 Nat.two_pos) rootWithFile 1 (dot :: [97] ++ hashesSuffix) entry.stat := by
  have ran : ∃ entry, Fuse.lookup (paddingConfig 2 Nat.two_pos) 1 (dot :: [97] ++ hashesSuffix) rootWithFile =
      .ok (.ok entry, rootWithFile) := ⟨_, rfl⟩
  obtain ⟨entry, ran⟩ := ran
  refine ⟨entry, ran, (lookup_agrees_iff _ _ _ _ _ _ numbered_rootWithFile ran).mpr ⟨by decide, ?_⟩⟩
  intro filename kind parsed
  rw [parse_hashes] at parsed
  obtain ⟨rfl, rfl⟩ := Prod.mk.inj (Option.some.inj parsed)
  refine ⟨?_, Or.inr ?_⟩
  · have names : childNames rootWithFile rootInode = {[97]} := by decide +kernel
    have isRoot : (LogicalIno.fromRaw 1).storageIno = rootInode := rfl
    rw [isRoot, names, Finset.sort_singleton]
    exact List.mem_singleton_self _
  · intro item found
    rw [(dirEntry_rootWithFile found).2]

/-- `.@snapshots` is looked up in the root, and `getattr` of its number reports the number
of the root. -/
theorem snapshots_not_reported :
    ¬ ∀ (cfg : TiFsConfig) (store after : Store) (parent : Nat) (name : ByteString) (entry : Entry),
      NumberedInodes store → Fuse.lookup cfg parent name store = .ok (.ok entry, after) →
      LookupAgrees cfg store parent name entry.stat := by
  intro claim
  have ran : ∃ entry data, Fuse.lookup (paddingConfig 2 Nat.two_pos) 1 snapshotParentInodeName rootWithFile =
      .ok (.ok entry, rootWithFile) ∧ inoData rootWithFile rootInode = some data ∧
      entry.stat = { data.stat (paddingConfig 2 Nat.two_pos) .regular with
        ino := LogicalIno.toRaw ⟨snapshotParentInode, .regular⟩ } := ⟨_, _, rfl, rfl, rfl⟩
  obtain ⟨entry, data, ran, found, isStat⟩ := ran
  have reported := (claim _ _ _ 1 snapshotParentInodeName entry numbered_rootWithFile ran).reported
  rw [isStat] at reported
  have reserved : reservedIno (LogicalIno.fromRaw 1).storageIno snapshotParentInodeName =
      some snapshotParentInode := rfl
  exact special_not_reported numbered_rootWithFile reserved found reported

end TiFs
