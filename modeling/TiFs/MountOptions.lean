import Mathlib.Data.List.Basic

/-! Mount options: how the arguments of the command line become options, and how `main`
writes the options into the one argument of the process that it starts again. -/

namespace TiFs

abbrev Text := List Char

inductive MountOption where
  | unknown (text : Text)
  | dev
  | noDev
  | suid
  | noSuid
  | ro
  | rw
  | exec
  | noExec
  | dirSync
  | atime
  | noAtime
  | directIo
  | blkSize (value : Text)
  | maxSize (value : Text)
  | tls (value : Text)
  | name (value : Text)
  | inodeCacheSize (value : Text)
  | hashedBlocks
  | hashedBlocksCacheSize (value : Text)
  | noMtime
  | validateWrites
  | validateReadHashes
  | pureRaw
  | noExistenceCheck
  | parallelJobs (value : Text)
  | parallelJobsDelete (value : Text)
  | maxChunkSize (value : Text)
  | writeInProgressLimit (value : Text)
  | readAheadSize (value : Text)
  | readAheadInProgressLimit (value : Text)
  | hashAlgorithm (value : Text)
  | inlineDataLimit (value : Text)
  | smallTxns
  | writeAccumulatorFlushThreshold (value : Text)
  deriving DecidableEq, Repr

/-- What an arm of `from_str` makes of the value behind the name. -/
inductive OptionKind where
  | flag (option : MountOption)
  | valued (make : Text → MountOption)

/-- One line of `define_options`: the identifier, and the literal in front of it. -/
structure OptionDefinition where
  literal : Option String
  ident : String
  kind : OptionKind

namespace OptionDefinition

/-- `stringify!([<$opt:lower>])`. -/
def lower (ident : String) : Text := ident.toList.map Char.toLower

/-- The first of the literal and the identifier, which is the one that texts carry. -/
def spelling (literal : Option String) (ident : String) : Text :=
  match literal with
  | some newoptname => newoptname.toList
  | none => lower ident

/-- The pattern of the arm; with a literal the identifier is only in the guard. -/
def accepts (definition : OptionDefinition) (optname : Text) : Bool :=
  match definition.literal with
  | some newoptname => optname = newoptname.toList ∧ [] ≠ lower definition.ident
  | none => optname = lower definition.ident

end OptionDefinition

open OptionKind OptionDefinition

namespace MountOption

def definitions : List OptionDefinition :=
  [⟨none, "Dev", flag dev⟩,
   ⟨none, "NoDev", flag noDev⟩,
   ⟨none, "Suid", flag suid⟩,
   ⟨none, "NoSuid", flag noSuid⟩,
   ⟨none, "RO", flag ro⟩,
   ⟨none, "RW", flag rw⟩,
   ⟨none, "Exec", flag exec⟩,
   ⟨none, "NoExec", flag noExec⟩,
   ⟨none, "DirSync", flag dirSync⟩,
   ⟨none, "Atime", flag atime⟩,
   ⟨none, "NoAtime", flag noAtime⟩,
   ⟨some "direct_io", "DirectIO", flag directIo⟩,
   ⟨none, "BlkSize", valued blkSize⟩,
   ⟨none, "MaxSize", valued maxSize⟩,
   ⟨none, "Tls", valued tls⟩,
   ⟨none, "Name", valued name⟩,
   ⟨none, "InodeCacheSize", valued inodeCacheSize⟩,
   ⟨none, "HashedBlocks", flag hashedBlocks⟩,
   ⟨none, "HashedBlocksCacheSize", valued hashedBlocksCacheSize⟩,
   ⟨none, "NoMtime", flag noMtime⟩,
   ⟨none, "ValidateWrites", flag validateWrites⟩,
   ⟨none, "ValidateReadHashes", flag validateReadHashes⟩,
   ⟨none, "PureRaw", flag pureRaw⟩,
   ⟨none, "NoExistenceCheck", flag noExistenceCheck⟩,
   ⟨none, "ParallelJobs", valued parallelJobs⟩,
   ⟨none, "ParallelJobsDelete", valued parallelJobsDelete⟩,
   ⟨none, "MaxChunkSize", valued maxChunkSize⟩,
   ⟨none, "WriteInProgressLimit", valued writeInProgressLimit⟩,
   ⟨none, "ReadAheadSize", valued readAheadSize⟩,
   ⟨none, "ReadAheadInProgressLimit", valued readAheadInProgressLimit⟩,
   ⟨none, "HashAlgorithm", valued hashAlgorithm⟩,
   ⟨none, "InlineDataLimit", valued inlineDataLimit⟩,
   ⟨none, "SmallTxns", flag smallTxns⟩,
   ⟨none, "WriteAccumulatorFlushThreshold", valued writeAccumulatorFlushThreshold⟩]

/-- `splitn(2, '=')`: what is in front of the first equals sign, and what is behind it. -/
def splitName (fullopt : Text) : Text × Option Text :=
  match fullopt.dropWhile (· ≠ '=') with
  | [] => (fullopt, none)
  | _ :: optval => (fullopt.takeWhile (· ≠ '='), some optval)

def fromStr (fullopt : Text) : Except Text MountOption :=
  let (optname, given) := splitName fullopt
  let optval := given.getD []
  let (parsed, optvalUsed) :=
    match definitions.find? (·.accepts optname) with
    | some ⟨_, _, flag option⟩ => (option, false)
    | some ⟨_, _, valued make⟩ => (make optval, true)
    | none => (unknown fullopt, false)
  if !optvalUsed && given.isSome then
    .error ("Option ".toList ++ optname ++ " do not accept an argument".toList)
  else if optvalUsed && !given.isSome then
    .error ("Argument for ".toList ++ optname ++ " is not supplied".toList)
  else .ok parsed

/-- `From<T>`. -/
def ofText (fullopt : Text) : MountOption :=
  match fromStr fullopt with
  | .ok option => option
  | .error _ => unknown fullopt

/-- `String::from(&MountOption)`. -/
def text : MountOption → Text
  | unknown value => value
  | dev => spelling none "Dev"
  | noDev => spelling none "NoDev"
  | suid => spelling none "Suid"
  | noSuid => spelling none "NoSuid"
  | ro => spelling none "RO"
  | rw => spelling none "RW"
  | exec => spelling none "Exec"
  | noExec => spelling none "NoExec"
  | dirSync => spelling none "DirSync"
  | atime => spelling none "Atime"
  | noAtime => spelling none "NoAtime"
  | directIo => spelling (some "direct_io") "DirectIO"
  | blkSize value => spelling none "BlkSize" ++ '=' :: value
  | maxSize value => spelling none "MaxSize" ++ '=' :: value
  | tls value => spelling none "Tls" ++ '=' :: value
  | name value => spelling none "Name" ++ '=' :: value
  | inodeCacheSize value => spelling none "InodeCacheSize" ++ '=' :: value
  | hashedBlocks => spelling none "HashedBlocks"
  | hashedBlocksCacheSize value => spelling none "HashedBlocksCacheSize" ++ '=' :: value
  | noMtime => spelling none "NoMtime"
  | validateWrites => spelling none "ValidateWrites"
  | validateReadHashes => spelling none "ValidateReadHashes"
  | pureRaw => spelling none "PureRaw"
  | noExistenceCheck => spelling none "NoExistenceCheck"
  | parallelJobs value => spelling none "ParallelJobs" ++ '=' :: value
  | parallelJobsDelete value => spelling none "ParallelJobsDelete" ++ '=' :: value
  | maxChunkSize value => spelling none "MaxChunkSize" ++ '=' :: value
  | writeInProgressLimit value => spelling none "WriteInProgressLimit" ++ '=' :: value
  | readAheadSize value => spelling none "ReadAheadSize" ++ '=' :: value
  | readAheadInProgressLimit value => spelling none "ReadAheadInProgressLimit" ++ '=' :: value
  | hashAlgorithm value => spelling none "HashAlgorithm" ++ '=' :: value
  | inlineDataLimit value => spelling none "InlineDataLimit" ++ '=' :: value
  | smallTxns => spelling none "SmallTxns"
  | writeAccumulatorFlushThreshold value => spelling none "WriteAccumulatorFlushThreshold" ++ '=' :: value

def toVec (iter : List Text) : List MountOption :=
  iter.flatMap fun argument => (argument.splitOn ',').map ofText

/-- The argument behind `-o` with which `main` starts the process again. -/
def reexecArgument (options : List MountOption) : Text := [','].intercalate (options.map text)

def Spelled (definition : OptionDefinition) : Prop :=
  match definition.kind with
  | flag option => option.text = spelling definition.literal definition.ident
  | valued make => ∀ value, (make value).text = spelling definition.literal definition.ident ++ '=' :: value

theorem spelled_of_mem {definition : OptionDefinition} (listed : definition ∈ definitions) :
    Spelled definition := by
  simp only [definitions, List.mem_cons, List.not_mem_nil, or_false] at listed
  casesm* _ ∨ _ <;> subst listed <;> simp only [Spelled, text, implies_true]

theorem spelling_of_accepts {definition : OptionDefinition} {optname : Text}
    (accepted : definition.accepts optname = true) :
    optname = spelling definition.literal definition.ident := by
  unfold accepts at accepted
  unfold spelling
  cases literal : definition.literal with
  | none =>
      rw [literal] at accepted
      exact of_decide_eq_true accepted
  | some newoptname =>
      rw [literal] at accepted
      exact (of_decide_eq_true accepted).1

theorem splitName_join (fullopt : Text) :
    fullopt = (splitName fullopt).1 ++ ((splitName fullopt).2.map fun optval => '=' :: optval).getD [] := by
  have whole := List.takeWhile_append_dropWhile (p := (· ≠ '=')) (l := fullopt)
  unfold splitName
  cases behind : fullopt.dropWhile (· ≠ '=') with
  | nil => simp
  | cons first optval =>
      have isEquals : first = '=' := by
        have stopped := List.head?_dropWhile_not (· ≠ '=') fullopt
        rw [behind] at stopped
        simpa using stopped
      rw [behind, isEquals] at whole
      exact whole.symm

theorem text_ofText (fullopt : Text) : (ofText fullopt).text = fullopt := by
  have whole := splitName_join fullopt
  unfold ofText fromStr
  generalize splitName fullopt = parts at whole ⊢
  obtain ⟨optname, given⟩ := parts
  cases found : definitions.find? (·.accepts optname) with
  | none =>
      simp only [found]
      cases given <;> rfl
  | some definition =>
      have isName : optname = spelling definition.literal definition.ident :=
        spelling_of_accepts (by simpa using List.find?_some found)
      have spelled := spelled_of_mem (List.mem_of_find?_eq_some found)
      obtain ⟨literal, ident, kind⟩ := definition
      simp only [found]
      cases kind with
      | flag option =>
          cases given with
          | none =>
              rw [whole, isName]
              exact Eq.trans spelled (List.append_nil _).symm
          | some optval => rfl
      | valued make =>
          cases given with
          | none => rfl
          | some optval =>
              rw [whole, isName]
              exact spelled optval

theorem notMem_of_mem_splitOn {separator : Char} {argument piece : Text}
    (listed : piece ∈ argument.splitOn separator) : separator ∉ piece := by
  induction argument generalizing piece with
  | nil =>
      rw [List.splitOn_nil, List.mem_singleton] at listed
      rw [listed]
      exact List.not_mem_nil
  | cons head tail ih =>
      rw [List.splitOn_cons_eq_if_modifyHead] at listed
      split at listed
      · rcases List.mem_cons.mp listed with rfl | later
        · exact List.not_mem_nil
        · exact ih later
      · next different =>
          obtain ⟨first, rest, pieces⟩ := List.exists_cons_of_ne_nil (List.splitOn_ne_nil separator tail)
          rw [pieces, List.modifyHead_cons] at listed
          rcases List.mem_cons.mp listed with rfl | later
          · have notFirst := ih (by rw [pieces]; exact List.mem_cons_self)
            rw [List.mem_cons, not_or]
            exact ⟨fun same => different (by simp [same]), notFirst⟩
          · exact ih (by rw [pieces]; exact List.mem_cons_of_mem _ later)

theorem toVec_eq_map (args : List Text) : toVec args = (args.flatMap (·.splitOn ',')).map ofText := by
  rw [toVec, List.map_flatMap]

/-- The options survive the start of the second process. -/
theorem toVec_reexec (args : List Text) (nonempty : toVec args ≠ []) :
    toVec [reexecArgument (toVec args)] = toVec args := by
  rw [toVec_eq_map args] at nonempty ⊢
  have pieces : ∀ piece ∈ args.flatMap (·.splitOn ','), ',' ∉ piece := by
    intro piece listed
    obtain ⟨argument, _, cut⟩ := List.mem_flatMap.mp listed
    exact notMem_of_mem_splitOn cut
  have texts : ((args.flatMap (·.splitOn ',')).map ofText).map text = args.flatMap (·.splitOn ',') := by
    rw [List.map_map]
    exact (List.map_congr_left fun piece _ => text_ofText piece).trans (List.map_id _)
  rw [toVec_eq_map, List.flatMap_singleton, reexecArgument, texts,
    List.splitOn_intercalate ',' pieces (fun none => nonempty (by rw [none]; rfl))]

/-- A literal spelling, a value with an equals sign, a superfluous value and a missing one. -/
theorem toVec_reexec_mixed :
    toVec ["direct_io".toList, "tls=a=b,dev=1".toList, "blksize".toList] =
      [directIo, tls "a=b".toList, unknown "dev=1".toList, unknown "blksize".toList] ∧
    toVec [reexecArgument (toVec ["direct_io".toList, "tls=a=b,dev=1".toList, "blksize".toList])] =
      toVec ["direct_io".toList, "tls=a=b,dev=1".toList, "blksize".toList] :=
  ⟨by decide +kernel, toVec_reexec _ (by decide +kernel)⟩

end MountOption

end TiFs
