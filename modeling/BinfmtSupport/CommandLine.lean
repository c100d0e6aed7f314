import BinfmtSupport.Actions
import BinfmtSupport.Find

/-!
The option parser and main of update-binfmts. argp hands each option with its
argument to parse_opt, and for the modes also the elements of argv that follow;
after the last option the whole set is checked. Any complaint ends the process
with status 2 before either store is touched. The lists of options are the calls of
parse_opt and not argv; the warnings that parse_opt prints itself, where access() finds
no executable, are left out.
-/
namespace BinfmtSupport.CommandLine

open CText Kvhash Format Regstring Journal Stores Actions

inductive Mode
  | install
  | remove
  | import
  | display
  | enable
  | disable
  | find
deriving DecidableEq, Repr

inductive SpecType
  | magic
  | extension
deriving DecidableEq, Repr

/-- One call of parse_opt. A mode comes with what follows it in argv. -/
inductive Opt
  | mode (m : Mode) (following : List Text)
  | magic (arg : Text)
  | mask (arg : Text)
  | offset (arg : Text)
  | extension (arg : Text)
  | detector (arg : Text)
  | credentials (arg : Text)
  | preserve (arg : Text)
  | package (arg : Text)
  | test
deriving DecidableEq

/-- The static variables that parse_opt fills. -/
structure Options where
  mode : Option Mode
  type : Option SpecType
  name : Option Text
  executable : Option Text
  package : Option Text
  magic : Option Text
  mask : Option Text
  offset : Option Text
  extension : Option Text
  interpreter : Option Text
  detector : Option Text
  credentials : Option Text
  preserve : Option Text
  test : Bool
deriving DecidableEq

def Options.none : Options :=
  ⟨.none, .none, .none, .none, .none, .none, .none, .none, .none, .none, .none, .none, .none,
    false⟩

inductive UsageError
  | twoModes (first second : Mode)
  | twoSpecifications (first second : SpecType)
  | needsNameAndPath (mode : Mode)
  | needsPath
  | moreThanOne (option : Text)
  | offsetNotWhole
  | noMode
  | noSpecification
  | reserved (name : Text)
deriving DecidableEq

/-- The mode/type processing at the start of parse_opt. -/
def setMode (o : Options) (m : Mode) : Except UsageError Options :=
  match o.mode with
  | some first => .error (.twoModes first m)
  | none => .ok { o with mode := some m }

def setType (o : Options) (t : SpecType) : Except UsageError Options :=
  match o.type with
  | some first => .error (.twoSpecifications first t)
  | none => .ok { o with type := some t }

def takeOperands (o : Options) (m : Mode) (following : List Text) :
    Except UsageError Options :=
  match m, following with
  | .install, name :: path :: _ => .ok { o with name := name, interpreter := path }
  | .remove, name :: path :: _ => .ok { o with name := name, interpreter := path }
  | .install, _ => .error (.needsNameAndPath m)
  | .remove, _ => .error (.needsNameAndPath m)
  | .find, path :: _ => .ok { o with executable := path }
  | .find, [] => .error .needsPath
  | _, name :: _ => .ok { o with name := name }
  | _, [] => .ok o

def isWholeNumber (offset : Text) : Bool := offset.all isdigit

def parseOpt (o : Options) : Opt → Except UsageError Options
  | .mode m following => do takeOperands (← setMode o m) m following
  | .magic arg => do return { ← setType o .magic with magic := some arg }
  | .extension arg => do return { ← setType o .extension with extension := some arg }
  | .mask arg =>
      if o.mask.isSome then .error (.moreThanOne (text "mask"))
      else .ok { o with mask := some arg }
  | .offset arg =>
      if o.offset.isSome then .error (.moreThanOne (text "offset"))
      else if isWholeNumber arg then .ok { o with offset := some arg }
      else .error .offsetNotWhole
  | .detector arg =>
      if o.detector.isSome then .error (.moreThanOne (text "detector"))
      else .ok { o with detector := some arg }
  | .credentials arg => .ok { o with credentials := some arg }
  | .preserve arg => .ok { o with preserve := some arg }
  | .package arg =>
      if o.package.isSome then .error (.moreThanOne (text "package"))
      else .ok { o with package := some arg }
  | .test => .ok { o with test := true }

/-- ARGP_KEY_SUCCESS -/
def parseSuccess (o : Options) : Except UsageError Options :=
  match o.mode with
  | none => .error .noMode
  | some .install =>
      if o.type.isNone then .error .noSpecification
      else if (o.name.map isReserved).getD false then .error (.reserved (o.name.getD []))
      else .ok o
  | some _ => .ok o

def parseFrom (o : Options) : List Opt → Except UsageError Options
  | [] => parseSuccess o
  | opt :: rest => do parseFrom (← parseOpt o opt) rest

def parse (opts : List Opt) : Except UsageError Options := parseFrom .none opts

section Parsing

/-- The check of the whole set changes nothing in it. -/
theorem parseFrom_nil {o₀ o : Options} (h : parseFrom o₀ [] = .ok o) : o = o₀ := by
  unfold parseFrom parseSuccess at h
  split at h
  · cases h
  · split at h
    · cases h
    · split at h <;> cases h
      rfl
  · cases h
    rfl

/-- The option --test changes nothing in what the other options are taken for. -/
theorem parseOpt_test {o o' : Options} {opt : Opt} (h : parseOpt o opt = .ok o') :
    parseOpt { o with test := true } opt = .ok { o' with test := true } := by
  cases opt with
  | mode m following =>
    rw [parseOpt, setMode] at h ⊢
    split at h
    · cases h
    · rename_i hmode
      simp only [hmode]
      change takeOperands { o with mode := some m } m following = .ok o' at h
      change takeOperands { o with mode := some m, test := true } m following = _
      unfold takeOperands at h ⊢
      split at h <;> cases h <;> rfl
  | magic arg | extension arg =>
    rw [parseOpt, setType] at h ⊢
    split at h <;> cases h
    rename_i htype
    simp only [htype]
    rfl
  | offset arg =>
    rw [parseOpt] at h ⊢
    split at h
    · cases h
    · rename_i hfirst
      split at h <;> cases h
      rename_i hdigits
      rw [if_neg hfirst, if_pos hdigits]
  | mask arg | detector arg | package arg =>
    rw [parseOpt] at h ⊢
    split at h <;> cases h
    rename_i hfirst
    rw [if_neg hfirst]
  | credentials arg | preserve arg | test =>
    cases h
    rfl

theorem parseFrom_test {o o₀ : Options} {opts : List Opt} (h : parseFrom o₀ opts = .ok o) :
    parseFrom { o₀ with test := true } opts = .ok { o with test := true } := by
  induction opts generalizing o₀ with
  | nil =>
    obtain rfl := parseFrom_nil h
    rw [parseFrom, parseSuccess] at h ⊢
    cases hmode : o.mode with
    | none => simp [hmode] at h
    | some mode =>
      simp only [hmode] at h ⊢
      cases mode with
      | install =>
        simp only at h ⊢
        split at h
        · cases h
        · rename_i htype
          rw [if_neg htype]
          split at h
          · cases h
          · rename_i hname
            rw [if_neg hname]
      | _ => rfl
  | cons opt rest ih =>
    rw [parseFrom] at h ⊢
    cases hopt : parseOpt o₀ opt with
    | error e =>
      rw [hopt] at h
      cases h
    | ok o₁ =>
      rw [hopt] at h
      rw [parseOpt_test hopt]
      exact ih h

/-- The same options with --test among them. -/
theorem parse_test {o : Options} {before after : List Opt} (h : parse (before ++ after) = .ok o) :
    parse (before ++ .test :: after) = .ok { o with test := true } := by
  have hfrom : ∀ (before : List Opt) (o₀ : Options), parseFrom o₀ (before ++ after) = .ok o →
      parseFrom o₀ (before ++ .test :: after) = .ok { o with test := true } := by
    intro before
    induction before with
    | nil => exact fun o₀ h => parseFrom_test h
    | cons opt rest ih =>
      intro o₀ h
      rw [List.cons_append, parseFrom] at h ⊢
      cases hopt : parseOpt o₀ opt with
      | error e =>
        rw [hopt] at h
        cases h
      | ok o₁ =>
        rw [hopt] at h
        exact ih o₁ h
  exact hfrom before .none h

/-- What the initial options have and every call of parse_opt keeps, the result has. -/
theorem parse_induction {P : Options → Prop} (hnone : P .none)
    (hstep : ∀ o opt o', P o → parseOpt o opt = .ok o' → P o') {opts : List Opt} {o : Options}
    (hparse : parse opts = .ok o) : P o ∧ parseSuccess o = .ok o := by
  have hfrom : ∀ (opts : List Opt) (o₀ : Options), P o₀ → parseFrom o₀ opts = .ok o →
      P o ∧ parseSuccess o = .ok o := by
    intro opts
    induction opts with
    | nil =>
      intro o₀ h₀ h
      have hsame := parseFrom_nil h
      subst hsame
      exact ⟨h₀, h⟩
    | cons opt rest ih =>
      intro o₀ h₀ h
      rw [parseFrom] at h
      cases hopt : parseOpt o₀ opt with
      | error e =>
        rw [hopt] at h
        cases h
      | ok o₁ =>
        rw [hopt] at h
        exact ih o₁ (hstep o₀ opt o₁ h₀ hopt) h
  exact hfrom opts .none hnone hparse

def Options.spec (o : Options) : Option SpecType × Option Text × Option Text × Option Text :=
  (o.type, o.magic, o.extension, o.offset)

/-- What one option does to them: a type comes with its text and comes once, and an
offset consists of digits. -/
theorem parseOpt_cases {o o' : Options} {opt : Opt} (h : parseOpt o opt = .ok o') :
    o'.spec = o.spec ∨
    (∃ arg, o.type = none ∧ o'.spec = (some .magic, some arg, o.extension, o.offset)) ∨
    (∃ arg, o.type = none ∧ o'.spec = (some .extension, o.magic, some arg, o.offset)) ∨
    (∃ arg, isWholeNumber arg = true ∧
      o'.spec = (o.type, o.magic, o.extension, some arg)) := by
  cases opt with
  | mode m following =>
    left
    rw [parseOpt, setMode] at h
    split at h
    · cases h
    · change takeOperands { o with mode := some m } m following = .ok o' at h
      unfold takeOperands at h
      split at h <;> cases h <;> rfl
  | magic arg =>
    right
    left
    rw [parseOpt, setType] at h
    split at h
    · cases h
    · rename_i htype
      cases h
      exact ⟨arg, htype, rfl⟩
  | extension arg =>
    right
    right
    left
    rw [parseOpt, setType] at h
    split at h
    · cases h
    · rename_i htype
      cases h
      exact ⟨arg, htype, rfl⟩
  | offset arg =>
    right
    right
    right
    rw [parseOpt] at h
    split at h
    · cases h
    · split at h
      · rename_i hdigits
        cases h
        exact ⟨arg, hdigits, rfl⟩
      · cases h
  | mask arg =>
    left
    rw [parseOpt] at h
    split at h <;> cases h
    rfl
  | detector arg =>
    left
    rw [parseOpt] at h
    split at h <;> cases h
    rfl
  | package arg =>
    left
    rw [parseOpt] at h
    split at h <;> cases h
    rfl
  | credentials arg =>
    left
    cases h
    rfl
  | preserve arg =>
    left
    cases h
    rfl
  | test =>
    left
    cases h
    rfl

/-- What the parser makes sure of: the text of the chosen type is there, and the offset,
if there is one, consists of digits. -/
structure Checked (o : Options) : Prop where
  magic : o.type = some .magic → o.magic.isSome = true
  extension : o.type = some .extension → o.extension.isSome = true
  offset : ∀ offset, o.offset = some offset → isWholeNumber offset = true

theorem checked_parseOpt {o o' : Options} {opt : Opt} (h : Checked o)
    (hopt : parseOpt o opt = .ok o') : Checked o' := by
  rcases parseOpt_cases hopt with heq | ⟨arg, -, heq⟩ | ⟨arg, -, heq⟩ | ⟨arg, hdigits, heq⟩
  all_goals
    simp only [Options.spec, Prod.mk.injEq] at heq
    obtain ⟨htype, hmagic, hextension, hoffset⟩ := heq
  · refine ⟨?_, ?_, ?_⟩
    · rw [htype, hmagic]
      exact h.magic
    · rw [htype, hextension]
      exact h.extension
    · rw [hoffset]
      exact h.offset
  · refine ⟨fun _ => by rw [hmagic]; rfl, ?_, ?_⟩
    · rw [htype]
      intro hne
      cases hne
    · rw [hoffset]
      exact h.offset
  · refine ⟨?_, fun _ => by rw [hextension]; rfl, ?_⟩
    · rw [htype]
      intro hne
      cases hne
    · rw [hoffset]
      exact h.offset
  · refine ⟨?_, ?_, ?_⟩
    · rw [htype, hmagic]
      exact h.magic
    · rw [htype, hextension]
      exact h.extension
    · intro offset ho
      rw [hoffset, Option.some.injEq] at ho
      rw [← ho]
      exact hdigits

theorem checked_of_parse {opts : List Opt} {o : Options} (h : parse opts = .ok o) :
    Checked o := by
  have hnone : Checked .none := by
    refine ⟨?_, ?_, ?_⟩
    · intro htype
      cases htype
    · intro htype
      cases htype
    · intro offset ho
      cases ho
  exact (parse_induction hnone (fun _ _ _ => checked_parseOpt) h).1

/-- An installation has a specification, and its name is not one of procdir's own. -/
theorem installable_of_parse {opts : List Opt} {o : Options} (hparse : parse opts = .ok o)
    (hmode : o.mode = some .install) :
    o.type.isSome = true ∧ isReserved (o.name.getD []) = false := by
  have hsuccess := (parse_induction (P := fun _ => True) trivial (fun _ _ _ _ _ => trivial)
    hparse).2
  rw [parseSuccess, hmode] at hsuccess
  simp only at hsuccess
  split at hsuccess
  · cases hsuccess
  · rename_i htype
    split at hsuccess
    · cases hsuccess
    · rename_i hname
      refine ⟨Option.isSome_iff_ne_none.mpr (by simpa using htype), ?_⟩
      cases hn : o.name with
      | none => rfl
      | some name => simpa [hn] using hname

end Parsing

/-- ADD_SPEC: only options that were given go into the table. -/
def addSpec (args : Arguments) (key : String) (value : Option Text) : Arguments :=
  match value with
  | some value => kvhashInsert args (text key) (some value)
  | none => args

def packageOf (o : Options) : Text := o.package.getD [colon]

def formatArgs (o : Options) : Arguments :=
  let args := kvhashInsert ∅ (text "package") (some (packageOf o))
  let args := kvhashInsert args (text "type")
    (some (if o.type = some .magic then text "magic" else text "extension"))
  let args := addSpec args "magic" o.magic
  let args := addSpec args "mask" o.mask
  let args := addSpec args "offset" o.offset
  let args := addSpec args "extension" o.extension
  let args := addSpec args "interpreter" o.interpreter
  let args := addSpec args "detector" o.detector
  let args := addSpec args "credentials" o.credentials
  addSpec args "preserve" o.preserve

section Table

def given (members : List (String × Option Text)) : List (Text × Option Text) :=
  members.filterMap (fun member => member.2.map (fun value => (text member.1, some value)))

theorem mem_given {members : List (String × Option Text)} {entry : Text × Option Text}
    (h : entry ∈ given members) : ∃ member ∈ members, text member.1 = entry.1 ∧
      ∃ value, member.2 = some value ∧ entry.2 = some value := by
  obtain ⟨member, hmem, hvalue⟩ := List.mem_filterMap.mp h
  obtain ⟨value, hsome, rfl⟩ := Option.map_eq_some_iff.mp hvalue
  exact ⟨member, hmem, rfl, value, hsome, rfl⟩

theorem given_keys_nodup {members : List (String × Option Text)}
    (h : (members.map (fun member => text member.1)).Nodup) :
    ((given members).map Prod.fst).Nodup := by
  refine h.sublist ?_
  rw [given, List.map_filterMap]
  induction members with
  | nil => exact List.Sublist.refl _
  | cons member rest ih =>
    rw [List.map_cons, List.nodup_cons] at h
    rw [List.filterMap_cons, List.map_cons]
    cases member.2 with
    | none => exact (ih h.2).cons _
    | some value => exact (ih h.2).cons_cons _

/-- A table that was filled with the members, in any order, shows each of them. -/
theorem lookup_given {members : List (String × Option Text)}
    (hkeys : (members.map (fun member => text member.1)).Nodup)
    {entries : List (Text × Option Text)} (hperm : entries.Perm (given members)) {key : String}
    {value : Option Text} (h : (key, value) ∈ members) :
    kvhashLookup (kvhashInsertAll ∅ entries) (text key) = value.map some := by
  have hnodup : (entries.map Prod.fst).Nodup :=
    (hperm.map Prod.fst).nodup_iff.mpr (given_keys_nodup hkeys)
  cases value with
  | some v =>
    refine kvhashLookup_insertAll_of_mem hnodup ?_ (kvhashLookup_empty _)
    rw [hperm.mem_iff]
    exact List.mem_filterMap.mpr ⟨(key, some v), h, rfl⟩
  | none =>
    rw [kvhashLookup_insertAll_of_notMem, kvhashLookup_empty]
    · rfl
    · intro entry hentry heq
      obtain ⟨member, hmem, hkey, v, hsome, -⟩ := mem_given (hperm.mem_iff.mp hentry)
      have hsame := List.inj_on_of_nodup_map hkeys hmem h (hkey.trans heq)
      rw [hsame] at hsome
      cases hsome

def Options.members (o : Options) : List (String × Option Text) :=
  [("package", some (packageOf o)),
    ("type", some (if o.type = some .magic then text "magic" else text "extension")),
    ("magic", o.magic), ("mask", o.mask), ("offset", o.offset), ("extension", o.extension),
    ("interpreter", o.interpreter), ("detector", o.detector), ("credentials", o.credentials),
    ("preserve", o.preserve)]

theorem formatArgs_eq (o : Options) : formatArgs o = kvhashInsertAll ∅ (given o.members) := by
  have hadd : ∀ (members : List (String × Option Text)) (args : Arguments),
      members.foldl (fun args member => addSpec args member.1 member.2) args =
        kvhashInsertAll args (given members) := by
    intro members
    induction members with
    | nil => exact fun _ => rfl
    | cons member rest ih =>
      rcases member with ⟨key, value⟩
      intro args
      rw [List.foldl_cons, ih]
      cases value <;> rfl
  exact hadd o.members ∅

theorem argument_formatArgs {o : Options} {key : String} {value : Option Text}
    (h : (key, value) ∈ o.members) : argument (formatArgs o) key = value := by
  have hkeys : (o.members.map (fun member => text member.1)).Nodup := by
    simp only [Options.members, List.map_cons, List.map_nil]
    decide
  rw [argument, formatArgs_eq, lookup_given hkeys (List.Perm.refl _) h]
  cases value <;> rfl

theorem argument_formatArgs_type (o : Options) : argument (formatArgs o) "type" =
    some (if o.type = some .magic then text "magic" else text "extension") :=
  argument_formatArgs (by simp [Options.members])

theorem argument_formatArgs_package (o : Options) :
    argument (formatArgs o) "package" = some (packageOf o) :=
  argument_formatArgs (by simp [Options.members])

theorem argument_formatArgs_offset (o : Options) :
    argument (formatArgs o) "offset" = o.offset :=
  argument_formatArgs (by simp [Options.members])

theorem argument_formatArgs_magic (o : Options) :
    argument (formatArgs o) "magic" = o.magic :=
  argument_formatArgs (by simp [Options.members])

theorem argument_formatArgs_extension (o : Options) :
    argument (formatArgs o) "extension" = o.extension :=
  argument_formatArgs (by simp [Options.members])

end Table

def recordOf (opts : List Opt) : Option Binfmt :=
  match parse opts with
  | .error _ => none
  | .ok o =>
    match binfmtNew (formatArgs o) with
    | .ok (.ok binfmt) => some binfmt
    | _ => none

/-- The install branch of main: a NULL record goes to act_install like any other. -/
def installMode (env : Env) (name : Text) (args : Arguments) : Act Bool := do
  match binfmtNew args with
  | .error value => quit (.newlinesProhibited value)
  | .ok (.error why) =>
      warn (.rejected name why)
      actInstall env name none
  | .ok (.ok binfmt) => actInstall env name (some binfmt)

def printInterpreters : List Find.Loaded → Act Unit
  | [] => return ()
  | f :: rest => do
      answer (.found f.interpreter)
      printInterpreters rest

def actFind (env : Env) (executable : Text) : Act Bool := do
  if ← succeeds env then
    let s ← Prog.observe
    match Find.loadFormats s (env.readdir s.admindir), env.files executable with
    | .error (.outOfData name field), _ => quit (.outOfData name field)
    | .error (.unableToOpen name), _ => quit (.unableToOpen name)
    | .error _, _ => Prog.crash
    | .ok formats, none =>
        -- the buffer comes before the file
        if Find.toread formats < 2 ^ 63 then quit (.unableToOpen executable) else Prog.exit 1
    | .ok formats, some file =>
        match Find.findInterpreters env.detect formats executable file with
        | .error .outOfMemory => Prog.exit 1
        | .error _ => Prog.crash
        | .ok interpreters =>
            printInterpreters interpreters
            return true
  else quit (.unableToOpen (text "admindir"))

/-- What main does for the mode; a missing name or path never gets past the parser. -/
def runMode (env : Env) (o : Options) : Act Bool :=
  match o.mode with
  | none => return false
  | some .install => installMode env (o.name.getD []) (formatArgs o)
  | some .remove => actRemove env (o.name.getD []) (packageOf o)
  | some .import => actImport env o.name
  | some .display => actDisplay env o.name
  | some .enable => actEnable env o.name
  | some .disable => actDisable env o.name
  | some .find => actFind env (o.executable.getD [])

/-- Returning means status 0; anything that did not work quits with status 2. -/
def exitStatus (action : Act Bool) : Act Unit := do
  if ← action then return () else quit .previousErrors

def main (env : Env) (opts : List Opt) : Act Unit :=
  match parse opts with
  | .error _ => Prog.exit 2
  | .ok o => exitStatus (runMode { env with test := o.test } o)

theorem test_eq_self {env : Env} (htest : env.test = false) : { env with test := false } = env := by
  cases env
  simp only at htest
  rw [htest]

/-- All effects of an accepted command line are those of its mode. -/
theorem effects_main {env : Env} {opts : List Opt} {o : Options} (hparse : parse opts = .ok o)
    (s : Store) (m : Memory) : ((main env opts).run s m).effects =
      ((runMode { env with test := o.test } o).run s m).effects := by
  simp only [main, hparse, exitStatus]
  rcases Prog.run_bind_cases (runMode { env with test := o.test } o)
    (fun worked => if worked = true then return () else quit .previousErrors) s m with
    ⟨worked, m', es, hrun, hbind⟩ | ⟨heff, -⟩
  · rw [hbind, hrun]
    cases worked with
    | true => exact List.append_nil es
    | false => exact List.append_nil es
  · exact heff

end BinfmtSupport.CommandLine
