import BinfmtSupport.InstallOutcome
import BinfmtSupport.ImportFiles
import BinfmtSupport.Isolation

/-!
What --import answers for the files that it comes to. act_import is written once more, so that
it tells what has become of a file; what it returns is made of that. A file whose format could
not be installed counts as much as one that could, since act_import does not look at what
act_install returns.
-/
namespace BinfmtSupport.ImportStatus

open CText Kvhash Format Regstring Journal Stores Actions Loading Rejection ImportFiles
open InstallOutcome CommandLine

inductive Verdict
  | refused
  | preserved
  | install (binfmt : Option Binfmt)

inductive Processed
  | refused
  | preserved
  | installed (worked : Bool)
deriving DecidableEq

def Processed.status : Processed → Bool
  | .refused => false
  | .preserved => true
  | .installed _ => true

section Source
variable (env : Env)

def prepareRecord (path : Text) (import_ : Arguments) : Act Verdict := do
  if kvhashExists import_ (text "package") then
    let interpreter := argument import_ "interpreter"
    if !(interpreter.any env.executable) then warn (.noExecutable path interpreter)
    match binfmtNew import_ with
    | .error value => quit (.newlinesProhibited value)
    | .ok (.error why) =>
        warn (.rejected path why)
        return .install none
    | .ok (.ok binfmt) => return .install (some binfmt)
  else
    warn (.packageLineMissing path)
    return .refused

def prepareUnlessLocal (path id : Text) (import_ : Arguments) : Act Verdict := do
  loadFormat env id true
  let m ← Prog.recollect
  match kvhashLookup m.formats id with
  | none => prepareRecord env path import_
  | some binfmt =>
      match binfmt.package with
      | none => Prog.crash
      | some package =>
          if package = [colon] then
            warn (.preservingLocalChanges id)
            return .preserved
          else prepareRecord env path import_

def prepareImport (name : Text) : Act Verdict := do
  if isReserved (importPath env name).2 then
    warn (.reserved (importPath env name).2)
    return .refused
  else
    match ← getImport env (importPath env name).1 with
    | none =>
        warn (.nothingToImport (importPath env name).2)
        return .refused
    | some import_ =>
        if import_.entries.isEmpty then
          warn (.nothingToImport (importPath env name).2)
          return .refused
        else prepareUnlessLocal env (importPath env name).1 (importPath env name).2 import_

def carryOut (id : Text) : Verdict → Act Processed
  | .refused => return .refused
  | .preserved => return .preserved
  | .install binfmt => do return .installed (← actInstall env id binfmt)

def importFile (name : Text) : Act Processed := do
  carryOut env (importPath env name).2 (← prepareImport env name)

def finish (id : Text) : Verdict → Act Bool
  | .refused => return false
  | .preserved => return true
  | .install binfmt => do
      let _ ← actInstall env id binfmt
      return true

end Source

section Erasure
variable (env : Env)

theorem quit_bind {α β : Type} (w : Warning) (f : α → Act β) : (quit w >>= f : Act β) = quit w := by
  apply Prog.ext
  intro s m
  rw [Prog.run_bind_exited (run_quit w s m), run_quit]

theorem crash_bind {α β : Type} (f : α → Act β) : (Prog.crash >>= f : Act β) = Prog.crash := by
  apply Prog.ext
  intro s m
  rw [Prog.run_bind_crashed (Prog.run_crash s m), Prog.run_crash]

theorem carryOut_status (id : Text) (v : Verdict) :
    (carryOut env id v >>= fun file => pure file.status) = finish env id v := by
  cases v with
  | refused => rfl
  | preserved => rfl
  | install binfmt => simp only [carryOut, finish, bind_assoc, pure_bind, Processed.status]

theorem importRecord_eq (path id : Text) (import_ : Arguments) :
    importRecord env path id import_ = prepareRecord env path import_ >>= finish env id := by
  rw [importRecord, prepareRecord]
  by_cases hpackage : kvhashExists import_ (text "package") = true
  · rw [if_pos hpackage, if_pos hpackage]
    cases binfmtNew import_ with
    | error value =>
      dsimp only
      cases (argument import_ "interpreter").any env.executable with
      | true => exact (quit_bind (.newlinesProhibited value) (finish env id)).symm
      | false =>
        simp only [Bool.not_false, if_true, bind_assoc, quit_bind]
    | ok result =>
      dsimp only
      cases (argument import_ "interpreter").any env.executable <;> cases result <;>
        simp only [Bool.not_true, Bool.not_false, Bool.false_eq_true, if_true, if_false,
          bind_assoc, pure_bind, finish]
  · rw [if_neg hpackage, if_neg hpackage, bind_assoc]
    rfl

theorem importUnlessLocal_eq (path id : Text) (import_ : Arguments) :
    importUnlessLocal env path id import_ =
      prepareUnlessLocal env path id import_ >>= finish env id := by
  rw [importUnlessLocal, prepareUnlessLocal, bind_assoc]
  refine bind_congr (fun _ => ?_)
  rw [bind_assoc]
  refine bind_congr (fun m => ?_)
  cases kvhashLookup m.formats id with
  | none => exact importRecord_eq env path id import_
  | some binfmt =>
    dsimp only
    cases binfmt.package with
    | none => exact (crash_bind (finish env id)).symm
    | some package =>
      dsimp only
      split
      · rw [bind_assoc]
        rfl
      · exact importRecord_eq env path id import_

/-- act_import for one file, from the verdict on. -/
theorem actImportName_eq (name : Text) : actImportName env name =
    prepareImport env name >>= finish env (importPath env name).2 := by
  rw [actImportName, prepareImport]
  rcases importPath env name with ⟨path, id⟩
  dsimp only
  split
  · rw [bind_assoc]
    rfl
  · rw [bind_assoc]
    refine bind_congr (fun table => ?_)
    cases table with
    | none =>
      dsimp only
      rw [bind_assoc]
      rfl
    | some import_ =>
      dsimp only
      split
      · rw [bind_assoc]
        rfl
      · exact importUnlessLocal_eq env path id import_

/-- A file is told of with what act_import returns for it. -/
theorem actImportName_status (name : Text) : actImportName env name =
    importFile env name >>= fun file => pure file.status := by
  rw [actImportName_eq, importFile, bind_assoc]
  refine bind_congr (fun v => ?_)
  exact (carryOut_status env (importPath env name).2 v).symm

end Erasure

section Condition
variable (env : Env)

/-- The table names a package, and binfmt_new makes this record of it, or refuses. -/
def Makes (import_ : Arguments) (new : Option Binfmt) : Prop :=
  kvhashExists import_ (text "package") = true ∧
    ((∃ why, binfmtNew import_ = .ok (.error why) ∧ new = none) ∨
      ∃ b, binfmtNew import_ = .ok (.ok b) ∧ new = some b)

/-- act_import gets as far as to install the record for the file. -/
structure Attempts (name : Text) (s : Store) (t : Table Text Binfmt) (time : ℕ)
    (new : Option Binfmt) : Prop where
  free : isReserved (importPath env name).2 = false
  found : ∃ content, env.files (importPath env name).1 = some content ∧
    (importTable content).entries.isEmpty = false ∧ Makes (importTable content) new
  opened : env.ok time = true
  readable : Readable env s (importPath env name).2 (time + 1)
  packaged : Packaged s t (importPath env name).2

def ImportFails (name : Text) (s : Store) (t : Table Text Binfmt) (time : ℕ) : Prop :=
  ∃ new, Attempts env name s t time new ∧
    InstallFails env (importPath env name).2 new s
      (remembered t (importPath env name).2 (s.record (importPath env name).2))
      (afterReading s (importPath env name).2 (time + 1))

end Condition

section Verdicts
variable {env : Env} {s : Store} {m : Memory}

/-- An installation is the verdict for these records only, and it finds this table and time. -/
def Hands (p : Act Verdict) (s : Store) (m : Memory) (P : Option Binfmt → Prop)
    (t : Table Text Binfmt) (time : ℕ) : Prop :=
  (∀ new, P new → ∃ m', p.run s m = ⟨.returned (.install new), m', []⟩ ∧
    m'.formats = t ∧ m'.clock = time) ∧
  ∀ new, (p.run s m).outcome = .returned (.install new) → P new

theorem Hands.mono {p : Act Verdict} {P Q : Option Binfmt → Prop} {t : Table Text Binfmt}
    {time : ℕ} (h : Hands p s m P t time) (hiff : ∀ new, Q new ↔ P new) :
    Hands p s m Q t time :=
  ⟨fun new hnew => h.1 new ((hiff new).mp hnew), fun new hnew => (hiff new).mpr (h.2 new hnew)⟩

theorem hands_never {p : Act Verdict} {P : Option Binfmt → Prop} {t : Table Text Binfmt}
    {time : ℕ} (hP : ∀ new, ¬ P new)
    (hrun : ∀ new, (p.run s m).outcome ≠ .returned (.install new)) : Hands p s m P t time :=
  ⟨fun new hnew => absurd hnew (hP new), fun new hnew => absurd hnew (hrun new)⟩

theorem hands_prepareRecord (path : Text) (import_ : Arguments) :
    Hands (prepareRecord env path import_) s m (Makes import_) m.formats m.clock := by
  rw [prepareRecord]
  by_cases hpackage : kvhashExists import_ (text "package") = true
  · rw [if_pos hpackage]
    have hwarned : ∀ (p : Act Verdict), (∀ m', m'.formats = m.formats → m'.clock = m.clock →
        Hands p s m' (Makes import_) m.formats m.clock) →
        Hands (do
          if !((argument import_ "interpreter").any env.executable) then
            warn (.noExecutable path (argument import_ "interpreter"))
          p) s m (Makes import_) m.formats m.clock := by
      intro p hp
      cases (argument import_ "interpreter").any env.executable with
      | true => exact hp m rfl rfl
      | false => exact hp (m.warned (.noExecutable path (argument import_ "interpreter"))) rfl rfl
    refine hwarned _ (fun m' hf hc => ?_)
    cases hnew : binfmtNew import_ with
    | error value =>
      refine hands_never (fun new hmakes => ?_) (fun new h => ?_)
      · rcases hmakes with ⟨-, ⟨why, h, -⟩ | ⟨b, h, -⟩⟩ <;> rw [hnew] at h <;> cases h
      · cases h
    | ok result =>
      cases result with
      | error why =>
        refine ⟨?_, ?_⟩
        · rintro new ⟨-, ⟨why', h, rfl⟩ | ⟨b, h, -⟩⟩
          · exact ⟨_, rfl, hf, hc⟩
          · rw [hnew] at h
            cases h
        · intro new h
          cases h
          exact ⟨hpackage, Or.inl ⟨why, hnew, rfl⟩⟩
      | ok b =>
        refine ⟨?_, ?_⟩
        · rintro new ⟨-, ⟨why, h, -⟩ | ⟨b', h, rfl⟩⟩
          · rw [hnew] at h
            cases h
          · rw [hnew] at h
            cases h
            exact ⟨_, rfl, hf, hc⟩
        · intro new h
          cases h
          exact ⟨hpackage, Or.inr ⟨b, hnew, rfl⟩⟩
  · rw [if_neg hpackage]
    exact hands_never (fun new h => hpackage h.1) (fun new h => by cases h)

theorem hands_prepareUnlessLocal (path id : Text) (import_ : Arguments) :
    Hands (prepareUnlessLocal env path id import_) s m
      (fun new => Readable env s id m.clock ∧ Packaged s m.formats id ∧ Makes import_ new)
      (remembered m.formats id (s.record id)) (afterReading s id m.clock) := by
  rw [prepareUnlessLocal]
  by_cases hread : Readable env s id m.clock
  · obtain ⟨m₁, hload, hf, hc⟩ := run_loadFormat_readable hread true (Or.inl rfl)
    have hlook : kvhashLookup m₁.formats id = visible s m.formats id := by
      rw [hf, lookup_remembered_self]
    have hrecord : Packaged s m.formats id → Hands (prepareRecord env path import_) s m₁
        (fun new => Readable env s id m.clock ∧ Packaged s m.formats id ∧ Makes import_ new)
        m₁.formats m₁.clock := fun hpackaged =>
      (hands_prepareRecord path import_).mono
        (fun new => ⟨fun h => h.2.2, fun h => ⟨hread, hpackaged, h⟩⟩)
    unfold Hands
    rw [Prog.run_bind_returned hload, replay_nil, Ran.after_nil, Prog.run_recollect_bind,
      ← hf, ← hc]
    cases hold : kvhashLookup m₁.formats id with
    | none =>
      refine hrecord (fun old h => ?_)
      rw [← hlook, hold] at h
      cases h
    | some old =>
      have hvisible : visible s m.formats id = some old := hlook.symm.trans hold
      dsimp only
      cases hpackage : old.package with
      | none =>
        refine hands_never (fun new h => ?_) (fun new h => by cases h)
        obtain ⟨package, hsome, -⟩ := h.2.1 old hvisible
        cases hpackage.symm.trans hsome
      | some package =>
        dsimp only
        by_cases hlocal : package = [colon]
        · rw [if_pos hlocal]
          refine hands_never (fun new h => ?_) (fun new h => by cases h)
          obtain ⟨package', hsome, hne⟩ := h.2.1 old hvisible
          exact hne ((Option.some.inj (hsome.symm.trans hpackage)).trans hlocal)
        · rw [if_neg hlocal]
          refine hrecord (fun old' h => ?_)
          rw [hvisible] at h
          cases h
          exact ⟨package, hpackage, hlocal⟩
  · refine hands_never (fun new h => hread h.1) (fun new h => ?_)
    simp only [Readable, Classical.not_imp, Bool.not_eq_true] at hread
    obtain ⟨m', hrun⟩ := run_loadFormat_unreadable env id true s m hread.1 hread.2
    rw [Prog.run_bind_exited hrun] at h
    cases h

theorem hands_prepareImport (env : Env) (name : Text) (s : Store) (m : Memory) :
    Hands (prepareImport env name) s m (Attempts env name s m.formats m.clock)
      (remembered m.formats (importPath env name).2 (s.record (importPath env name).2))
      (afterReading s (importPath env name).2 (m.clock + 1)) := by
  rw [prepareImport]
  cases hreserved : isReserved (importPath env name).2 with
  | true =>
    rw [if_pos rfl]
    refine hands_never (fun new h => ?_) (fun new h => by cases h)
    exact Bool.noConfusion (hreserved.symm.trans h.free)
  | false =>
    rw [if_neg Bool.false_ne_true]
    cases hfile : env.files (importPath env name).1 with
    | none =>
      simp only [getImport, hfile]
      refine hands_never (fun new h => ?_) (fun new h => by cases h)
      obtain ⟨content, hsome, -⟩ := h.found
      cases hfile.symm.trans hsome
    | some content =>
      simp only [getImport, hfile]
      cases hok : env.ok m.clock with
      | false =>
        refine hands_never (fun new h => ?_) (fun new h => ?_)
        · exact Bool.noConfusion (hok.symm.trans h.opened)
        · rw [bind_assoc, run_succeeds_bind, hok] at h
          cases h
      | true =>
        unfold Hands
        rw [bind_assoc, run_succeeds_bind, hok, if_pos rfl, pure_bind]
        dsimp only
        cases hempty : (importTable content).entries.isEmpty with
        | true =>
          rw [if_pos rfl]
          refine hands_never (fun new h => ?_) (fun new h => by cases h)
          obtain ⟨content', hsome, hsomething, -⟩ := h.found
          cases hfile.symm.trans hsome
          exact Bool.noConfusion (hempty.symm.trans hsomething)
        | false =>
          rw [if_neg Bool.false_ne_true]
          refine (hands_prepareUnlessLocal (importPath env name).1 (importPath env name).2
            (importTable content)).mono (fun new => ?_)
          constructor
          · rintro ⟨-, ⟨content', hsome, -, hmakes⟩, -, hread, hpackaged⟩
            cases hfile.symm.trans hsome
            exact ⟨hread, hpackaged, hmakes⟩
          · rintro ⟨hread, hpackaged, hmakes⟩
            exact ⟨hreserved, ⟨content, hfile, hempty, hmakes⟩, hok, hread, hpackaged⟩

theorem carryOut_failed_iff (env : Env) (id : Text) (new : Option Binfmt) (s : Store) (m : Memory) :
    ((carryOut env id (.install new)).run s m).outcome = .returned (.installed false) ↔
      InstallFails env id new s m.formats m.clock := by
  rw [← actInstall_failed_iff, carryOut, Prog.outcome_bind_iff]
  constructor
  · rintro ⟨worked, m', es, hrun, h⟩
    cases worked with
    | true => cases h
    | false => rw [hrun]
  · intro h
    rcases hrun : (actInstall env id new).run s m with ⟨out, m', es⟩
    rw [hrun] at h
    cases h
    exact ⟨false, m', es, rfl, rfl⟩

/-- The installation that act_import attempts fails exactly where it is foretold. -/
theorem importFile_failed_iff (env : Env) (name : Text) (s : Store) (m : Memory) :
    ((importFile env name).run s m).outcome = .returned (.installed false) ↔
      ImportFails env name s m.formats m.clock := by
  obtain ⟨hinstall, hverdict⟩ := hands_prepareImport env name s m
  rw [importFile, Prog.outcome_bind_iff]
  constructor
  · rintro ⟨v, m₁, es, hprepare, h⟩
    cases v with
    | refused | preserved => cases h
    | install new =>
      have hattempts := hverdict new (by rw [hprepare])
      obtain ⟨m₂, hrun, hf, hc⟩ := hinstall new hattempts
      cases hprepare.symm.trans hrun
      rw [replay_nil, carryOut_failed_iff, hf, hc] at h
      exact ⟨new, hattempts, h⟩
  · rintro ⟨new, hattempts, hfails⟩
    obtain ⟨m₁, hrun, hf, hc⟩ := hinstall new hattempts
    refine ⟨.install new, m₁, [], hrun, ?_⟩
    rwa [replay_nil, carryOut_failed_iff, hf, hc]

end Verdicts

section Status

/-- Status 0 says that of every file that the run has come to a local entry was preserved, or
that its installation worked, and an installation that did not work ends the process with 2. -/
def Honest (env : Env) (given : Option Text) (s : Store) (status : Outcome Unit) : Prop :=
  ∀ file t n, Begins env s file given t n →
    (status = .returned () →
      ((importFile env file).run t n).outcome = .returned .preserved ∨
      ((importFile env file).run t n).outcome = .returned (.installed true)) ∧
    (((importFile env file).run t n).outcome = .returned (.installed false) →
      status = .exited 2)

def optionEnv (env : Env) (o : Options) : Env := { env with test := o.test }

variable {env : Env} {opts : List Opt} {o : Options} {s : Store}

/-- What act_import returns for a file is made of what has become of it. -/
theorem processed_of_returned {name : Text} {m : Memory} {worked : Bool}
    (h : ((actImportName env name).run s m).outcome = .returned worked) :
    ∃ file, ((importFile env name).run s m).outcome = .returned file ∧ file.status = worked := by
  rw [actImportName_status, Prog.outcome_bind_iff] at h
  obtain ⟨file, m', es, hrun, hstatus⟩ := h
  exact ⟨file, by rw [hrun], Outcome.returned.inj hstatus⟩

/-- Where no installation fails the status is honest. -/
theorem honest_of_not_fails (hparse : parse opts = .ok o) (hmode : o.mode = some .import)
    (hsmooth : ∀ file t n, Begins (optionEnv env o) s file o.name t n →
      ¬ ImportFails (optionEnv env o) file t n.formats n.clock) :
    Honest (optionEnv env o) o.name s
      ((CommandLine.main env opts).run s Memory.fresh).outcome := by
  intro file t n hbegins
  have hworks := hsmooth file t n hbegins
  rw [← importFile_failed_iff] at hworks
  refine ⟨fun hzero => ?_, fun hfailed => absurd hfailed hworks⟩
  have hall : ((actImportName (optionEnv env o) file).run t n).outcome = .returned true := by
    rcases main_import_cases env hparse hmode s with ⟨-, hall⟩ | hexit | ⟨hcrash, -⟩
    · exact hall file t n hbegins
    · rw [hzero] at hexit
      cases hexit
    · rw [hzero] at hcrash
      cases hcrash
  obtain ⟨processed, hfile, hstatus⟩ := processed_of_returned hall
  rw [hfile] at hworks ⊢
  cases processed with
  | refused => cases hstatus
  | preserved => exact Or.inl rfl
  | installed worked =>
    cases worked with
    | true => exact Or.inr rfl
    | false => exact absurd rfl hworks

/-- An installation that fails is reported by a status of 2 that has another reason, if at
all. -/
theorem not_fails_of_honest (hhonest : Honest (optionEnv env o) o.name s
      ((CommandLine.main env opts).run s Memory.fresh).outcome)
    (hstatus : ((CommandLine.main env opts).run s Memory.fresh).outcome ≠ .exited 2)
    {file : Text} {t : Store} {n : Memory} (hbegins : Begins (optionEnv env o) s file o.name t n) :
    ¬ ImportFails (optionEnv env o) file t n.formats n.clock := by
  rw [← importFile_failed_iff]
  exact fun hfailed => hstatus ((hhonest file t n hbegins).2 hfailed)

/-- With one file there is no other reason. -/
theorem main_of_fails (hparse : parse opts = .ok o) (hmode : o.mode = some .import) {file : Text}
    (hname : o.name = some file) (hfails : ImportFails (optionEnv env o) file s ∅ 0) :
    ((CommandLine.main env opts).run s Memory.fresh).outcome = .returned () := by
  have hfailed := importFile_failed_iff (optionEnv env o) file s Memory.fresh
  have hmain : CommandLine.main env opts =
      exitStatus (actImportName (optionEnv env o) file) := by
    simp only [CommandLine.main, hparse, runMode, hmode, hname, actImport, optionEnv]
  have hrun := hfailed.mpr hfails
  rw [hmain, exitStatus, actImportName_status]
  rcases hr : (importFile (optionEnv env o) file).run s Memory.fresh with ⟨out, m', es⟩
  rw [hr] at hrun
  cases hrun
  rw [bind_assoc, Prog.run_bind_returned hr]
  rfl

end Status

/-- The status of --import is honest in every run that comes to no file whose installation
fails. With one file it is honest in no other, and with a directory only where the status is
2 for another reason. -/
theorem import_honest (env : Env) {opts : List Opt} {o : Options} (hparse : parse opts = .ok o)
    (hmode : o.mode = some .import) (s : Store) :
    ((∀ file t n, Begins (optionEnv env o) s file o.name t n →
        ¬ ImportFails (optionEnv env o) file t n.formats n.clock) →
      Honest (optionEnv env o) o.name s
        ((CommandLine.main env opts).run s Memory.fresh).outcome) ∧
    (∀ file, o.name = some file →
      (Honest (optionEnv env o) o.name s
          ((CommandLine.main env opts).run s Memory.fresh).outcome ↔
        ¬ ImportFails (optionEnv env o) file s ∅ 0)) ∧
    (((CommandLine.main env opts).run s Memory.fresh).outcome ≠ .exited 2 →
      (Honest (optionEnv env o) o.name s
          ((CommandLine.main env opts).run s Memory.fresh).outcome ↔
        ∀ file t n, Begins (optionEnv env o) s file o.name t n →
          ¬ ImportFails (optionEnv env o) file t n.formats n.clock)) := by
  refine ⟨honest_of_not_fails hparse hmode, fun file hname => ⟨fun hhonest hfails => ?_,
    fun hworks => honest_of_not_fails hparse hmode ?_⟩, fun hstatus =>
    ⟨fun hhonest file t n hbegins => not_fails_of_honest hhonest hstatus hbegins,
      honest_of_not_fails hparse hmode⟩⟩
  · have hzero := main_of_fails hparse hmode hname hfails
    refine not_fails_of_honest hhonest (fun h => ?_) (hname ▸ Begins.given) hfails
    rw [hzero] at h
    cases h
  · intro other t n hbegins
    rw [hname] at hbegins
    cases hbegins
    exact hworks

section Example

/-- There is a file to import, and the package is not the one that has installed the format. -/
def conflictEnv : Env :=
  { plainEnv with
    files := fun path =>
      if path = text "/usr/share/binfmts/one" then
        some (text "package pkg\ninterpreter /usr/bin/one\nmagic CD\n")
      else none }

def conflictStore : Store :=
  Isolation.storeWith (text "one") (text "other\nmagic\n0\nAB\n\n/usr/bin/one\n\n\n\n")

def importOptions (name : Text) : Options :=
  { Options.none with mode := some .import, name := some name }

theorem parse_import (name : Text) : parse [.mode .import [name]] = .ok (importOptions name) := rfl

def newerEnv : Env :=
  { plainEnv with
    importNames := [text "jar", text "wine"]
    files := fun path =>
      if path = text "/usr/share/binfmts/jar" then
        some (text "package openjdk\ninterpreter /usr/bin/jexec\nmagic PK\\x03\\x04\n")
      else if path = text "/usr/share/binfmts/wine" then
        some (text "package wine\ninterpreter /usr/bin/wine64\nmagic MZ\n")
      else none }

def busy : Store := busyStore [wineEntry, qemuEntry]

/-- None of the two installations fails, and the second one begins where the first has ended. -/
theorem smooth_newer {file : Text} {t : Store} {n : Memory}
    (h : Begins newerEnv busy file none t n) : ¬ ImportFails newerEnv file t n.formats n.clock := by
  rw [← importFile_failed_iff]
  have hjar : ((importFile newerEnv (text "jar")).run busy Memory.fresh.tick).outcome =
      .returned (.installed true) := by decide +kernel
  have hwine : ((importFile newerEnv (text "wine")).run
      (((actImportName newerEnv (text "jar")).run busy Memory.fresh.tick).state busy)
      ((actImportName newerEnv (text "jar")).run busy Memory.fresh.tick).memory).outcome =
      .returned (.installed true) := by decide +kernel
  cases h with
  | listed hopen hreach =>
    change Reaches newerEnv file t n [text "jar", text "wine"] busy Memory.fresh.tick at hreach
    cases hreach with
    | here hlisted =>
      rw [hjar]
      exact fun h => by cases h
    | past hlisted hrun hrest =>
      rw [hrun] at hwine
      cases hrest with
      | here =>
        intro h
        cases hwine.symm.trans h
      | past _ _ h => cases h
      | skip _ h => cases h
    | skip hlisted =>
      unfold Listed at hlisted
      exact absurd (by decide +kernel) hlisted

end Example

theorem import_honest_newer :
    Honest newerEnv none busy
      ((CommandLine.main newerEnv [.mode .import []]).run busy Memory.fresh).outcome ∧
    (Honest conflictEnv (some (text "one")) conflictStore
        ((CommandLine.main conflictEnv [.mode .import [text "one"]]).run conflictStore
          Memory.fresh).outcome ↔
      ¬ ImportFails conflictEnv (text "one") conflictStore ∅ 0) := by
  refine ⟨?_, ?_⟩
  · exact (import_honest newerEnv (o := { Options.none with mode := some .import }) rfl rfl
      busy).1 (fun _ _ _ hbegins => smooth_newer hbegins)
  · exact (import_honest conflictEnv (parse_import (text "one")) rfl conflictStore).2.1 _ rfl

/-- The format stays with the other package, and the status is 0. -/
theorem conflict_unreported :
    ((importFile conflictEnv (text "one")).run conflictStore Memory.fresh).outcome =
      .returned (.installed false) ∧
    ((CommandLine.main conflictEnv [.mode .import [text "one"]]).run conflictStore
      Memory.fresh).outcome = .returned () ∧
    ¬ Honest conflictEnv (some (text "one")) conflictStore
      ((CommandLine.main conflictEnv [.mode .import [text "one"]]).run conflictStore
        Memory.fresh).outcome := by
  have hfile : ((importFile conflictEnv (text "one")).run conflictStore
      Memory.fresh).outcome = .returned (.installed false) := by decide +kernel
  have hzero : ((CommandLine.main conflictEnv [.mode .import [text "one"]]).run conflictStore
      Memory.fresh).outcome = .returned () := by decide +kernel
  refine ⟨hfile, hzero, fun hhonest => ?_⟩
  have hexit := (hhonest (text "one") conflictStore Memory.fresh .given).2 hfile
  rw [hzero] at hexit
  cases hexit

end BinfmtSupport.ImportStatus
