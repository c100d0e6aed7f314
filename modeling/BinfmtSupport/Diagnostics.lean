import BinfmtSupport.CommandLine
import BinfmtSupport.Loading

/-!
Whether a failure is ever silent. Most functions return 0 where they have failed and rely on
someone to have said why, and main then only speaks of previous errors. Each of them is
looked at with what it returns: where that is a failure, or where it leaves the program, a
diagnostic has come before.
-/
namespace BinfmtSupport.Diagnostics

open CText Kvhash Format Regstring Journal Stores Actions CommandLine Loading

def Diagnosed (ws : List Warning) : Prop := ∃ w ∈ ws, w ≠ .previousErrors

/-- The messages only grow, and where the program returns something bad or leaves, with
status 2, one of the new ones says why. -/
def Tells {α : Type} (bad : α → Prop) (p : Act α) : Prop :=
  ∀ s m, ∃ ws, (p.run s m).memory.warnings = m.warnings ++ ws ∧
    (∀ a, (p.run s m).outcome = .returned a → bad a → Diagnosed ws) ∧
    ∀ status, (p.run s m).outcome = .exited status → status = 2 ∧ Diagnosed ws

def fails (worked : Bool) : Prop := worked = false

def never {α : Type} (_ : α) : Prop := False

section Rules
variable {α β : Type} {bad : α → Prop} {bad' : β → Prop} {p : Act α} {f : α → Act β}

theorem Diagnosed.before {ws more : List Warning} (h : Diagnosed ws) : Diagnosed (ws ++ more) := by
  obtain ⟨w, hw, hne⟩ := h
  exact ⟨w, List.mem_append_left more hw, hne⟩

theorem Diagnosed.behind {ws more : List Warning} (h : Diagnosed ws) : Diagnosed (more ++ ws) := by
  obtain ⟨w, hw, hne⟩ := h
  exact ⟨w, List.mem_append_right more hw, hne⟩

theorem Tells.mono {worse : α → Prop} (h : Tells bad p) (hsub : ∀ a, worse a → bad a) :
    Tells worse p := by
  intro s m
  obtain ⟨ws, hws, hbad, hleft⟩ := h s m
  exact ⟨ws, hws, fun a ha hworse => hbad a ha (hsub a hworse), hleft⟩

/-- What the first part has told need not be told again. -/
theorem Tells.bind (hp : Tells bad p) (hf : ∀ a, Tells (fun b => bad' b ∧ ¬ bad a) (f a)) :
    Tells bad' (p >>= f) := by
  intro s m
  obtain ⟨ws, hws, hbad, hleft⟩ := hp s m
  rcases hrun : p.run s m with ⟨o, m', es⟩
  rw [hrun] at hws hbad hleft
  cases o with
  | returned a =>
    obtain ⟨more, hmore, hbad', hleft'⟩ := hf a (replay es s) m'
    rw [Prog.run_bind_returned hrun, Ran.outcome_after, Ran.memory_after]
    refine ⟨ws ++ more, ?_, ?_, ?_⟩
    · rw [hmore, show m'.warnings = m.warnings ++ ws from hws, List.append_assoc]
    · intro b hb hbadb
      by_cases ha : bad a
      · exact (hbad a rfl ha).before
      · exact (hbad' b hb ⟨hbadb, ha⟩).behind
    · intro status hstatus
      exact ⟨(hleft' status hstatus).1, (hleft' status hstatus).2.behind⟩
  | exited status =>
    rw [Prog.run_bind_exited hrun]
    refine ⟨ws, hws, nofun, ?_⟩
    rintro _ ⟨⟩
    exact hleft status rfl
  | crashed =>
    rw [Prog.run_bind_crashed hrun]
    exact ⟨ws, hws, nofun, nofun⟩

/-- The first part returns nothing bad. -/
theorem Tells.then (hp : Tells never p) (hf : ∀ a, Tells bad' (f a)) : Tells bad' (p >>= f) :=
  hp.bind (fun a => (hf a).mono (fun _ h => h.1))

/-- The test fails with a diagnostic, so that none is needed in the other branch. -/
theorem Tells.test {p : Act Bool} {yes no : Act β} (hp : Tells fails p) (hyes : Tells bad' yes)
    (hno : Tells never no) : Tells bad' (p >>= fun ok => if ok = true then yes else no) := by
  refine hp.bind (fun ok => ?_)
  cases ok with
  | true => exact hyes.mono (fun _ h => h.1)
  | false => exact hno.mono (fun _ h => h.2 rfl)

theorem tells_pure {a : α} (h : ¬ bad a) : Tells bad (pure a : Act α) :=
  fun _ m => ⟨[], (List.append_nil _).symm,
    fun _ hb hbad => by cases hb; exact absurd hbad h, nofun⟩

theorem tells_crash : Tells bad (Prog.crash : Act α) :=
  fun _ m => ⟨[], (List.append_nil m.warnings).symm, nofun, nofun⟩

theorem tells_observe_bind {f : Store → Act β} (h : ∀ s, Tells bad' (f s)) :
    Tells bad' (Prog.observe >>= f) := fun s m => by
  rw [Prog.run_observe_bind]
  exact h s s m

theorem tells_recollect_bind {f : Memory → Act β} (h : ∀ m, Tells bad' (f m)) :
    Tells bad' (Prog.recollect >>= f) := fun s m => by
  rw [Prog.run_recollect_bind]
  exact h m s m

theorem tells_remember {g : Memory → Memory} (h : ∀ m, (g m).warnings = m.warnings)
    {bad : PUnit → Prop} (hbad : ¬ bad ⟨⟩) : Tells bad (Prog.remember g : Act PUnit) :=
  fun _ m => ⟨[], (h m).trans (List.append_nil _).symm, fun _ _ hb => absurd hb hbad, nofun⟩

theorem tells_emit (e : Effect) : Tells never (Prog.emit e : Act PUnit) :=
  fun _ m => ⟨[], (List.append_nil m.warnings).symm, fun _ _ h => h.elim, nofun⟩

theorem tells_warn (w : Warning) (hw : w ≠ .previousErrors) {bad : Unit → Prop} :
    Tells bad (warn w) :=
  fun _ _ => ⟨[w], rfl, fun _ _ _ => ⟨w, List.mem_singleton_self w, hw⟩, nofun⟩

/-- Warn and return what may be bad. -/
theorem tells_warn_pure (w : Warning) (hw : w ≠ .previousErrors) (a : α) :
    Tells bad (warn w >>= fun _ => pure a) :=
  Tells.bind (tells_warn w hw : Tells (fun _ => True) _)
    (fun _ => tells_pure (fun h => h.2 trivial))

theorem tells_quit (w : Warning) (hw : w ≠ .previousErrors) : Tells bad (quit w : Act α) := by
  intro s m
  rw [run_quit]
  refine ⟨[w], rfl, nofun, ?_⟩
  rintro _ ⟨⟩
  exact ⟨rfl, w, List.mem_singleton_self w, hw⟩

theorem tells_answer (a : Answer) : Tells never (answer a) :=
  tells_remember (fun _ => rfl) (fun h => h)

end Rules

section Setup
variable (env : Env) {α : Type} {bad : α → Prop}

theorem tells_nextFault : Tells never (nextFault env) :=
  fun s m => by
    rw [run_nextFault]
    exact ⟨[], (List.append_nil _).symm, fun _ _ h => h.elim, nofun⟩

theorem tells_succeeds : Tells never (succeeds env) :=
  (tells_nextFault env).then (fun fault => by cases fault <;> exact tells_pure (fun h => h))

/-- Both ways in which a call can go. -/
theorem Tells.succeeds {yes no : Act α} (hyes : Tells bad yes) (hno : Tells bad no) :
    Tells bad (succeeds env >>= fun ok => if ok = true then yes else no) :=
  (tells_succeeds env).then (fun ok => by cases ok <;> assumption)

theorem tells_emit_pure (e : Effect) {a : α} (h : ¬ bad a) :
    Tells bad (Prog.emit e >>= fun _ => pure a : Act α) :=
  Tells.then (tells_emit e) (fun _ => tells_pure h)

theorem tells_true : Tells fails (pure true : Act Bool) := tells_pure nofun

theorem tells_never_pure (a : α) : Tells never (pure a : Act α) := tells_pure (fun h => h)

theorem tells_loadModule : Tells fails (loadModule env) := by
  refine tells_observe_bind (fun s => ?_)
  split
  · exact Tells.succeeds env (tells_emit_pure _ nofun) (tells_warn_pure _ (by nofun) _)
  · exact tells_true

theorem tells_mountFilesystem : Tells fails (mountFilesystem env) := by
  refine tells_observe_bind (fun s => ?_)
  split
  · exact Tells.succeeds env (tells_emit_pure _ nofun) (tells_warn_pure _ (by nofun) _)
  · exact tells_true

theorem tells_switchOn : Tells fails (switchOn env) := by
  refine tells_observe_bind (fun s => ?_)
  split
  · exact Tells.succeeds env (tells_emit_pure _ nofun) (tells_warn_pure _ (by nofun) _)
  · exact tells_warn_pure _ (by nofun) _

theorem tells_loadBinfmtMisc : Tells fails (loadBinfmtMisc env) := by
  rw [loadBinfmtMisc]
  split
  · exact (tells_answer _).then (fun _ => tells_true)
  · refine Tells.test (tells_loadModule env) (tells_observe_bind (fun s => ?_)) (tells_never_pure _)
    split
    · exact Tells.test (tells_mountFilesystem env) (tells_switchOn env) (tells_never_pure _)
    · exact tells_warn_pure _ (by nofun) _

theorem tells_unmount : Tells fails (unmount env) :=
  Tells.succeeds env (tells_emit_pure _ nofun) (tells_warn_pure _ (by nofun) _)

theorem tells_unloadBinfmtMisc : Tells fails (unloadBinfmtMisc env) := by
  refine tells_observe_bind (fun s => ?_)
  split
  · exact (tells_answer _).then (fun _ => tells_true)
  · split
    · split
      · exact Tells.succeeds env (tells_emit_pure _ nofun) (tells_unmount env)
      · exact tells_unmount env
    · exact tells_true

end Setup

section Loads
variable (env : Env)

theorem tells_loadFormat (name : Text) (quiet : Bool) :
    Tells never (loadFormat env name quiet) := by
  refine tells_observe_bind (fun s => ?_)
  split
  · exact tells_never_pure _
  · refine Tells.succeeds env ?_ (tells_quit _ (by nofun))
    split
    · split
      · exact tells_never_pure _
      · exact tells_quit _ (by nofun)
    · exact tells_remember (fun _ => rfl) (fun h => h)

theorem tells_loadFormats (quiet : Bool) (names : List Text) :
    Tells never (loadFormats env quiet names) := by
  induction names with
  | nil => exact tells_never_pure _
  | cons name rest ih => exact (tells_loadFormat env name quiet).then (fun _ => ih)

theorem tells_loadAllFormats (quiet : Bool) : Tells never (loadAllFormats env quiet) :=
  Tells.succeeds env (tells_observe_bind (fun _ => tells_loadFormats env quiet _))
    (tells_quit _ (by nofun))

theorem tells_scanFormats (name : Text) (b : Binfmt) (t : Table Text Binfmt) (keys : List Text) :
    Tells never (scanFormats name b t keys) := by
  induction keys with
  | nil => exact tells_never_pure _
  | cons key rest ih =>
    rw [scanFormats]
    split
    · exact ih
    · split
      · exact ih
      · split
        · exact tells_crash
        · exact tells_never_pure _
        · exact ih

theorem tells_needDetector (name : Text) (b : Binfmt) : Tells never (needDetector env name b) := by
  rw [needDetector]
  split
  · exact tells_never_pure _
  · exact (tells_loadAllFormats env true).then
      (fun _ => tells_recollect_bind (fun _ => tells_scanFormats _ _ _ _))

end Loads

section Enable
variable (env : Env)

theorem tells_register (name : Text) (r : Registration) :
    Tells fails (Actions.register env name r) := by
  have hwrite : Tells never (writeRegister env r) := by
    refine (tells_nextFault env).then (fun fault => ?_)
    cases fault with
    | none =>
      refine tells_observe_bind (fun s => ?_)
      split
      · exact tells_emit_pure _ (fun h => h)
      · exact tells_never_pure _
    | error written => exact tells_never_pure _
    | ignored => exact tells_never_pure _
  rw [Actions.register]
  split
  · exact (tells_answer _).then (fun _ => tells_true)
  · refine Tells.succeeds env (hwrite.then (fun written => ?_)) (tells_warn_pure _ (by nofun) _)
    split
    · exact tells_true
    · exact tells_warn_pure _ (by nofun) _

theorem tells_enableFormat (name : Text) : Tells fails (enableFormat env name) := by
  refine (tells_loadFormat env name false).then (fun _ => tells_recollect_bind (fun m => ?_))
  split
  · split
    · exact tells_crash
    · exact tells_warn_pure _ (by nofun) _
  · exact (tells_needDetector env name _).then (fun _ => tells_register env name _)

theorem tells_actEnableName (name : Text) : Tells fails (actEnableName env name) := by
  refine Tells.test (tells_loadBinfmtMisc env) (tells_observe_bind (fun s => ?_))
    (tells_never_pure _)
  split
  · exact tells_warn_pure _ (by nofun) _
  · exact tells_enableFormat env name

/-- One part and the others: the failure of either has been told. -/
theorem Tells.both {p q : Act Bool} (hp : Tells fails p) (hq : Tells fails q) :
    Tells fails (do
      let worked ← p
      let others ← q
      return worked && others) := by
  refine hp.bind (fun worked => hq.bind (fun others => tells_pure ?_))
  rintro ⟨⟨hboth, hworked⟩, hothers⟩
  cases worked with
  | false => exact hworked rfl
  | true => exact hothers hboth

theorem tells_enableEach (names : List Text) : Tells fails (enableEach env names) := by
  induction names with
  | nil => exact tells_true
  | cons name rest ih =>
    refine tells_observe_bind (fun s => ?_)
    split
    · exact ih
    · exact (tells_actEnableName env name).both ih

theorem tells_actEnable (name : Option Text) : Tells fails (actEnable env name) := by
  cases name with
  | some name => exact tells_actEnableName env name
  | none =>
    exact Tells.test (tells_loadBinfmtMisc env) ((tells_loadAllFormats env false).then
      (fun _ => tells_recollect_bind (fun _ => tells_enableEach env _))) (tells_never_pure _)

end Enable

section Disable
variable (env : Env)

theorem tells_writeMinusOne (name : Text) : Tells never (writeMinusOne env name) := by
  refine (tells_nextFault env).then (fun fault => ?_)
  cases fault with
  | none =>
    simp only
    split
    · exact tells_never_pure _
    · split
      · exact tells_emit_pure _ (fun h => h)
      · exact tells_emit_pure _ (fun h => h)
  | error written => exact tells_never_pure _
  | ignored => exact tells_never_pure _

theorem tells_dropEntry (name : Text) : Tells fails (Actions.dropEntry env name) := by
  refine Tells.succeeds env ?_ (tells_warn_pure _ (by nofun) _)
  split
  · exact tells_warn_pure _ (by nofun) _
  · refine (tells_writeMinusOne env name).then (fun written => ?_)
    split
    · refine tells_observe_bind (fun s => ?_)
      split
      · exact tells_warn_pure _ (by nofun) _
      · exact tells_true
    · exact tells_warn_pure _ (by nofun) _

theorem tells_actDisableName (name : Text) : Tells fails (actDisableName env name) := by
  refine tells_observe_bind (fun s => ?_)
  split
  · split
    · split
      · exact (tells_answer _).then (fun _ => tells_true)
      · exact tells_dropEntry env name
    · exact tells_true
  · exact tells_true

theorem tells_disableEach (names : List Text) : Tells fails (disableEach env names) := by
  induction names with
  | nil => exact tells_true
  | cons name rest ih =>
    refine tells_observe_bind (fun s => ?_)
    split
    · exact (tells_actDisableName env name).both ih
    · exact ih

theorem tells_actDisable (name : Option Text) : Tells fails (actDisable env name) := by
  cases name with
  | some name => exact tells_actDisableName env name
  | none =>
    refine tells_observe_bind (fun s => ?_)
    split
    · refine (tells_loadAllFormats env false).then (fun _ => tells_recollect_bind (fun m => ?_))
      refine (tells_disableEach env _).bind (fun worked => ?_)
      -- whether the filesystem can be unmounted is ignored
      refine ((tells_unloadBinfmtMisc env).mono (fun _ h => h.elim)).then (fun _ => tells_pure ?_)
      exact fun h => h.2 h.1
    · exact tells_true

end Disable

section Install
variable (env : Env)

theorem tells_binfmtWrite (b : Option Binfmt) (file : Text) :
    Tells fails (binfmtWrite env b file) := by
  have hunlink : Tells never (unlinkFile env file) := by
    refine Tells.succeeds env (tells_observe_bind (fun s => ?_)) (tells_never_pure _)
    split
    · exact tells_emit_pure _ (fun h => h)
    · exact tells_never_pure _
  have happend : ∀ bytes, Tells never (appendBytes file bytes) := by
    intro bytes
    induction bytes with
    | nil => exact tells_never_pure _
    | cons byte rest ih => exact Tells.then (tells_emit _) (fun _ => ih)
  have hcontents : ∀ content, Tells never (writeContents env file content) := by
    intro content
    refine (tells_nextFault env).then (fun fault => ?_)
    cases fault <;> exact (happend _).then (fun _ => tells_never_pure _)
  rw [binfmtWrite.eq_def]
  refine hunlink.then (fun gone => ?_)
  split
  · refine Tells.succeeds env (Tells.then (tells_emit _) (fun _ => ?_))
      (tells_warn_pure _ (by nofun) _)
    split
    · exact tells_crash
    · refine (hcontents _).then (fun written => ?_)
      split
      · exact tells_true
      · exact tells_warn_pure _ (by nofun) _
  · exact tells_warn_pure _ (by nofun) _

theorem tells_enableInstalled (name : Text) (b : Binfmt) :
    Tells fails (enableInstalled env name b) := by
  refine Tells.then (tells_remember (fun _ => rfl) (fun h => h)) (fun _ => ?_)
  exact Tells.test (tells_actEnableName env name) tells_true
    (tells_warn_pure (.unableToEnable name) (by nofun) _)

theorem tells_installFile (name : Text) (b : Option Binfmt) :
    Tells fails (installFile env name b) := by
  have hrename : Tells never (renameMv env (tmpName name) name) := by
    have htry : Tells never (tryRename env (tmpName name) name) := by
      refine Tells.succeeds env ?_ (tells_never_pure _)
      split
      · exact tells_never_pure _
      · exact tells_emit_pure _ (fun h => h)
    refine htry.then (fun moved => ?_)
    split
    · exact tells_never_pure _
    · exact htry
  rw [installFile.eq_def]
  split
  · split
    · exact tells_crash
    · exact (tells_answer _).then (fun _ => tells_enableInstalled env name _)
  · refine Tells.test (tells_binfmtWrite env b _) (hrename.then (fun moved => ?_))
      (tells_never_pure _)
    split
    · split
      · exact tells_crash
      · exact tells_enableInstalled env name _
    · exact tells_warn_pure _ (by nofun) _

theorem tells_actInstall (name : Text) (b : Option Binfmt) :
    Tells fails (actInstall env name b) := by
  have hmanual : Tells fails (installUnlessManual env name b) := by
    refine tells_observe_bind (fun s => ?_)
    split
    · exact tells_warn_pure _ (by nofun) _
    · exact tells_installFile env name b
  have hreplace : Tells fails (replaceFormat env name b) := by
    refine tells_observe_bind (fun s => ?_)
    split
    · exact Tells.test (tells_actDisableName env name) hmanual
        (tells_warn_pure (.unableToDisable name) (by nofun) _)
    · exact hmanual
  rw [actInstall.eq_def]
  refine (tells_loadFormat env name true).then (fun _ => tells_recollect_bind (fun m => ?_))
  split
  · exact hreplace
  · split
    · exact tells_crash
    · split
      · split
        · exact hreplace
        · exact tells_warn_pure _ (by nofun) _
      · exact tells_crash

theorem tells_actRemove (name package : Text) : Tells fails (actRemove env name package) := by
  have hfile : Tells fails (removeFile env name) := by
    rw [removeFile]
    split
    · exact (tells_answer _).then (fun _ => tells_true)
    · refine Tells.succeeds env (Tells.then (tells_emit _) (fun _ => ?_))
        (tells_warn_pure _ (by nofun) _)
      exact Tells.then (tells_remember (fun _ => rfl) (fun h => h)) (fun _ => tells_true)
  have hformat : Tells fails (removeFormat env name) :=
    Tells.test (tells_actDisableName env name) hfile
      (tells_warn_pure (.unableToDisable name) (by nofun) _)
  refine tells_observe_bind (fun s => ?_)
  split
  · refine (tells_loadFormat env name true).then (fun _ => tells_recollect_bind (fun m => ?_))
    split
    · exact hformat
    · split
      · exact tells_crash
      · split
        · exact hformat
        · exact tells_warn_pure _ (by nofun) _
  · exact tells_warn_pure _ (by nofun) _

end Install

section Import
variable (env : Env)

theorem tells_importRecord (path id : Text) (import_ : Arguments) :
    Tells fails (importRecord env path id import_) := by
  have hdone : ∀ b, Tells fails (actInstall env id b >>= fun _ => pure true) := fun b =>
    ((tells_actInstall env id b).mono (fun _ h => h.elim)).then (fun _ => tells_true)
  have hwarn : ∀ {p : Act Bool} w, w ≠ .previousErrors → Tells fails p →
      Tells fails (warn w >>= fun _ => p) :=
    fun w hw hp => Tells.then (tells_warn w hw) (fun _ => hp)
  rw [importRecord]
  split
  · cases binfmtNew import_ with
    | error value =>
      simp only
      split
      · exact hwarn _ (by nofun) (tells_quit _ (by nofun))
      · exact tells_quit _ (by nofun)
    | ok result =>
      cases result with
      | error why =>
        simp only
        split
        · exact hwarn _ (by nofun) (hwarn _ (by nofun) (hdone none))
        · exact hwarn _ (by nofun) (hdone none)
      | ok b =>
        simp only
        split
        · exact hwarn _ (by nofun) (hdone (some b))
        · exact hdone (some b)
  · exact tells_warn_pure _ (by nofun) _

theorem tells_actImportName (name : Text) : Tells fails (actImportName env name) := by
  have hget : ∀ path, Tells never (getImport env path) := by
    intro path
    rw [getImport.eq_def]
    split
    · exact tells_warn_pure _ (by nofun) _
    · exact Tells.succeeds env (tells_never_pure _) (tells_warn_pure _ (by nofun) _)
  have hunless : ∀ path id import_, Tells fails (importUnlessLocal env path id import_) := by
    intro path id import_
    refine (tells_loadFormat env id true).then (fun _ => tells_recollect_bind (fun m => ?_))
    split
    · exact tells_importRecord env path id import_
    · split
      · exact tells_crash
      · split
        · exact tells_warn_pure _ (by nofun) _
        · exact tells_importRecord env path id import_
  rcases hpath : importPath env name with ⟨path, id⟩
  rw [actImportName.eq_def, hpath]
  simp only
  split
  · exact tells_warn_pure _ (by nofun) _
  · refine (hget path).then (fun table => ?_)
    split
    · exact tells_warn_pure _ (by nofun) _
    · split
      · exact tells_warn_pure _ (by nofun) _
      · exact hunless path id _

theorem tells_importEach (names : List Text) : Tells fails (importEach env names) := by
  induction names with
  | nil => exact tells_true
  | cons name rest ih =>
    rw [importEach]
    split
    · exact (tells_actImportName env name).both ih
    · exact ih

theorem tells_actImport (name : Option Text) : Tells fails (actImport env name) := by
  cases name with
  | some name => exact tells_actImportName env name
  | none => exact Tells.succeeds env (tells_importEach env _) (tells_warn_pure _ (by nofun) _)

end Import

section Answers
variable (env : Env)

theorem tells_actDisplayName (name : Text) : Tells fails (actDisplayName env name) := by
  refine (tells_loadFormat env name false).then (fun _ => tells_recollect_bind (fun m => ?_))
  split
  · exact tells_warn_pure _ (by nofun) _
  · refine tells_observe_bind (fun s => ?_)
    split
    · exact tells_crash
    · exact (tells_answer _).then (fun _ => tells_true)

theorem tells_actDisplay (name : Option Text) : Tells fails (actDisplay env name) := by
  have heach : ∀ names, Tells never (displayEach env names) := by
    intro names
    induction names with
    | nil => exact tells_never_pure _
    | cons name rest ih =>
      exact ((tells_actDisplayName env name).mono (fun _ h => h.elim)).then (fun _ => ih)
  cases name with
  | some name => exact tells_actDisplayName env name
  | none =>
    exact (tells_loadAllFormats env false).then (fun _ => tells_recollect_bind
      (fun _ => (heach _).then (fun _ => tells_true)))

end Answers

section Main
variable (env : Env)

theorem tells_installMode (name : Text) (args : Arguments) :
    Tells fails (installMode env name args) := by
  rw [installMode.eq_def]
  split
  · exact tells_quit _ (by nofun)
  · exact Tells.then (tells_warn _ (by nofun)) (fun _ => tells_actInstall env name none)
  · exact tells_actInstall env name _

/-- Every mode but --find, which can run out of memory without a word of its own. -/
theorem tells_runMode {o : Options} (hmode : o.mode ≠ none) (hfind : o.mode ≠ some .find) :
    Tells fails (runMode env o) := by
  rw [runMode.eq_def]
  split
  · exact absurd ‹_› hmode
  · exact tells_installMode env _ _
  · exact tells_actRemove env _ _
  · exact tells_actImport env _
  · exact tells_actDisplay env _
  · exact tells_actEnable env _
  · exact tells_actDisable env _
  · exact absurd ‹_› hfind

theorem run_printInterpreters (interpreters : List Find.Loaded) (s : Store) (m : Memory) :
    (printInterpreters interpreters).run s m = ⟨.returned (), { m with
      answers := m.answers ++ interpreters.map (fun f => .found f.interpreter) }, []⟩ := by
  induction interpreters generalizing m with
  | nil =>
    rw [printInterpreters, List.map_nil, List.append_nil]
    rfl
  | cons f rest ih =>
    have hfirst : (answer (.found f.interpreter)).run s m =
        ⟨.returned (), { m with answers := m.answers ++ [.found f.interpreter] }, []⟩ := rfl
    rw [printInterpreters, Prog.run_bind_returned hfirst, replay_nil, ih, List.map_cons,
      List.append_assoc]
    rfl

/-- A search returns 1, crashes, or leaves: with a diagnostic, or because memory is short. -/
theorem run_actFind_cases (executable : Text) (s : Store) (m : Memory) :
    ∃ m', ((actFind env executable).run s m = ⟨.returned true, m', []⟩ ∧
        m'.warnings = m.warnings) ∨
      ((actFind env executable).run s m = ⟨.crashed, m', []⟩ ∧ m'.warnings = m.warnings) ∨
      ((actFind env executable).run s m = ⟨.exited 1, m', []⟩ ∧ m'.warnings = m.warnings) ∨
      ∃ w, w ≠ .previousErrors ∧ (actFind env executable).run s m = ⟨.exited 2, m', []⟩ ∧
        m'.warnings = m.warnings ++ [w] := by
  have hquit : ∀ w : Warning, w ≠ .previousErrors → ∃ w', w' ≠ .previousErrors ∧
      (quit w : Act Bool).run s m.tick = ⟨.exited 2, m.tick.warned w, []⟩ ∧
        (m.tick.warned w).warnings = m.warnings ++ [w'] :=
    fun w hw => ⟨w, hw, run_quit w s m.tick, rfl⟩
  rw [actFind, run_succeeds_bind]
  cases env.ok m.clock with
  | false => exact ⟨_, Or.inr (Or.inr (Or.inr (hquit _ (by nofun))))⟩
  | true =>
    rw [if_pos rfl, Prog.run_observe_bind]
    split
    · exact ⟨_, Or.inr (Or.inr (Or.inr (hquit _ (by nofun))))⟩
    · exact ⟨_, Or.inr (Or.inr (Or.inr (hquit _ (by nofun))))⟩
    · exact ⟨m.tick, Or.inr (Or.inl ⟨rfl, rfl⟩)⟩
    · split
      · exact ⟨_, Or.inr (Or.inr (Or.inr (hquit _ (by nofun))))⟩
      · exact ⟨m.tick, Or.inr (Or.inr (Or.inl ⟨rfl, rfl⟩))⟩
    · split
      · exact ⟨m.tick, Or.inr (Or.inr (Or.inl ⟨rfl, rfl⟩))⟩
      · exact ⟨m.tick, Or.inr (Or.inl ⟨rfl, rfl⟩)⟩
      · rename_i interpreters _
        exact ⟨_, Or.inl ⟨Prog.run_bind_returned (run_printInterpreters interpreters s m.tick) _,
          rfl⟩⟩

theorem mode_of_parse {opts : List Opt} {o : Options} (hparse : parse opts = .ok o) :
    o.mode ≠ none := by
  intro hmode
  have hsuccess := (parse_induction (P := fun _ => True) trivial (fun _ _ _ _ _ => trivial)
    hparse).2
  rw [parseSuccess, hmode] at hsuccess
  cases hsuccess

/-- The exit status of main: a failure is told of once more. -/
theorem tells_exitStatus {p : Act Bool} (hp : Tells fails p) : Tells never (exitStatus p) := by
  intro s m
  obtain ⟨ws, hws, hbad, hleft⟩ := hp s m
  rw [exitStatus]
  rcases hrun : p.run s m with ⟨out, m', es⟩
  rw [hrun] at hws hbad hleft
  cases out with
  | returned worked =>
    rw [Prog.run_bind_returned hrun]
    cases worked with
    | true =>
      rw [if_pos rfl]
      exact ⟨ws, hws, fun _ _ h => h.elim, fun _ h => by cases h⟩
    | false =>
      rw [if_neg Bool.false_ne_true, run_quit]
      refine ⟨ws ++ [.previousErrors], ?_, fun _ _ h => h.elim, ?_⟩
      · change m'.warnings ++ [.previousErrors] = _
        rw [show m'.warnings = m.warnings ++ ws from hws, List.append_assoc]
      · rintro _ ⟨⟩
        exact ⟨rfl, (hbad false rfl rfl).before⟩
  | exited status =>
    rw [Prog.run_bind_exited hrun]
    refine ⟨ws, hws, fun _ _ h => h.elim, ?_⟩
    rintro _ ⟨⟩
    exact hleft status rfl
  | crashed =>
    rw [Prog.run_bind_crashed hrun]
    exact ⟨ws, hws, fun _ _ h => h.elim, fun _ h => by cases h⟩

/-- A search has a status of its own, where memory is short. -/
theorem exitStatus_actFind (executable : Text) (s : Store) (m : Memory) :
    ∃ ws, ((exitStatus (actFind env executable)).run s m).memory.warnings = m.warnings ++ ws ∧
      ∀ status, ((exitStatus (actFind env executable)).run s m).outcome = .exited status →
        (status = 2 ∧ Diagnosed ws) ∨ status = 1 := by
  rw [exitStatus]
  obtain ⟨m', ⟨hrun, hws⟩ | ⟨hrun, hws⟩ | ⟨hrun, hws⟩ | ⟨w, hw, hrun, hws⟩⟩ :=
    run_actFind_cases env executable s m
  · rw [Prog.run_bind_returned hrun, if_pos rfl]
    exact ⟨[], hws.trans (List.append_nil _).symm, fun _ h => by cases h⟩
  · rw [Prog.run_bind_crashed hrun]
    exact ⟨[], hws.trans (List.append_nil _).symm, fun _ h => by cases h⟩
  · rw [Prog.run_bind_exited hrun]
    refine ⟨[], hws.trans (List.append_nil _).symm, ?_⟩
    rintro _ ⟨⟩
    exact Or.inr rfl
  · rw [Prog.run_bind_exited hrun]
    refine ⟨[w], hws, ?_⟩
    rintro _ ⟨⟩
    exact Or.inl ⟨rfl, w, List.mem_singleton_self w, hw⟩

/-- Whatever is asked for and whatever fails: unless the usage was wrong, update-binfmts does
not end with status 2 before it has said more than that there were previous errors, and it
has no other status but 0, and 1 where --find is out of memory. No message is lost. -/
theorem main_tells (opts : List Opt) (s : Store) (m : Memory) :
    (∃ e, parse opts = .error e ∧ (CommandLine.main env opts).run s m = ⟨.exited 2, m, []⟩) ∨
      ∃ o ws, parse opts = .ok o ∧
        ((CommandLine.main env opts).run s m).memory.warnings = m.warnings ++ ws ∧
        ∀ status, ((CommandLine.main env opts).run s m).outcome = .exited status →
          (status = 2 ∧ Diagnosed ws) ∨ (status = 1 ∧ o.mode = some .find) := by
  cases hparse : parse opts with
  | error e =>
    refine Or.inl ⟨e, rfl, ?_⟩
    rw [CommandLine.main, hparse]
    rfl
  | ok o =>
    have hmain : CommandLine.main env opts =
        exitStatus (runMode { env with test := o.test } o) := by rw [CommandLine.main, hparse]
    rw [hmain]
    refine Or.inr ⟨o, ?_⟩
    by_cases hfind : o.mode = some .find
    · have hrunMode : runMode { env with test := o.test } o =
          actFind { env with test := o.test } (o.executable.getD []) := by
        rw [runMode.eq_def, hfind]
      rw [hrunMode]
      obtain ⟨ws, hws, hleft⟩ :=
        exitStatus_actFind { env with test := o.test } (o.executable.getD []) s m
      exact ⟨ws, rfl, hws, fun status h => (hleft status h).imp_right (fun h₁ => ⟨h₁, hfind⟩)⟩
    · obtain ⟨ws, hws, -, hleft⟩ := tells_exitStatus
        (tells_runMode { env with test := o.test } (mode_of_parse hparse) hfind) s m
      exact ⟨ws, rfl, hws, fun status h => Or.inl (hleft status h)⟩

end Main
end BinfmtSupport.Diagnostics
