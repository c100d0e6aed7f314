import BinfmtSupport.AllFormats
import BinfmtSupport.CommandLine

/-!
A run with --test changes nothing. Each step that would change something is guarded by the
flag on its own, in six actions that call each other; here the guards are put together, for
every action and every way in which it can end.
-/
namespace BinfmtSupport.Silence

open CText Kvhash Format Journal Stores Actions CommandLine Loading Enabling Installing AllFormats

section Reports
variable (env : Env)

/-- Printing what is known of a format takes no flag to be harmless. -/
theorem silent_actDisplay (name : Option Text) : Prog.Silent (actDisplay env name) := by
  have hone : ∀ n, Prog.Silent (actDisplayName env n) := by
    intro n
    rw [actDisplayName.eq_def]
    refine (silent_loadFormat env n false).bind (fun _ => ?_)
    refine Prog.silent_recollect.bind (fun m => ?_)
    split
    · exact (silent_warn _).bind (fun _ => Prog.silent_pure _)
    · refine Prog.silent_observe.bind (fun s => ?_)
      split
      · exact Prog.silent_crash
      · exact (silent_answer _).bind (fun _ => Prog.silent_pure _)
  have heach : ∀ names, Prog.Silent (displayEach env names) := by
    intro names
    induction names with
    | nil => exact Prog.silent_pure _
    | cons n rest ih => exact (hone n).bind (fun _ => ih)
  cases name with
  | some n => exact hone n
  | none =>
    refine (silent_loadAllFormats env false).bind (fun _ => ?_)
    refine Prog.silent_recollect.bind (fun m => ?_)
    exact (heach (env.walk m.formats)).bind (fun _ => Prog.silent_pure _)

theorem silent_actFind (executable : Text) : Prog.Silent (actFind env executable) := by
  have hprint : ∀ found, Prog.Silent (printInterpreters found) := by
    intro found
    induction found with
    | nil => exact Prog.silent_pure _
    | cons f rest ih => exact (silent_answer _).bind (fun _ => ih)
  intro s m
  rw [actFind, run_succeeds_bind]
  split
  · rw [Prog.run_observe_bind]
    split
    · rfl
    · rfl
    · rfl
    · split
      · rfl
      · rfl
    · split
      · rfl
      · rfl
      · exact (hprint _).bind (fun _ => Prog.silent_pure _) s m.tick
  · rfl

end Reports

section Test
variable (env : Env) (htest : env.test = true)
include htest

theorem silent_actImportName_test (path : Text) : Prog.Silent (actImportName env path) := by
  have hinstall : ∀ id b, Prog.Silent (actInstall env id b >>= fun _ => pure true) :=
    fun id b => (silent_actInstall_test env htest id b).bind (fun _ => Prog.silent_pure _)
  have hrecord : ∀ file id import_, Prog.Silent (importRecord env file id import_) := by
    intro file id import_
    rw [importRecord]
    split
    · cases binfmtNew import_ with
      | error value =>
        simp only
        split
        · exact (silent_warn _).bind (fun _ => silent_quit _)
        · exact silent_quit _
      | ok result =>
        cases result with
        | error why =>
          have hnull := (silent_warn (.rejected file why)).bind (fun _ => hinstall id none)
          simp only
          split
          · exact (silent_warn _).bind (fun _ => hnull)
          · exact hnull
        | ok b =>
          simp only
          split
          · exact (silent_warn _).bind (fun _ => hinstall id (some b))
          · exact hinstall id (some b)
    · exact (silent_warn _).bind (fun _ => Prog.silent_pure _)
  have hunless : ∀ file id import_, Prog.Silent (importUnlessLocal env file id import_) := by
    intro file id import_
    rw [importUnlessLocal.eq_def]
    refine (silent_loadFormat env id true).bind (fun _ => ?_)
    refine Prog.silent_recollect.bind (fun m => ?_)
    split
    · exact hrecord file id import_
    · split
      · exact Prog.silent_crash
      · split
        · exact (silent_warn _).bind (fun _ => Prog.silent_pure _)
        · exact hrecord file id import_
  have hget : ∀ file, Prog.Silent (getImport env file) := by
    intro file s m
    rw [getImport.eq_def]
    cases env.files file with
    | none => rfl
    | some content =>
      simp only [run_succeeds_bind]
      split <;> rfl
  rcases hpath : importPath env path with ⟨file, id⟩
  rw [actImportName.eq_def, hpath]
  simp only
  split
  · exact (silent_warn _).bind (fun _ => Prog.silent_pure _)
  · refine (hget file).bind (fun table => ?_)
    split
    · exact (silent_warn _).bind (fun _ => Prog.silent_pure _)
    · split
      · exact (silent_warn _).bind (fun _ => Prog.silent_pure _)
      · exact hunless file id _

theorem silent_actImport_test (path : Option Text) : Prog.Silent (actImport env path) := by
  have heach : ∀ paths, Prog.Silent (importEach env paths) := by
    intro paths
    induction paths with
    | nil => exact Prog.silent_pure _
    | cons path rest ih =>
      rw [importEach]
      split
      · refine (silent_actImportName_test env htest path).bind (fun worked => ?_)
        exact ih.bind (fun others => Prog.silent_pure _)
      · exact ih
  cases path with
  | some path => exact silent_actImportName_test env htest path
  | none =>
    intro s m
    rw [actImport, run_succeeds_bind]
    split
    · exact heach env.importNames s m.tick
    · rfl

theorem silent_runMode_test (o : Options) : Prog.Silent (runMode env o) := by
  rw [runMode.eq_def]
  split
  · exact Prog.silent_pure _
  · rw [installMode.eq_def]
    split
    · exact silent_quit _
    · exact (silent_warn _).bind (fun _ => silent_actInstall_test env htest _ none)
    · exact silent_actInstall_test env htest _ _
  · exact silent_actRemove_test env htest _ _
  · exact silent_actImport_test env htest _
  · exact silent_actDisplay env _
  · exact silent_actEnable_test env htest _
  · exact silent_actDisable_test env htest _
  · exact silent_actFind env _

end Test

/-- The flag is set by its own option and by no other. -/
theorem test_parseOpt {o o' : Options} {opt : Opt} (h : parseOpt o opt = .ok o')
    (hset : o.test = true ∨ opt = .test) : o'.test = true := by
  rcases hset with hset | rfl
  · have hflag : { o with test := true } = o := by
      cases o
      simp only at hset
      rw [hset]
    have hsame := parseOpt_test h
    rw [hflag, h] at hsame
    rw [Except.ok.inj hsame]
  · cases h
    rfl

/-- The flag stays set once --test was given. -/
theorem test_of_parse {opts : List Opt} {o : Options} (htest : Opt.test ∈ opts)
    (hparse : parse opts = .ok o) : o.test = true := by
  -- the options behind the flag are parsed with the flag already set
  have hfrom : ∀ (opts : List Opt) (o₀ : Options), (o₀.test = true ∨ Opt.test ∈ opts) →
      parseFrom o₀ opts = .ok o → o.test = true := by
    intro opts
    induction opts with
    | nil =>
      intro o₀ hset h
      have htest : o₀.test = true := hset.resolve_right List.not_mem_nil
      rw [parseFrom_nil h]
      exact htest
    | cons opt rest ih =>
      intro o₀ hset h
      rw [parseFrom] at h
      cases hopt : parseOpt o₀ opt with
      | error e =>
        rw [hopt] at h
        cases h
      | ok o₁ =>
        rw [hopt] at h
        refine ih o₁ ?_ h
        rcases hset with hset | hmem
        · exact Or.inl (test_parseOpt hopt (Or.inl hset))
        · rcases List.mem_cons.mp hmem with rfl | hmem
          · exact Or.inl (test_parseOpt hopt (Or.inr rfl))
          · exact Or.inr hmem
  exact hfrom opts .none (Or.inr htest) hparse

/-- Whatever the options and the state of the machine are, a run with --test has no
effects, however it ends. -/
theorem test_changes_nothing (env : Env) (opts : List Opt) (htest : Opt.test ∈ opts) (s : Store)
    (m : Memory) : ((CommandLine.main env opts).run s m).effects = [] := by
  cases hparse : parse opts with
  | error e =>
    rw [CommandLine.main, hparse]
    rfl
  | ok o =>
    rw [effects_main hparse]
    exact silent_runMode_test _ (test_of_parse htest hparse) o s m

/-- A run with --test and --enable, one of the formats being enabled already. -/
theorem test_changes_nothing_enable : ((CommandLine.main plainEnv [.test, .mode .enable []]).run
    (busyStore [wineEntry, qemuEntry]) Memory.fresh).effects = [] :=
  test_changes_nothing plainEnv [.test, .mode .enable []] (by decide) _ _

end BinfmtSupport.Silence
