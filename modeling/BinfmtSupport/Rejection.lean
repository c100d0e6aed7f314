import BinfmtSupport.Failure
import BinfmtSupport.ImportFiles
import BinfmtSupport.Records

/-!
What becomes of a record that binfmt_new refuses to build. The NULL goes on to
act_install, which notices only if the name is already taken or when it writes to the
file. So the run ends cleanly exactly when something else ends it first: a call that
fails, or for act_import one of the checks that come before binfmt_new.
-/
namespace BinfmtSupport.Rejection

open CText Kvhash Format Regstring Journal Stores Actions Loading Enabling Installing Failure
open Records CommandLine ImportFiles

def Untouched (s u : Store) : Prop :=
  (∀ key, u.file key = s.file key) ∧ u.kernel.entries = s.kernel.entries

/-- The run reports failure, uses no absent record and changes nothing. -/
def Harmless (s : Store) (r : Ran Effect Memory Unit) : Prop :=
  r.outcome = .exited 2 ∧ Untouched s (r.state s)

def Unreadable (env : Env) (s : Store) (name : Text) (time : ℕ) : Prop :=
  (s.file name).isSome = true ∧ env.ok time = false

/-- The temporary file is never opened, and there was none before. -/
def WriteBlocked (env : Env) (s : Store) (name : Text) (time : ℕ) : Prop :=
  env.ok time = false ∨ s.file (tmpName name) = none ∧ env.ok (time + 1) = false

/-- act_install gives up before it needs the record: the name is free for it, and the
entry of a corrupt file cannot be dropped or the temporary file cannot be opened. -/
def GivesUp (env : Env) (s : Store) (t : Table Text Binfmt) (name : Text) (time : ℕ) : Prop :=
  env.test = false ∧ visible s t name = none ∧
    ((s.file name = none ∧ s.kernel.procExists name = false ∧ WriteBlocked env s name time) ∨
    ((s.file name).isSome = true ∧ s.kernel.procExists name = false ∧
      WriteBlocked env s name (time + 1)) ∨
    ((s.file name).isSome = true ∧ s.kernel.procExists name = true ∧
      dropFails env name (time + 1) = true))

section Outcomes

def Failing (o : Outcome Bool) : Prop := o = .returned false ∨ o = .exited 2

/-- What main makes of the result of an action. -/
theorem harmless_exitStatus_iff (p : Act Bool) (s : Store) (m : Memory) :
    Harmless s ((exitStatus p).run s m) ↔
      Failing (p.run s m).outcome ∧ Untouched s ((p.run s m).state s) := by
  rcases hp : p.run s m with ⟨o, m', es⟩
  cases o with
  | returned r =>
    cases r with
    | true =>
      have hrun : (exitStatus p).run s m = ⟨.returned (), m', es⟩ := by
        rw [exitStatus, Prog.run_bind_returned hp, if_pos rfl, Prog.run_pure, Ran.after_mk,
          List.append_nil]
      rw [hrun]
      simp [Harmless, Failing]
    | false =>
      have hrun : (exitStatus p).run s m = ⟨.exited 2, m'.warned .previousErrors, es⟩ := by
        rw [exitStatus, Prog.run_bind_returned hp, if_neg Bool.false_ne_true, run_quit,
          Ran.after_mk, List.append_nil]
      rw [hrun]
      simp [Harmless, Failing, Ran.state]
  | exited status =>
    have hrun : (exitStatus p).run s m = ⟨.exited status, m', es⟩ := by
      rw [exitStatus, Prog.run_bind_exited hp]
    rw [hrun]
    simp [Harmless, Failing, Ran.state]
  | crashed =>
    have hrun : (exitStatus p).run s m = ⟨.crashed, m', es⟩ := by
      rw [exitStatus, Prog.run_bind_crashed hp]
    rw [hrun]
    simp [Harmless, Failing]

theorem untouched_self (s : Store) : Untouched s s := ⟨fun _ => rfl, rfl⟩

theorem untouched_of_status {s : Store} {es : List Effect}
    (h : es = [] ∨ es = [.status false]) : Untouched s (replay es s) := by
  rcases h with rfl | rfl <;> exact ⟨fun _ => rfl, rfl⟩

/-- Clearing is harmless only where there is nothing to clear. -/
theorem untouched_clearing_iff (s : Store) (file : Text) :
    Untouched s (replay (clearing s file) s) ↔ s.file file = none := by
  constructor
  · rintro ⟨hfiles, -⟩
    rw [← hfiles file, file_replay_clearing, if_pos rfl]
  · intro h
    have hnil : clearing s file = [] := by simp [clearing, h]
    rw [hnil]
    exact untouched_self s

/-- A dropped entry is missed, whatever is done to files afterwards. -/
theorem not_untouched_of_dropped {name : Text} {s : Store} {drop es : List Effect}
    (h : Dropped name s drop) (hne : drop ≠ []) (hfiles : ∀ e ∈ es, e.files ≠ [])
    (hdir : isDirectoryName name = false) (hctl : isControlName name = false) :
    ¬ Untouched s (replay (drop ++ es) s) := by
  rintro ⟨-, hentries⟩
  rcases h.shape with ⟨hnil, -⟩ | ⟨rfl, hex⟩
  · exact hne hnil
  · rw [replay_append, kernel_replay_of_files _ _ hfiles] at hentries
    have hnone : entriesNamed s.kernel name = [] := by
      rw [entriesNamed, ← hentries]
      exact entriesNamed_drop name s
    simp only [Kernel.procExists, hdir, hctl, Bool.false_or, Bool.and_eq_true,
      Kernel.hasEntry, List.any_eq_true] at hex
    obtain ⟨-, -, e, he, heq⟩ := hex
    rw [entriesNamed, List.filter_eq_nil_iff] at hnone
    exact hnone e he heq

end Outcomes

section Null
variable (env : Env) (name : Text)

theorem run_installFile_null (htest : env.test = false) (s : Store) (m : Memory) :
    ∃ m', (installFile env name none).run s m =
      if env.ok m.clock = true then
        if env.ok (m.clock + 1) = true then
          ⟨.crashed, m', clearing s (tmpName name) ++ [.create (tmpName name)]⟩
        else ⟨.returned false, m', clearing s (tmpName name)⟩
      else ⟨.returned false, m', []⟩ := by
  have hwrite := run_binfmtWrite env none (tmpName name) s m
  have hstep : (installFile env name none).run s m =
      ((binfmtWrite env none (tmpName name) >>= fun ok => if ok = true then do
          if ← renameMv env (tmpName name) name then Prog.crash
          else
            warn (.unableToInstall (tmpName name) name)
            return false
        else return false : Act Bool)).run s m := by
    rw [installFile.eq_def, if_neg (by simp [htest])]
  rw [hstep]
  cases hok : env.ok m.clock with
  | false =>
    simp only [hok, Bool.false_eq_true, if_false] at hwrite ⊢
    refine ⟨m.tick.warned (.unableToEnsureNonexistent (tmpName name)), ?_⟩
    rw [Prog.run_bind_returned hwrite]
    rfl
  | true =>
    cases hok' : env.ok (m.clock + 1) with
    | false =>
      simp only [hok, hok', if_true, Bool.false_eq_true, if_false] at hwrite ⊢
      refine ⟨m.tick.tick.warned (.unableToOpenForWriting (tmpName name)), ?_⟩
      rw [Prog.run_bind_returned hwrite, if_neg Bool.false_ne_true, Prog.run_pure, Ran.after_mk,
        List.append_nil]
    | true =>
      simp only [hok, hok', if_true, Prog.run_crash, Ran.after_mk, List.append_nil] at hwrite ⊢
      exact ⟨m.tick.tick, Prog.run_bind_crashed hwrite _⟩

/-- Without a record an installation can only take something away. -/
theorem loss_actInstall_null (htest : env.test = false) (s : Store) (m : Memory) :
    ∀ e ∈ ((actInstall env name none).run s m).effects, e.isLoss = true := by
  have hfile : ∀ t m, ∀ e ∈ ((installFile env name none).run t m).effects,
      e.isLoss = true := by
    intro t m
    obtain ⟨m', hrun⟩ := run_installFile_null env name htest t m
    rw [hrun]
    split
    · split
      · intro e he
        rcases List.mem_append.mp he with he | he
        · exact loss_clearing t (tmpName name) e he
        · rw [List.mem_singleton.mp he]
          rfl
      · exact loss_clearing t (tmpName name)
    · simp
  have hreplace : ∀ m, ∀ e ∈ ((replaceFormat env name none).run s m).effects,
      e.isLoss = true := by
    intro m
    rcases replaceFormat_cases env htest name none s m with
      ⟨m', hrun, -⟩ | ⟨m', es, hrun, hes, -⟩ | ⟨m₁, es, -, hdrop, -, -, hrun⟩
    · rw [hrun]
      simp
    · rw [hrun]
      exact loss_of_status hes
    · rw [hrun]
      intro e he
      rcases List.mem_append.mp he with he | he
      · exact hdrop.loss e he
      · exact hfile (replay es s) m₁ e he
  rcases loadFormat_cases env name true s m with ⟨m₁, hload, -⟩ | ⟨m₁, hload, -⟩
  · rw [run_actInstall_loaded hload]
    cases hold : kvhashLookup m₁.formats name with
    | none =>
      rw [run_comparePackages_free hold]
      exact hreplace m₁
    | some old =>
      rw [run_comparePackages_null hold]
      simp
  · rw [run_actInstall_unloaded hload]
    simp

theorem run_installFile_null_test (htest : env.test = true) (s : Store) (m : Memory) :
    ∃ m', (installFile env name none).run s m = ⟨.crashed, m', []⟩ := by
  rw [installFile.eq_def, if_pos htest]
  exact ⟨_, rfl⟩

/-- Writing a NULL record is harmless exactly when the file is never opened. -/
theorem installFile_null_iff (htest : env.test = false) (s : Store) (m : Memory) :
    (∀ status, ((installFile env name none).run s m).outcome ≠ .exited status) ∧
    (((installFile env name none).run s m).outcome = .returned false ∧
      Untouched s (((installFile env name none).run s m).state s) ↔
        WriteBlocked env s name m.clock) := by
  obtain ⟨m', hrun⟩ := run_installFile_null env name htest s m
  rw [hrun]
  cases hok : env.ok m.clock with
  | false =>
    simp only [Bool.false_eq_true, if_false]
    refine ⟨by simp, ?_⟩
    simp only [true_and, WriteBlocked, hok, true_or, iff_true]
    exact untouched_self s
  | true =>
    cases hok' : env.ok (m.clock + 1) with
    | false =>
      simp only [if_true, Bool.false_eq_true, if_false]
      refine ⟨by simp, ?_⟩
      simp only [true_and, WriteBlocked, hok, hok', Bool.true_eq_false, false_or, and_true]
      exact untouched_clearing_iff s (tmpName name)
    | true => simp [WriteBlocked, hok, hok']

theorem run_replaceFormat_null_test (htest : env.test = true) (s : Store) (m : Memory) :
    ∃ m', (replaceFormat env name none).run s m = ⟨.crashed, m', []⟩ := by
  have hmanual : ∀ m, ∃ m',
      (installUnlessManual env name none).run s m = ⟨.crashed, m', []⟩ := by
    intro m
    rw [installUnlessManual, Prog.run_observe_bind, if_neg (by simp [htest])]
    exact run_installFile_null_test env name htest s m
  rw [replaceFormat, Prog.run_observe_bind]
  split
  · obtain ⟨m₁, hrun⟩ := run_actDisableName_test env htest name s m
    obtain ⟨m₂, hcrash⟩ := hmanual m₁
    refine ⟨m₂, ?_⟩
    rw [Prog.run_bind_returned hrun, if_pos rfl, replay_nil, hcrash, Ran.after_nil]
  · exact hmanual m

/-- act_install with the NULL record, once the stored file is read. -/
theorem replaceFormat_null_iff (s : Store) (m : Memory) :
    (∀ status, ((replaceFormat env name none).run s m).outcome ≠ .exited status) ∧
    (((replaceFormat env name none).run s m).outcome = .returned false ∧
      Untouched s (((replaceFormat env name none).run s m).state s) ↔
        env.test = false ∧
          ((s.kernel.procExists name = false ∧ WriteBlocked env s name m.clock) ∨
          ((s.file name).isSome = true ∧ s.kernel.procExists name = true ∧
            dropFails env name m.clock = true))) := by
  cases htest : env.test with
  | true =>
    obtain ⟨m', hrun⟩ := run_replaceFormat_null_test env name htest s m
    rw [hrun]
    simp
  | false =>
    rcases replaceFormat_cases env htest name none s m with
      ⟨m', hrun, hfile, hex⟩ | ⟨m', es, hrun, hes, hfile, hex, hfails⟩ |
      ⟨m₁, es, -, hdrop, hworks, hkeep, hrun⟩
    · rw [hrun]
      simp [hfile, hex]
    · rw [hrun]
      refine ⟨by simp, ?_⟩
      simp only [hfile, hex, hfails, Bool.true_eq_false, false_and, false_or, and_self, iff_true,
        true_and]
      exact untouched_of_status hes
    · obtain ⟨hexit, hiff⟩ := installFile_null_iff env name htest (replay es s) m₁
      rcases hdrop.shape with ⟨rfl, hex⟩ | ⟨rfl, hex⟩
      · rw [hkeep rfl, Ran.after_nil, replay_nil] at hrun
        rw [hkeep rfl, replay_nil] at hexit hiff
        rw [hrun]
        refine ⟨hexit, ?_⟩
        simp only [hex, Bool.false_eq_true, false_and, and_false, or_false, true_and]
        exact hiff
      · have hfails := (hworks (by simp)).2
        rw [hrun]
        refine ⟨hexit, ?_⟩
        simp only [hex, hfails, Bool.true_eq_false, Bool.false_eq_true, false_and, and_false,
          or_false, iff_false]
        rintro ⟨-, hsame⟩
        obtain ⟨hdir, hctl⟩ := plain_of_dropFails env hfails
        obtain ⟨m', hinst⟩ :=
          run_installFile_null env name htest (replay [Effect.dropEntry name] s) m₁
        refine not_untouched_of_dropped hdrop (by simp) ?_ hdir hctl hsame
        intro e he
        change e ∈ ((installFile env name none).run
          (replay [Effect.dropEntry name] s) m₁).effects at he
        rw [hinst] at he
        split at he
        · split at he
          · rcases List.mem_append.mp he with he | he
            · exact files_of_mem_clearing he
            · rw [List.mem_singleton.mp he]
              simp [Effect.files]
          · exact files_of_mem_clearing he
        · simp at he

/-- act_install with the NULL record: the exact conditions under which it gives up
without harm. It leaves the process only where the stored file cannot be read. -/
theorem actInstall_null_iff (s : Store) (m : Memory) :
    ((∃ status, ((actInstall env name none).run s m).outcome = .exited status) →
      Unreadable env s name m.clock ∧
        ((actInstall env name none).run s m).effects = []) ∧
    (Failing ((actInstall env name none).run s m).outcome ∧
      Untouched s (((actInstall env name none).run s m).state s) ↔
        Unreadable env s name m.clock ∨ GivesUp env s m.formats name m.clock) := by
  have hload : ∀ m₁, (loadFormat env name true).run s m = ⟨.returned (), m₁, []⟩ →
      m₁.formats = remembered m.formats name (s.record name) →
      (visible s m.formats name = none →
        (actInstall env name none).run s m = (replaceFormat env name none).run s m₁) ∧
      ∀ old, visible s m.formats name = some old →
        (actInstall env name none).run s m = ⟨.crashed, m₁, []⟩ := by
    intro m₁ hrun hf₁
    have hlook : kvhashLookup m₁.formats name = visible s m.formats name := by
      rw [hf₁, lookup_remembered_self]
    rw [run_actInstall_loaded hrun]
    exact ⟨fun hv => run_comparePackages_free (hlook.trans hv),
      fun old hv => run_comparePackages_null (hlook.trans hv)⟩
  have hfailing : ∀ m₁, Failing ((replaceFormat env name none).run s m₁).outcome ↔
      ((replaceFormat env name none).run s m₁).outcome = .returned false := by
    intro m₁
    constructor
    · rintro (h | h)
      · exact h
      · exact absurd h ((replaceFormat_null_iff env name s m₁).1 2)
    · exact Or.inl
  cases hfile : s.file name with
  | none =>
    have hrec := record_of_missing hfile
    have hstep := hload m (run_loadFormat_missing env name true s m hfile) (by rw [hrec]; rfl)
    cases hv : visible s m.formats name with
    | some old =>
      rw [hstep.2 old hv]
      simp [Failing, Unreadable, GivesUp, hfile, hv]
    | none =>
      obtain ⟨hexit, hiff⟩ := replaceFormat_null_iff env name s m
      rw [hstep.1 hv]
      refine ⟨fun h => h.elim (fun status hs => absurd hs (hexit status)), ?_⟩
      rw [hfailing, hiff]
      simp [Unreadable, GivesUp, hfile, hv]
  | some content =>
    have hsome : (s.file name).isSome = true := by simp [hfile]
    cases hok : env.ok m.clock with
    | false =>
      obtain ⟨m', hrun⟩ := run_loadFormat_unreadable env name true s m hsome hok
      rw [run_actInstall_unloaded hrun]
      refine ⟨fun _ => ⟨⟨hsome, hok⟩, rfl⟩, ?_⟩
      simp only [Failing, or_true, true_and]
      exact ⟨fun _ => Or.inl ⟨hsome, hok⟩, fun _ => untouched_self s⟩
    | true =>
      have hstep := hload _ (run_loadFormat_quiet env name s m hsome hok) rfl
      cases hv : visible s m.formats name with
      | some old =>
        rw [hstep.2 old hv]
        simp [Failing, Unreadable, GivesUp, hok, hv]
      | none =>
        obtain ⟨hexit, hiff⟩ := replaceFormat_null_iff env name s
          { m.tick with formats := remembered m.formats name (s.record name) }
        rw [hstep.1 hv]
        refine ⟨fun h => h.elim (fun status hs => absurd hs (hexit status)), ?_⟩
        rw [hfailing, hiff]
        simp [Unreadable, GivesUp, hfile, hok, hv, Memory.tick]

end Null

section Callers
variable (env : Env)

/-- act_import hands the NULL record on and does not look at the result. -/
theorem run_importRecord_rejected (path id : Text) (args : Arguments) (why : Rejection)
    (hrej : binfmtNew args = .ok (.error why)) (s : Store) (m : Memory) :
    (kvhashExists args (text "package") = false ∧ ∃ m',
      (importRecord env path id args).run s m = ⟨.returned false, m', []⟩) ∨
    (kvhashExists args (text "package") = true ∧ ∃ m', m'.clock = m.clock ∧
      (importRecord env path id args).run s m =
        ((actInstall env id none >>= fun _ => pure true : Act Bool)).run s m') := by
  cases hpkg : kvhashExists args (text "package") with
  | false =>
    left
    refine ⟨rfl, m.warned (.packageLineMissing path), ?_⟩
    rw [importRecord, if_neg (by simp [hpkg])]
    rfl
  | true =>
    right
    refine ⟨rfl, ?_⟩
    rw [importRecord, if_pos hpkg]
    simp only [hrej]
    cases (argument args "interpreter").any env.executable with
    | true => exact ⟨m.warned (.rejected path why), rfl, run_warn_bind _ _ s m⟩
    | false =>
      refine ⟨(m.warned (.noExecutable path (argument args "interpreter"))).warned
        (.rejected path why), rfl, ?_⟩
      rw [if_pos (by simp), run_warn_bind, run_warn_bind]

/-- The record that the process has or finds under this name, if any, was installed by a
package. -/
def Packaged (s : Store) (t : Table Text Binfmt) (id : Text) : Prop :=
  ∀ old, visible s t id = some old → ∃ package, old.package = some package ∧ package ≠ [colon]

/-- What ends act_import cleanly although its table is rejected: one of the checks
before binfmt_new, or a file that cannot be read. -/
def ImportStops (env : Env) (s : Store) (t : Table Text Binfmt) (id : Text) (args : Arguments)
    (time : ℕ) : Prop :=
  isReserved id = true ∨ env.ok time = false ∨ args.entries = [] ∨
    Unreadable env s id (time + 1) ∨
    (Packaged s t id ∧
      (kvhashExists args (text "package") = false ∨ Unreadable env s id (time + 2)))

/-- A record that was read from a file has no absent member. -/
theorem stored_of_record {s : Store} {name : Text} {b : Binfmt}
    (h : s.record name = some b) : stored b = b := by
  unfold Store.record at h
  split at h
  · rename_i content hfile
    cases hl : binfmtLoad content with
    | error field =>
      rw [hl] at h
      cases h
    | ok b' =>
      rw [hl] at h
      cases h
      exact (lines_of_binfmtLoad hl).1
  · cases h

theorem package_of_record {s : Store} {name : Text} {b : Binfmt}
    (h : s.record name = some b) : ∃ package, b.package = some package := by
  rw [← stored_of_record h]
  exact ⟨_, rfl⟩

theorem magic_of_record {s : Store} {name : Text} {b : Binfmt}
    (h : s.record name = some b) : ∃ magic, b.magic = some magic := by
  rw [← stored_of_record h]
  exact ⟨_, rfl⟩

/-- The record of a command line has the type that was chosen. -/
theorem type_of_options {o : Options} {b : Binfmt} (hnew : binfmtNew (formatArgs o) = .ok (.ok b)) :
    b.type = if o.type = some .magic then text "magic" else text "extension" := by
  rcases (accepted_of_binfmtNew hnew).type_cases with ht | ⟨ht, -⟩
  · rw [argument_formatArgs_type] at ht
    exact (Option.some.inj ht).symm
  · rw [argument_formatArgs_type] at ht
    cases ht

/-- The parser makes sure that an installed record has a magic. -/
theorem magic_of_options {opts : List Opt} {o : Options} (hparse : parse opts = .ok o)
    (hmode : o.mode = some .install) {b : Binfmt}
    (hnew : binfmtNew (formatArgs o) = .ok (.ok b)) : b.magic.isSome = true := by
  rw [(accepted_of_binfmtNew hnew).magic, type_of_options hnew]
  cases ht : o.type with
  | none =>
    have hspec := (installable_of_parse hparse hmode).1
    rw [ht] at hspec
    cases hspec
  | some kind =>
    cases kind with
    | magic =>
      change (argument (formatArgs o) "magic").isSome = true
      rw [argument_formatArgs_magic]
      exact (checked_of_parse hparse).magic ht
    | extension =>
      change (argument (formatArgs o) "extension").isSome = true
      rw [argument_formatArgs_extension]
      exact (checked_of_parse hparse).extension ht

/-- The end of act_import with a rejected table: status 0 or a crash, unless the line
for the package is missing or the stored file cannot be read. -/
theorem importRecord_rejected_iff (path id : Text) (args : Arguments) (why : Rejection)
    (hrej : binfmtNew args = .ok (.error why)) (s : Store) (m : Memory) :
    Failing ((importRecord env path id args).run s m).outcome ∧
      Untouched s (((importRecord env path id args).run s m).state s) ↔
    kvhashExists args (text "package") = false ∨ Unreadable env s id m.clock := by
  rcases run_importRecord_rejected env path id args why hrej s m with
    ⟨hpkg, m', hrun⟩ | ⟨hpkg, m', hclock, hrun⟩
  · rw [hrun]
    simp only [hpkg, true_or, iff_true, Failing, true_and]
    exact untouched_self s
  · rw [hrun]
    simp only [hpkg, Bool.true_eq_false, false_or]
    obtain ⟨hexit, -⟩ := actInstall_null_iff env id s m'
    have hread : Unreadable env s id m.clock →
        ∃ m₃, (actInstall env id none).run s m' = ⟨.exited 2, m₃, []⟩ := by
      intro h
      rw [← hclock] at h
      obtain ⟨m₃, hun⟩ := run_loadFormat_unreadable env id true s m' h.1 h.2
      exact ⟨m₃, run_actInstall_unloaded hun⟩
    rcases hr : (actInstall env id none).run s m' with ⟨o, m'', es⟩
    rw [hr] at hexit hread
    cases o with
    | returned r =>
      rw [Prog.run_bind_returned hr]
      constructor
      · rintro ⟨h | h, -⟩ <;> cases h
      · intro h
        obtain ⟨m₃, hun⟩ := hread h
        cases hun
    | exited status =>
      rw [Prog.run_bind_exited hr]
      obtain ⟨hun, -⟩ := hexit ⟨status, rfl⟩
      rw [hclock] at hun
      obtain ⟨m₃, heq⟩ := hread hun
      cases heq
      constructor
      · intro _
        exact hun
      · intro _
        exact ⟨Or.inr rfl, untouched_self s⟩
    | crashed =>
      rw [Prog.run_bind_crashed hr]
      constructor
      · rintro ⟨h | h, -⟩ <;> cases h
      · intro h
        obtain ⟨m₃, hun⟩ := hread h
        cases hun

section

variable {env} {path id : Text} {args : Arguments} {s : Store} {m m₁ : Memory}

theorem run_importUnlessLocal_record
    (hload : (loadFormat env id true).run s m = ⟨.returned (), m₁, []⟩)
    (hpackaged : ∀ old, kvhashLookup m₁.formats id = some old →
      ∃ package, old.package = some package)
    (hother : ∀ old, kvhashLookup m₁.formats id = some old → old.package ≠ some [colon]) :
    (importUnlessLocal env path id args).run s m = (importRecord env path id args).run s m₁ := by
  rw [importUnlessLocal, Prog.run_bind_returned hload, Prog.run_recollect_bind, replay_nil,
    Ran.after_nil]
  cases hlook : kvhashLookup m₁.formats id with
  | none => rfl
  | some old =>
    obtain ⟨package, hp⟩ := hpackaged old hlook
    have hlocal : package ≠ [colon] := fun hcolon => hother old hlook (hcolon ▸ hp)
    simp only [hp]
    rw [if_neg hlocal]

theorem run_importUnlessLocal_local {old : Binfmt}
    (hload : (loadFormat env id true).run s m = ⟨.returned (), m₁, []⟩)
    (hlook : kvhashLookup m₁.formats id = some old) (hlocal : old.package = some [colon]) :
    (importUnlessLocal env path id args).run s m =
      ⟨.returned true, m₁.warned (.preservingLocalChanges id), []⟩ := by
  rw [importUnlessLocal, Prog.run_bind_returned hload, Prog.run_recollect_bind, replay_nil,
    Ran.after_nil]
  simp only [hlook, hlocal]
  rw [if_pos trivial, run_warn_bind, Prog.run_pure]

theorem run_importUnlessLocal_unpackaged {old : Binfmt}
    (hload : (loadFormat env id true).run s m = ⟨.returned (), m₁, []⟩)
    (hlook : kvhashLookup m₁.formats id = some old) (hnone : old.package = none) :
    (importUnlessLocal env path id args).run s m = ⟨.crashed, m₁, []⟩ := by
  rw [importUnlessLocal, Prog.run_bind_returned hload, Prog.run_recollect_bind, replay_nil,
    Ran.after_nil]
  simp only [hlook, hnone]
  rfl

end

/-- act_import once its table and the stored file are read. -/
theorem importLoaded_rejected_iff (path id : Text) (args : Arguments) (why : Rejection)
    (hrej : binfmtNew args = .ok (.error why)) {s : Store} {m m₁ : Memory}
    (hload : (loadFormat env id true).run s m = ⟨.returned (), m₁, []⟩)
    (hformats : m₁.formats = remembered m.formats id (s.record id)) :
    Failing ((importUnlessLocal env path id args).run s m).outcome ∧
      Untouched s (((importUnlessLocal env path id args).run s m).state s) ↔
    Packaged s m.formats id ∧
      (kvhashExists args (text "package") = false ∨ Unreadable env s id m₁.clock) := by
  have hlook : kvhashLookup m₁.formats id = visible s m.formats id := by
    rw [hformats, lookup_remembered_self]
  by_cases hpackaged : Packaged s m.formats id
  · rw [and_iff_right hpackaged]
    have hgood : ∀ old, kvhashLookup m₁.formats id = some old →
        ∃ package, old.package = some package ∧ package ≠ [colon] :=
      fun old hold => hpackaged old (hlook.symm.trans hold)
    rw [run_importUnlessLocal_record hload
      (fun old hold => (hgood old hold).imp (fun _ h => h.1))
      (fun old hold hlocal => by
        obtain ⟨package, hp, hne⟩ := hgood old hold
        rw [hp] at hlocal
        exact hne (Option.some.inj hlocal))]
    exact importRecord_rejected_iff env path id args why hrej s m₁
  · refine iff_of_false ?_ (fun h => hpackaged h.1)
    simp only [Packaged, not_forall] at hpackaged
    obtain ⟨old, hold, hbad⟩ := hpackaged
    rintro ⟨hfails, -⟩
    cases hp : old.package with
    | none =>
      rw [run_importUnlessLocal_unpackaged hload (hlook.trans hold) hp] at hfails
      rcases hfails with h | h <;> cases h
    | some package =>
      have hlocal : package = [colon] := by
        by_contra hne
        exact hbad ⟨package, hp, hne⟩
      rw [run_importUnlessLocal_local hload (hlook.trans hold)
        (hp.trans (by rw [hlocal]))] at hfails
      rcases hfails with h | h <;> cases h

/-- act_import once its table is read. -/
theorem importUnlessLocal_rejected_iff (path id : Text) (args : Arguments) (why : Rejection)
    (hrej : binfmtNew args = .ok (.error why)) (s : Store) (m : Memory) :
    Failing ((importUnlessLocal env path id args).run s m).outcome ∧
      Untouched s (((importUnlessLocal env path id args).run s m).state s) ↔
    Unreadable env s id m.clock ∨ (Packaged s m.formats id ∧
      (kvhashExists args (text "package") = false ∨ Unreadable env s id (m.clock + 1))) := by
  cases hfile : s.file id with
  | none =>
    have hrec := record_of_missing hfile
    refine (importLoaded_rejected_iff env path id args why hrej
      (run_loadFormat_missing env id true s m hfile) (by rw [hrec]; rfl)).trans ?_
    simp [Unreadable, hfile]
  | some content =>
    have hsome : (s.file id).isSome = true := by simp [hfile]
    cases hok : env.ok m.clock with
    | false =>
      obtain ⟨m', hrun⟩ := run_loadFormat_unreadable env id true s m hsome hok
      rw [importUnlessLocal, Prog.run_bind_exited hrun]
      exact iff_of_true ⟨Or.inr rfl, untouched_self s⟩ (Or.inl ⟨hsome, hok⟩)
    | true =>
      refine (importLoaded_rejected_iff env path id args why hrej
        (run_loadFormat_quiet env id s m hsome hok) rfl).trans ?_
      simp [Unreadable, hok, Memory.tick]

/-- act_import for one file whose table is rejected, wherever the process stands. -/
theorem actImportName_rejected_iff (file content : Text) (why : Rejection)
    (hfile : env.files (importPath env file).1 = some content)
    (hrej : binfmtNew (importTable content) = .ok (.error why)) (s : Store) (m : Memory) :
    Failing ((actImportName env file).run s m).outcome ∧
      Untouched s (((actImportName env file).run s m).state s) ↔
    ImportStops env s m.formats (importPath env file).2 (importTable content) m.clock := by
  rcases hpath : importPath env file with ⟨path, id⟩
  rw [hpath] at hfile
  have hread : (getImport env path).run s m = if env.ok m.clock = true then
        ⟨.returned (some (importTable content)), m.tick, []⟩
      else ⟨.returned none, m.tick.warned (.unableToOpen path), []⟩ := by
    simp only [getImport, hfile, run_succeeds_bind]
    split <;> rfl
  simp only [actImportName, hpath]
  cases hres : isReserved id with
  | true =>
    have hrun : (warn (.reserved id) >>= fun _ => pure false : Act Bool).run s m =
        ⟨.returned false, m.warned (.reserved id), []⟩ := rfl
    rw [if_pos rfl, hrun]
    simp only [Failing, true_or, true_and, ImportStops, hres, iff_true]
    exact untouched_self s
  | false =>
    rw [if_neg Bool.false_ne_true]
    cases hok : env.ok m.clock with
    | false =>
      rw [hok, if_neg Bool.false_ne_true] at hread
      rw [Prog.run_bind_returned hread]
      simp only [ImportStops, hok, true_or, or_true, iff_true]
      exact ⟨Or.inl rfl, untouched_self s⟩
    | true =>
      rw [hok, if_pos rfl] at hread
      rw [Prog.run_bind_returned hread]
      simp only [replay_nil, Ran.after_nil]
      cases hempty : (importTable content).entries.isEmpty with
      | true =>
        simp only [List.isEmpty_iff] at hempty
        simp only [ImportStops, hempty, true_or, or_true, iff_true, if_true]
        exact ⟨Or.inl rfl, untouched_self s⟩
      | false =>
        rw [if_neg Bool.false_ne_true]
        refine (importUnlessLocal_rejected_iff env path id (importTable content) why hrej s
          m.tick).trans ?_
        have hne : (importTable content).entries ≠ [] := by
          intro h
          simp [h] at hempty
        simp [ImportStops, hres, hok, hne, Memory.tick]

end Callers

def ComesToRejected (env : Env) (s : Store) (given : Option Text) (file : Text) (t : Store)
    (n : Memory) (content : Text) : Prop :=
  Begins env s file given t n ∧ env.files (importPath env file).1 = some content ∧
    ∃ why, binfmtNew (importTable content) = .ok (.error why)

/-- No rejected file makes the run change anything or use the absent record, and if there is
one the run reports failure, unless another file crashes it. -/
def ImportHarmless (env : Env) (s : Store) (given : Option Text) (status : Outcome Unit) : Prop :=
  ∀ file t n content, ComesToRejected env s given file t n content →
    (Failing ((actImportName env file).run t n).outcome ∧
      Untouched t (((actImportName env file).run t n).state t)) ∧
    (status = .exited 2 ∨ status = .crashed ∧ ∃ other t' n', Begins env s other given t' n' ∧
      (∀ content, ¬ ComesToRejected env s given other t' n' content) ∧
      ((actImportName env other).run t' n').outcome = .crashed)

/-- A rejected table: exactly when the run of --install or --import ends as it should. -/
theorem rejected_harmless_iff (env : Env) (opts : List Opt) (o : Options)
    (hparse : parse opts = .ok o) (s : Store) :
    (∀ why, o.mode = some .install → slash ∉ o.name.getD [] →
      binfmtNew (formatArgs o) = .ok (.error why) →
      (Harmless s ((CommandLine.main env opts).run s Memory.fresh) ↔
        Unreadable env s (o.name.getD []) 0 ∨
          GivesUp { env with test := o.test } s ∅ (o.name.getD []) 0)) ∧
    (o.mode = some .import →
      (ImportHarmless { env with test := o.test } s o.name
          ((CommandLine.main env opts).run s Memory.fresh).outcome ↔
        ∀ file t n content,
          ComesToRejected { env with test := o.test } s o.name file t n content →
          ImportStops env t n.formats (importPath env file).2 (importTable content) n.clock)) := by
  constructor
  · intro why hmode _ hrej
    simp only [CommandLine.main, hparse]
    rw [harmless_exitStatus_iff]
    have hrun : (runMode { env with test := o.test } o).run s Memory.fresh =
        (actInstall { env with test := o.test } (o.name.getD []) none).run s
          (Memory.fresh.warned (.rejected (o.name.getD []) why)) := by
      simp only [runMode, hmode, installMode, hrej]
      rw [run_warn_bind]
    rw [hrun]
    exact (actInstall_null_iff { env with test := o.test } (o.name.getD []) s _).2
  · intro hmode
    have hstops : ∀ file t n content,
        ComesToRejected { env with test := o.test } s o.name file t n content →
        (Failing ((actImportName { env with test := o.test } file).run t n).outcome ∧
          Untouched t (((actImportName { env with test := o.test } file).run t n).state t) ↔
        ImportStops env t n.formats (importPath env file).2 (importTable content) n.clock) := by
      rintro file t n content ⟨-, hfile, why, hrej⟩
      exact actImportName_rejected_iff { env with test := o.test } file content why hfile hrej t n
    constructor
    · intro hharmless file t n content hcomes
      exact (hstops file t n content hcomes).mp (hharmless file t n content hcomes).1
    · intro hall file t n content hcomes
      have hstep := (hstops file t n content hcomes).mpr (hall file t n content hcomes)
      refine ⟨hstep, ?_⟩
      rcases main_import_cases env hparse hmode s with
        ⟨-, hreturned⟩ | hexit | ⟨hcrash, other, t', n', hbegins, hout⟩
      · have htrue := hreturned file t n hcomes.1
        rcases hstep.1 with h | h <;> rw [h] at htrue <;> cases htrue
      · exact Or.inl hexit
      · refine Or.inr ⟨hcrash, other, t', n', hbegins, fun content' hrej => ?_, hout⟩
        have hother := (hstops other t' n' content' hrej).mpr (hall other t' n' content' hrej)
        rcases hother.1 with h | h <;> rw [h] at hout <;> cases hout

section Examples

def maskedOptions : List Opt :=
  [.mode .install [text "prog", text "/usr/bin/new"], .extension (text "foo"),
    .mask (text "ff")]

def maskedParsed : Options :=
  { Options.none with
    mode := some .install
    name := some (text "prog")
    interpreter := some (text "/usr/bin/new")
    type := some .extension
    extension := some (text "foo")
    mask := some (text "ff") }

def importOptions : List Opt := [.mode .import [text "prog"]]

def importParsed : Options :=
  { Options.none with
    mode := some .import
    name := some (text "prog") }

def bothEnv : Env :=
  { plainEnv with
    files := fun path =>
      if path = text "/usr/share/binfmts/prog" then
        some (text "package pkg\nmagic AB\nextension foo\n")
      else none }

def manualStore : Store :=
  { emptyStore with kernel := { emptyStore.kernel with entries :=
      [⟨text "prog", text "M", text "0", text "XY", [], text "/usr/bin/other", [[]]⟩] } }

def mixedEnv : Env :=
  { plainEnv with
    importNames := [text "wine", text "prog"]
    files := fun path =>
      if path = text "/usr/share/binfmts/wine" then
        some (text "package wine\nmagic MZ\ninterpreter /usr/bin/wine\n")
      else if path = text "/usr/share/binfmts/prog" then
        some (text "magic AB\nextension foo\n")
      else none }

def wholeOptions : List Opt := [.mode .import []]

/-- The good file is installed first, and the other one changes nothing. -/
theorem importStops_mixed {file : Text} {t : Store} {n : Memory} {content : Text}
    (h : ComesToRejected mixedEnv emptyStore none file t n content) :
    ImportStops mixedEnv t n.formats (importPath mixedEnv file).2 (importTable content)
      n.clock := by
  obtain ⟨hbegins, hfile, why, hrej⟩ := h
  cases hbegins with
  | listed hopen hreach =>
    have hprog : ∀ {t : Store} {n : Memory}, file = text "prog" →
        visible t n.formats (text "prog") = none →
        ImportStops mixedEnv t n.formats (importPath mixedEnv file).2 (importTable content)
          n.clock := by
      rintro t n rfl hnone
      have hcontent : mixedEnv.files (importPath mixedEnv (text "prog")).1 =
          some (text "magic AB\nextension foo\n") := by decide +kernel
      rw [hcontent] at hfile
      cases hfile
      have hid : (importPath mixedEnv (text "prog")).2 = text "prog" := by decide +kernel
      rw [hid]
      refine Or.inr (Or.inr (Or.inr (Or.inr ⟨fun old hold => ?_, Or.inl (by decide +kernel)⟩)))
      rw [hnone] at hold
      cases hold
    change Reaches mixedEnv file t n [text "wine", text "prog"] emptyStore
      Memory.fresh.tick at hreach
    cases hreach with
    | here hlisted =>
      have hcontent : mixedEnv.files (importPath mixedEnv (text "wine")).1 =
          some (text "package wine\nmagic MZ\ninterpreter /usr/bin/wine\n") := by decide +kernel
      have hgood : ((binfmtNew (importTable
          (text "package wine\nmagic MZ\ninterpreter /usr/bin/wine\n"))).toOption.bind
            Except.toOption).isSome = true := by decide +kernel
      rw [hcontent] at hfile
      cases hfile
      rw [hrej] at hgood
      cases hgood
    | past hlisted hrun hrest =>
      have hnone : visible (((actImportName mixedEnv (text "wine")).run emptyStore
          Memory.fresh.tick).state emptyStore) ((actImportName mixedEnv (text "wine")).run
            emptyStore Memory.fresh.tick).memory.formats (text "prog") = none := by decide +kernel
      rw [hrun] at hnone
      cases hrest with
      | here => exact hprog rfl hnone
      | past _ _ h => cases h
      | skip _ h => cases h
    | skip hlisted =>
      unfold Listed at hlisted
      exact absurd (by decide +kernel) hlisted

theorem rejected_harmless_examples :
    (Harmless emptyStore ((CommandLine.main plainEnv maskedOptions).run emptyStore
        Memory.fresh) ↔
      Unreadable plainEnv emptyStore (text "prog") 0 ∨
        GivesUp { plainEnv with test := false } emptyStore ∅ (text "prog") 0) ∧
    ImportHarmless mixedEnv emptyStore none
      ((CommandLine.main mixedEnv wholeOptions).run emptyStore Memory.fresh).outcome ∧
    ¬ ImportHarmless bothEnv manualStore (some (text "prog"))
      ((CommandLine.main bothEnv importOptions).run manualStore Memory.fresh).outcome := by
  refine ⟨?_, ?_, ?_⟩
  · exact (rejected_harmless_iff plainEnv maskedOptions maskedParsed rfl emptyStore).1
      .maskWithExtension rfl (by decide) (by decide +kernel)
  · exact ((rejected_harmless_iff mixedEnv wholeOptions
      { Options.none with mode := some .import } rfl emptyStore).2 rfl).mpr
      (fun _ _ _ _ hcomes => importStops_mixed hcomes)
  · intro hharmless
    have hstops := ((rejected_harmless_iff bothEnv importOptions importParsed rfl manualStore).2
      rfl).mp hharmless (text "prog") manualStore Memory.fresh
      (text "package pkg\nmagic AB\nextension foo\n")
      ⟨.given, by decide +kernel, .magicAndExtension, by decide +kernel⟩
    rcases hstops with h | h | h | ⟨h, -⟩ | ⟨-, h | ⟨h, -⟩⟩
    · exact absurd h (by decide +kernel)
    · exact absurd h (by decide)
    · exact absurd h (by decide +kernel)
    · exact absurd h (by decide +kernel)
    · exact absurd h (by decide +kernel)
    · exact absurd h (by decide +kernel)

/-- The installation uses the absent record and leaves an empty temporary file, while
the import reports success. -/
theorem rejected_goes_on :
    parse maskedOptions = .ok maskedParsed ∧
    binfmtNew (formatArgs maskedParsed) = .ok (.error .maskWithExtension) ∧
    ((CommandLine.main plainEnv maskedOptions).run emptyStore Memory.fresh).outcome =
      .crashed ∧
    (((CommandLine.main plainEnv maskedOptions).run emptyStore
      Memory.fresh).state emptyStore).file (text "prog.tmp") = some [] ∧
    ((CommandLine.main bothEnv importOptions).run manualStore Memory.fresh).outcome =
      .returned () ∧
    ¬ Harmless emptyStore ((CommandLine.main plainEnv maskedOptions).run emptyStore
      Memory.fresh) ∧
    ¬ Harmless manualStore ((CommandLine.main bothEnv importOptions).run manualStore
      Memory.fresh) := by
  have hinstall : ((CommandLine.main plainEnv maskedOptions).run emptyStore
      Memory.fresh).outcome = .crashed := by decide +kernel
  have himport : ((CommandLine.main bothEnv importOptions).run manualStore
      Memory.fresh).outcome = .returned () := by decide +kernel
  refine ⟨rfl, by decide +kernel, hinstall, by decide +kernel, himport, ?_, ?_⟩
  · rintro ⟨h, -⟩
    rw [hinstall] at h
    cases h
  · rintro ⟨h, -⟩
    rw [himport] at h
    cases h

end Examples
end BinfmtSupport.Rejection
