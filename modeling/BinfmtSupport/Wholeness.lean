import BinfmtSupport.Orphans
import BinfmtSupport.Footprint
import BinfmtSupport.Sweeping
import BinfmtSupport.Silence
import BinfmtSupport.RoundTrip

/-!
Whether a file of the database is ever half written. Only temporary files are written to,
and the rename that gives such a file the name of a format comes after the last byte of its
record. So a run can be killed anywhere, and the next runs as well: apart from the temporary
files, what is stored is as it was at the beginning, or it is all of one record.
-/
namespace BinfmtSupport.Wholeness

open CText Kvhash Format Regstring Journal Triples Stores Actions Records Loading Enabling
  Installing Footprint CommandLine

def Sourced (b : Binfmt) : Prop :=
  (∃ opts o, parse opts = .ok o ∧ binfmtNew (formatArgs o) = .ok (.ok b)) ∨
    ∃ content, binfmtNew (importTable content) = .ok (.ok b)

def IsTmp (name : Text) : Prop := text ".tmp" <:+ name

/-- Apart from temporary files, each file is as in this directory, or complete. -/
def Whole (d : Directory) (s : Store) : Prop :=
  ∀ name content, ¬ IsTmp name → s.file name = some content →
    d.lookup name = some content ∨ ∃ b, Sourced b ∧ content = b.contents

theorem isTmp_tmpName (name : Text) : IsTmp (tmpName name) := List.suffix_append name _

section Effects
variable {d : Directory} {s : Store}

/-- Where each file of a format was there before, nothing is worse than before. -/
theorem Whole.fewer (h : Whole d s) {t : Store}
    (hfile : ∀ name content, ¬ IsTmp name → t.file name = some content →
      s.file name = some content) : Whole d t :=
  fun name content htmp hc => h name content htmp (hfile name content htmp hc)

theorem Whole.noFiles (h : Whole d s) {e : Effect} (he : e.files = []) : Whole d (e.apply s) := by
  refine h.fewer (fun name content _ hc => ?_)
  simpa only [Store.file, admindir_apply_of_noFiles e s he] using hc

theorem Whole.unlink (h : Whole d s) (file : Text) : Whole d ((Effect.unlink file).apply s) := by
  refine h.fewer (fun name content _ hc => ?_)
  rw [file_unlink] at hc
  split at hc
  · cases hc
  · exact hc

theorem kept_write (d : Directory) (name : Text) : Kept (OfWrite name) (Whole d) := by
  intro e s he h
  refine h.fewer (fun key content htmp hc => ?_)
  have hne : key ∉ e.files := by
    intro hmem
    have hkey : key = tmpName name := by
      cases e <;> simp_all [OfWrite, Effect.files]
    exact htmp (hkey ▸ isTmp_tmpName name)
  exact (file_apply_of_notMem e key s hne).symm.trans hc

theorem kept_noFiles (d : Directory) {E : Effect → Prop} (h : ∀ e, E e → e.files = []) :
    Kept E (Whole d) := fun e _ he hs => hs.noFiles (h e he)

theorem files_ofEnable (name : Text) (e : Effect) (h : OfEnable name e) : e.files = [] := by
  cases e <;> simp_all [OfEnable, Effect.files, Effect.isSetup]

theorem files_ofDisable (name : Text) (e : Effect) (h : OfDisable name e) : e.files = [] := by
  cases e <;> simp_all [OfDisable, Effect.files, Effect.isSetup]

/-- A complete file takes the name of its format. -/
theorem Whole.move (h : Whole d s) {name : Text} {b : Binfmt} (hb : Sourced b)
    (hfile : s.file (tmpName name) = some b.contents) :
    Whole d ((Effect.rename (tmpName name) name).apply s) := by
  intro key content htmp hc
  rw [file_rename s hfile] at hc
  split at hc
  · cases hc
    exact Or.inr ⟨b, hb, rfl⟩
  · split at hc
    · cases hc
    · exact h key content htmp hc

end Effects

section Installation
variable (env : Env) {d : Directory} {name : Text}

/-- The temporary file is complete when the write has worked. -/
theorem triple_binfmtWrite (b : Binfmt) :
    Triple (Whole d) (fun s _ => Whole d s) (binfmtWrite env (some b) (tmpName name))
      (fun r s _ => Whole d s ∧ (r = true → s.file (tmpName name) = some b.contents)) := by
  have hkeeps : Keeps (Whole d) AnyTable (binfmtWrite env (some b) (tmpName name)) :=
    keeps_binfmtWrite env (kept_write d name) (some b)
  have hboth : Triple (Whole d) (fun s _ => Whole d s ∧ True)
      (binfmtWrite env (some b) (tmpName name))
      (fun r s _ => (Whole d s ∧ True) ∧
        (r = true → s.file (tmpName name) = some b.contents)) := by
    refine hkeeps.and (fun s m _ r hr htrue => ?_)
    subst htrue
    exact RoundTrip.file_of_binfmtWrite env b (tmpName name) s m hr
  exact hboth.conseq (fun _ _ h => ⟨h, trivial⟩) (fun _ _ _ h => ⟨h.1.1, h.2⟩)

/-- What is moved into place is complete. -/
theorem triple_renameMv {b : Binfmt} (hb : Sourced b) :
    Triple (Whole d) (fun s _ => Whole d s ∧ s.file (tmpName name) = some b.contents)
      (renameMv env (tmpName name) name) (fun _ s _ => Whole d s) := by
  refine triple_of_run (fun s m hpre => ?_)
  obtain ⟨hs, hfile⟩ := hpre
  rcases renameMv_cases env (tmpName name) name s m with ⟨m', hrun, -⟩ | ⟨m', hrun, -⟩
  · have hmoved := hs.move hb hfile
    exact ⟨_, m', _, hrun, along_singleton.mpr ⟨hs, hmoved⟩, fun _ _ => hmoved⟩
  · exact ⟨_, m', [], hrun, along_nil.mpr hs, fun _ _ => hs⟩

theorem keeps_enable (name : Text) : Keeps (Whole d) AnyTable (actEnableName env name) :=
  keeps_actEnableName env (kept_noFiles d (files_ofEnable name)) (fun _ _ _ _ _ => trivial)

theorem keeps_disable (name : Text) : Keeps (Whole d) AnyTable (actDisableName env name) :=
  keeps_actDisableName env (kept_noFiles d (files_ofDisable name))

theorem keeps_enableInstalled (b : Binfmt) :
    Keeps (Whole d) AnyTable (enableInstalled env name b) := by
  have hinsert : Keeps (Whole d) AnyTable (Prog.remember (fun m : Memory =>
      { m with formats := kvhashInsert m.formats name b }) : Act PUnit) :=
    stays_remember (fun _ h => h)
  refine hinsert.bind (fun _ => (keeps_enable env name).bind (fun worked => ?_))
  split
  · exact stays_pure _
  · exact keeps_warn_pure _ _

/-- No record means that nothing is moved. -/
theorem keeps_installFile_null : Keeps (Whole d) AnyTable (installFile env name none) := by
  rw [installFile.eq_def]
  split
  · exact stays_crash
  · intro s m hpre
    have hwrite := keeps_binfmtWrite env (T := AnyTable) (kept_write d name) none s m hpre
    rcases hrun : (binfmtWrite env none (tmpName name)).run s m with ⟨o, m', es⟩
    have hnot : o ≠ .returned true := by
      rw [run_binfmtWrite] at hrun
      split at hrun
      · split at hrun
        · cases hrun
          exact fun h => by cases h
        · cases hrun
          exact fun h => by cases h
      · cases hrun
        exact fun h => by cases h
    rw [hrun] at hwrite
    cases o with
    | returned written =>
      cases written with
      | true => exact absurd rfl hnot
      | false =>
        rw [Prog.run_bind_returned hrun, if_neg Bool.false_ne_true, Prog.run_pure, Ran.after_mk,
          List.append_nil]
        exact ⟨hwrite.1, fun _ _ => hwrite.2 false rfl⟩
    | exited status =>
      rw [Prog.run_bind_exited hrun]
      exact ⟨hwrite.1, fun _ h => by cases h⟩
    | crashed =>
      rw [Prog.run_bind_crashed hrun]
      exact ⟨hwrite.1, fun _ h => by cases h⟩

theorem keeps_installFile_some {b : Binfmt} (hb : Sourced b) :
    Keeps (Whole d) AnyTable (installFile env name (some b)) := by
  rw [installFile.eq_def]
  split
  · exact (keeps_answer _).bind (fun _ => keeps_enableInstalled env b)
  · have hwarn : ∀ w, Triple (Whole d) (fun s _ => Whole d s)
        (warn w >>= fun _ => pure false : Act Bool) (fun _ s _ => Whole d s) := fun w =>
      triple_of_run (fun s m hpre => ⟨_, _, [], rfl, along_nil.mpr hpre, fun _ _ => hpre⟩)
    have hall : Triple (Whole d) (fun s _ => Whole d s) (do
        if ← binfmtWrite env (some b) (tmpName name) then
          if ← renameMv env (tmpName name) name then enableInstalled env name b
          else
            warn (.unableToInstall (tmpName name) name)
            return false
        else return false : Act Bool) (fun _ s _ => Whole d s) := by
      refine (triple_binfmtWrite env b).bind (fun written => ?_)
      cases written with
      | false => exact triple_pure (fun _ _ h => h.1) (fun _ _ h => h.1)
      | true =>
        refine Triple.bind ((triple_renameMv env hb).conseq (fun _ _ h => ⟨h.1, h.2 rfl⟩)
          (fun _ _ _ h => h)) (fun moved => ?_)
        cases moved with
        | false => exact hwarn _
        | true =>
          exact (keeps_enableInstalled env b).conseq (fun _ _ h => ⟨h, trivial⟩)
            (fun _ _ _ h => h.1)
    exact hall.conseq (fun _ _ h => h.1) (fun _ _ _ h => ⟨h, trivial⟩)

/-- An installation can be cut anywhere. -/
theorem keeps_install (b : Option Binfmt) (hb : ∀ b', b = some b' → Sourced b') :
    Keeps (Whole d) AnyTable (actInstall env name b) := by
  refine keeps_actInstall_of_file env (fun _ _ _ _ _ => trivial) (keeps_disable env name) ?_
  cases b with
  | none => exact keeps_installFile_null env
  | some b => exact keeps_installFile_some env (hb b rfl)

end Installation

section Import
variable (env : Env) {d : Directory}

theorem keeps_importRecord (path id : Text) (content : List Byte) :
    Keeps (Whole d) AnyTable (importRecord env path id (importTable content)) := by
  have hdone : ∀ b, (∀ b', b = some b' → Sourced b') →
      Keeps (Whole d) AnyTable (actInstall env id b >>= fun _ => pure true) :=
    fun b hb => (keeps_install env b hb).bind (fun _ => stays_pure _)
  rw [importRecord]
  split
  · cases hnew : binfmtNew (importTable content) with
    | error value =>
      simp only
      split
      · exact (keeps_warn _).bind (fun _ => keeps_quit _)
      · exact keeps_quit _
    | ok result =>
      cases result with
      | error why =>
        have hnull := (keeps_warn (I := Whole d) (T := AnyTable) (.rejected path why)).bind
          (fun _ => hdone none (fun _ h => by cases h))
        simp only
        split
        · exact (keeps_warn _).bind (fun _ => hnull)
        · exact hnull
      | ok b =>
        have hnew' := hdone (some b) (fun b' hb' => by
          cases hb'
          exact Or.inr ⟨content, hnew⟩)
        simp only
        split
        · exact (keeps_warn _).bind (fun _ => hnew')
        · exact hnew'
  · exact keeps_warn_pure _ _

theorem keeps_importName (path : Text) : Keeps (Whole d) AnyTable (actImportName env path) := by
  have hunless : ∀ file id content,
      Keeps (Whole d) AnyTable (importUnlessLocal env file id (importTable content)) := by
    intro file id content
    have hrecord := keeps_importRecord env (d := d) file id content
    refine (keeps_loadFormat env (fun _ _ _ _ _ => trivial) id true).bind (fun _ => ?_)
    refine stays_recollect_bind (fun m => ?_)
    cases kvhashLookup m.formats id with
    | none => exact hrecord
    | some b =>
      cases hpackage : b.package with
      | none =>
        simp only [hpackage]
        exact stays_crash
      | some package =>
        simp only [hpackage]
        split
        · exact keeps_warn_pure _ _
        · exact hrecord
  rcases hpath : importPath env path with ⟨file, id⟩
  rw [actImportName.eq_def, hpath]
  simp only
  split
  · exact keeps_warn_pure _ _
  · refine Triple.bind (triple_getImport env file) (fun table => ?_)
    cases table with
    | none => exact Triple.conseq (keeps_warn_pure _ _) (fun _ _ h => h.1) (fun _ _ _ h => h)
    | some import_ =>
      intro s m hpre
      obtain ⟨hs, htable⟩ := hpre
      obtain ⟨content, hcontent, himport⟩ := htable import_ rfl
      subst himport
      simp only
      split
      · exact keeps_warn_pure _ _ s m hs
      · exact hunless file id content s m hs

theorem keeps_import (import_ : Option Text) : Keeps (Whole d) AnyTable (actImport env import_) :=
  keeps_actImport env import_ (fun path _ => keeps_importName env path)

end Import

section Modes
variable (env : Env) {d : Directory}

theorem keeps_silent {α : Type} {p : Act α} (h : Prog.Silent p) : Keeps (Whole d) AnyTable p :=
  fun s m hpre => by
    rw [Ran.state, h s m]
    exact ⟨along_nil.mpr hpre.1, fun _ _ => ⟨hpre.1, trivial⟩⟩

theorem keeps_enableAll : Keeps (Whole d) AnyTable (actEnable env none) := by
  have heach : ∀ names, Keeps (Whole d) AnyTable (enableEach env names) := by
    intro names
    induction names with
    | nil => exact stays_pure _
    | cons name rest ih =>
      refine stays_observe_bind (fun t => ?_)
      split
      · exact ih
      · exact (keeps_enable env name).bind (fun worked => ih.bind (fun others => stays_pure _))
  rw [actEnable.eq_def]
  refine (keeps_loadBinfmtMisc env (kept_noFiles d files_of_isSetup)).bind (fun loaded => ?_)
  split
  · refine (keeps_silent (silent_loadAllFormats env false)).bind (fun _ => ?_)
    exact stays_recollect_bind (fun m => heach _)
  · exact stays_pure _

theorem keeps_disableAll : Keeps (Whole d) AnyTable (actDisable env none) := by
  have heach : ∀ names, Keeps (Whole d) AnyTable (disableEach env names) := by
    intro names
    induction names with
    | nil => exact stays_pure _
    | cons name rest ih =>
      refine stays_observe_bind (fun t => ?_)
      split
      · exact (keeps_disable env name).bind (fun worked => ih.bind (fun others => stays_pure _))
      · exact ih
  have humount : Keeps (Whole d) AnyTable (Prog.emit .umount : Act PUnit) :=
    stays_emit (fun _ ht => ht.noFiles rfl)
  have hunmount : Keeps (Whole d) AnyTable (unmount env) := by
    refine (keeps_succeeds env).bind (fun ok => ?_)
    split
    · exact humount.bind (fun _ => stays_pure _)
    · exact keeps_warn_pure _ _
  have hunload : Keeps (Whole d) AnyTable (unloadBinfmtMisc env) := by
    refine stays_observe_bind (fun t => ?_)
    split
    · exact (keeps_answer _).bind (fun _ => stays_pure _)
    · split
      · split
        · refine (keeps_succeeds env).bind (fun ok => ?_)
          split
          · exact humount.bind (fun _ => stays_pure _)
          · exact hunmount
        · exact hunmount
      · exact stays_pure _
  rw [actDisable.eq_def]
  refine stays_observe_bind (fun t => ?_)
  split
  · refine (keeps_silent (silent_loadAllFormats env false)).bind (fun _ => ?_)
    refine stays_recollect_bind (fun m => (heach _).bind (fun worked => ?_))
    exact hunload.bind (fun _ => stays_pure _)
  · exact stays_pure _

/-- A removal takes files away only. -/
theorem keeps_remove (name package : Text) :
    Keeps (Whole d) AnyTable (actRemove env name package) := by
  have hfile : Keeps (Whole d) AnyTable (removeFile env name) := by
    rw [removeFile]
    split
    · exact (keeps_answer _).bind (fun _ => stays_pure _)
    · refine (keeps_succeeds env).bind (fun ok => ?_)
      split
      · refine Stays.bind (stays_emit (fun s hs => hs.unlink name)) (fun _ => ?_)
        exact Stays.bind (stays_remember (fun _ h => h)) (fun _ => stays_pure _)
      · exact keeps_warn_pure _ _
  have hformat : Keeps (Whole d) AnyTable (removeFormat env name) := by
    refine (keeps_disable env name).bind (fun worked => ?_)
    split
    · exact hfile
    · exact keeps_warn_pure _ _
  refine stays_observe_bind (fun s => ?_)
  split
  · refine (keeps_silent (silent_loadFormat env name true)).bind (fun _ => ?_)
    refine stays_recollect_bind (fun m => ?_)
    cases kvhashLookup m.formats name with
    | none => exact hformat
    | some old =>
      cases hpackage : old.package with
      | none =>
        simp only [hpackage]
        exact stays_crash
      | some oldPackage =>
        simp only [hpackage]
        split
        · exact hformat
        · exact keeps_warn_pure _ _
  · exact keeps_warn_pure _ _

/-- Whatever a run is asked to do and however it goes, it can be cut anywhere. -/
theorem keeps_runMode {opts : List Opt} {o : Options} (hparse : parse opts = .ok o) :
    Keeps (Whole d) AnyTable (runMode env o) := by
  rw [runMode.eq_def]
  split
  · exact stays_pure _
  · rw [installMode.eq_def]
    split
    · exact keeps_quit _
    · exact (keeps_warn _).bind (fun _ => keeps_install env none (fun _ h => by cases h))
    · rename_i b hnew
      refine keeps_install env (some b) (fun b' hb' => ?_)
      cases hb'
      exact Or.inl ⟨opts, o, hparse, hnew⟩
  · exact keeps_remove env _ _
  · exact keeps_import env _
  · exact keeps_silent (Silence.silent_actDisplay env _)
  · cases o.name with
    | none => exact keeps_enableAll env
    | some name => exact keeps_enable env name
  · cases o.name with
    | none => exact keeps_disableAll env
    | some name => exact keeps_disable env name
  · exact keeps_silent (Silence.silent_actFind env _)

end Modes

/-- One run of any accepted command line, which may be killed at any point. Between two runs
anything can become of the kernel: it is restarted, say. -/
inductive Step : Store → Store → Prop
  | run (env : Env) (opts : List Opt) (o : Options) (s : Store) (k : Kernel)
      (done : List Effect) (hparse : parse opts = .ok o)
      (hdone : done <+: ((CommandLine.main env opts).run { s with kernel := k }
        Memory.fresh).effects) :
      Step s (replay done { s with kernel := k })

theorem whole_step {d : Directory} {s t : Store} (h : Step s t) (hs : Whole d s) : Whole d t := by
  obtain ⟨env, opts, o, _, k, done, hparse, hdone⟩ := h
  rw [effects_main hparse] at hdone
  have hkeeps := keeps_runMode { env with test := o.test } (d := d) hparse
  exact hkeeps.along (show Whole d { s with kernel := k } from hs) trivial done hdone

theorem whole_of_runs {s t : Store} (hruns : Relation.ReflTransGen Step s t) :
    Whole s.admindir t := by
  induction hruns with
  | refl => exact fun _ _ _ hc => Or.inl hc
  | tail _ hstep ih => exact whole_step hstep ih

section Example

instance (name : Text) : Decidable (IsTmp name) :=
  inferInstanceAs (Decidable (text ".tmp" <:+ name))

def killed (n : ℕ) (s : Store) : Store :=
  replay (((CommandLine.main plainEnv Orphans.installOptions).run s Memory.fresh).effects.take n) s

theorem step_killed (n : ℕ) (s : Store) : Step s (killed n s) :=
  Step.run plainEnv Orphans.installOptions Orphans.installParsed s s.kernel _ (by decide +kernel)
    (List.take_prefix n _)

end Example
end BinfmtSupport.Wholeness
