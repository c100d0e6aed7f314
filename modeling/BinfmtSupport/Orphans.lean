import BinfmtSupport.CommandLine
import BinfmtSupport.Failure
import BinfmtSupport.Footprint

/-!
Does every kernel entry have a stored record? Removal drops the entry before the file and
looks whether it is gone, installation moves the file into place before it registers, so
that a run can be cut or fail anywhere. What the invariant needs besides is that no entry
is called like a temporary file: an installation begins by deleting that.
-/
namespace BinfmtSupport.Orphans

open CText Kvhash Format Regstring Journal Stores Actions CommandLine Loading Enabling
open Installing AllFormats Triples Footprint

def remounted (s : Store) (mount : Mount) : Store :=
  { s with kernel := { s.kernel with mount := mount } }

def Backed (s : Store) : Prop := ∀ e ∈ s.kernel.entries, (s.file e.name).isSome = true

/-- Names without colons, none of which is another one with ".tmp" after it. -/
structure Usable (used : Text → Prop) : Prop where
  noColon : ∀ name, used name → colon ∉ name
  noTmp : ∀ name other, used name → used other → name ≠ tmpName other

structure Safe (used : Text → Prop) (s : Store) : Prop where
  backed : Backed s
  noTmp : ∀ e ∈ s.kernel.entries, ∀ name, used name → e.name ≠ tmpName name

def SafeOver (used : Text → Prop) (d : Directory) (t : Store) : Prop :=
  Safe used t ∧ t.admindir = d

def TableStored (s : Store) (t : Table Text Binfmt) : Prop :=
  ∀ name, (kvhashLookup t name).isSome = true → (s.record name).isSome = true

section Effects
variable {used : Text → Prop} {s t : Store}

/-- Fewer entries over the same files, or over more of them, are as safe. -/
theorem Safe.fewer (h : Safe used s) (hentries : ∀ e ∈ t.kernel.entries, e ∈ s.kernel.entries)
    (hfiles : ∀ e ∈ t.kernel.entries, (s.file e.name).isSome = true →
      (t.file e.name).isSome = true) : Safe used t :=
  ⟨fun e he => hfiles e he (h.backed e (hentries e he)), fun e he => h.noTmp e (hentries e he)⟩

theorem Safe.setup (h : Safe used s) {e : Effect} (he : e.isSetup = true) :
    Safe used (e.apply s) := by
  have hadm := admindir_apply_of_noFiles e s (files_of_isSetup e he)
  refine h.fewer ?_ ?_
  · rw [entries_apply_of_setup e s he]
    exact fun _ hx => hx
  · simp only [Store.file, hadm]
    exact fun _ _ hx => hx

theorem Safe.umount (h : Safe used s) : Safe used (Effect.umount.apply s) :=
  h.fewer (fun _ he => he) (fun _ _ he => he)

theorem Safe.drop (h : Safe used s) (name : Text) :
    Safe used ((Effect.dropEntry name).apply s) :=
  h.fewer (fun _ he => List.mem_of_mem_filter he) (fun _ _ he => he)

theorem kept_disable (used : Text → Prop) (name : Text) :
    Kept (OfDisable name) (Safe used) := by
  intro e s he hs
  cases e with
  | dropEntry entry => exact hs.drop entry
  | modprobe result => exact hs.setup he
  | mount => exact hs.setup he
  | status enabled => exact hs.setup he
  | _ => cases he

/-- No entry loses its file when the temporary file of a used name is written. -/
theorem kept_write {name : Text} (hused : used name) : Kept (OfWrite name) (Safe used) := by
  intro e s he hs
  have hfiles : e.files = [tmpName name] := by
    cases e <;> simp_all [OfWrite, Effect.files]
  have hkernel := kernel_apply_of_files e s (by simp [hfiles])
  refine hs.fewer ?_ ?_
  · rw [hkernel]
    exact fun _ hx => hx
  · intro x hx hfile
    rw [hkernel] at hx
    rw [file_apply_of_notMem e x.name s (by simpa [hfiles] using hs.noTmp x hx name hused)]
    exact hfile

/-- Nor when that file is moved into place. -/
theorem Safe.move (h : Safe used s) {name : Text} (hused : used name) :
    Safe used ((Effect.rename (tmpName name) name).apply s) := by
  have hkernel := kernel_apply_of_files (.rename (tmpName name) name) s (by simp [Effect.files])
  cases hc : s.file (tmpName name) with
  | none =>
    rw [apply_rename_missing _ _ s hc]
    exact h
  | some content =>
    refine h.fewer ?_ ?_
    · rw [hkernel]
      exact fun _ hx => hx
    · intro x hx hfile
      rw [hkernel] at hx
      rw [file_rename s hc]
      split
      · rfl
      · rw [if_neg (h.noTmp x hx name hused)]
        exact hfile

/-- A new entry for a name that has a file, among unchanged files. -/
theorem kept_enable {d : Directory} {name : Text} (hcolon : colon ∉ name)
    (htmp : ∀ other, used other → name ≠ tmpName other) (hfile : (d.lookup name).isSome = true) :
    Kept (OfEnable name) (SafeOver used d) := by
  rintro e t he ⟨hs, hd⟩
  cases e with
  | register r entry =>
    have hentry : entry.name = name := Eq.trans he (entryName_eq_self hcolon)
    refine ⟨⟨?_, ?_⟩, hd⟩
    · intro x hx
      rcases List.mem_append.mp hx with hx | hx
      · exact hs.backed x hx
      · rw [List.mem_singleton.mp hx, hentry]
        change (t.admindir.lookup name).isSome = true
        rw [hd]
        exact hfile
    · intro x hx
      rcases List.mem_append.mp hx with hx | hx
      · exact hs.noTmp x hx
      · rw [List.mem_singleton.mp hx, hentry]
        exact htmp
  | modprobe result => exact ⟨hs.setup he, hd⟩
  | mount => exact ⟨hs.setup he, hd⟩
  | status enabled => exact ⟨hs.setup he, hd⟩
  | _ => cases he

end Effects

section Enable
variable {used : Text → Prop} (env : Env)

/-- Enabling a name that has a file. -/
theorem triple_actEnableName {name : Text} (hcolon : colon ∉ name)
    (htmp : ∀ other, used other → name ≠ tmpName other) :
    Triple (Safe used) (fun s _ => Safe used s ∧ (s.file name).isSome = true)
      (actEnableName env name) (fun _ s _ => Safe used s) := by
  rintro s m ⟨hs, hfile⟩
  have hkeeps : Keeps (SafeOver used s.admindir) AnyTable (actEnableName env name) :=
    keeps_actEnableName env (kept_enable hcolon htmp hfile) (fun _ _ _ _ _ => trivial)
  obtain ⟨hcuts, hend⟩ := hkeeps s m ⟨⟨hs, rfl⟩, trivial⟩
  exact ⟨hcuts.mono (fun _ h => h.1), fun a ha => (hend a ha).1.1⟩

/-- A process that starts by enabling a name registers it only if it has a file. -/
theorem along_actEnableName (htest : env.test = false) {name : Text} (hcolon : colon ∉ name)
    (htmp : ∀ other, used other → name ≠ tmpName other) {s : Store} (hs : Safe used s) :
    Along (Safe used) ((actEnableName env name).run s Memory.fresh).effects s := by
  cases hfile : s.file name with
  | some content => exact (triple_actEnableName env hcolon htmp s Memory.fresh
      ⟨hs, by simp [hfile]⟩).1
  | none =>
    have hsetup : ∀ es : List Effect, (∀ e ∈ es, e.isSetup = true) → Along (Safe used) es s :=
      fun es hes => along_of_forall (fun e he t ht => ht.setup (hes e he)) hs
    rcases actEnableName_cases env htest name s Memory.fresh with
      ⟨m', es, hrun, hes, -⟩ | ⟨o, m', es, hrun, -, hes, -⟩ |
      ⟨m', es, b, d, r, e, hrun, -, -, -, -, hvis, -⟩
    · rw [hrun]
      exact hsetup es hes
    · rw [hrun]
      exact hsetup es hes
    · rw [visible, record_of_missing hfile] at hvis
      cases hvis

/-- Every record that can be loaded has a name that is safe to register. -/
def Enableable (used : Text → Prop) (s : Store) : Prop :=
  ∀ name, (s.record name).isSome = true →
    colon ∉ name ∧ ∀ other, used other → name ≠ tmpName other

theorem tableStored_remembered {s t : Store} (ht : t.admindir = s.admindir)
    {table : Table Text Binfmt} (h : TableStored s table) (key : Text) :
    TableStored s (remembered table key (t.record key)) := by
  intro name hname
  rw [lookup_remembered, Option.isSome_or, Bool.or_eq_true] at hname
  rcases hname with hname | hname
  · exact h name hname
  · split at hname
    · rename_i hkey
      subst hkey
      have hfile : t.file name = s.file name := by simp only [Store.file, ht]
      rwa [record_congr hfile] at hname
    · cases hname

/-- Enabling all formats registers stored records only, and none of them goes meanwhile. -/
theorem along_actEnable_none {s : Store} (hs : Safe used s) (hable : Enableable used s) :
    Along (Safe used) ((actEnable env none).run s Memory.fresh).effects s := by
  have hload : ∀ t table key, SafeOver used s.admindir t → TableStored s table →
      TableStored s (remembered table key (t.record key)) :=
    fun t table key ht htable => tableStored_remembered ht.2 htable key
  have hname : ∀ name, (s.record name).isSome = true →
      Keeps (SafeOver used s.admindir) (TableStored s) (actEnableName env name) := by
    intro name hrecord
    have hfile : (s.admindir.lookup name).isSome = true := by
      by_contra hno
      rw [record_of_missing (by simpa [Store.file] using hno)] at hrecord
      cases hrecord
    obtain ⟨hcolon, htmp⟩ := hable name hrecord
    exact keeps_actEnableName env (kept_enable hcolon htmp hfile) hload
  have heach : ∀ names, (∀ name ∈ names, (s.record name).isSome = true) →
      Keeps (SafeOver used s.admindir) (TableStored s) (enableEach env names) := by
    intro names
    induction names with
    | nil => exact fun _ => stays_pure _
    | cons name rest ih =>
      intro hnames
      have hrest := ih (fun n hn => hnames n (List.mem_cons_of_mem name hn))
      refine stays_observe_bind (fun t => ?_)
      split
      · exact hrest
      · refine (hname name (hnames name List.mem_cons_self)).bind (fun worked => ?_)
        exact hrest.bind (fun others => stays_pure _)
  have hsetup : Kept (fun e => e.isSetup = true) (SafeOver used s.admindir) := by
    rintro e t he ⟨ht, hd⟩
    refine ⟨ht.setup he, ?_⟩
    rw [admindir_apply_of_noFiles e t (files_of_isSetup e he)]
    exact hd
  have hall : Keeps (SafeOver used s.admindir) (TableStored s) (actEnable env none) := by
    rw [actEnable.eq_def]
    refine (keeps_loadBinfmtMisc env hsetup).bind (fun loaded => ?_)
    split
    · refine (keeps_loadAllFormats env hload false).bind (fun _ => ?_)
      refine triple_recollect_bind (fun n t m hpre => ?_)
      obtain ⟨⟨ht, htable⟩, rfl⟩ := hpre
      refine heach (env.walk m.formats) (fun name hname => htable name ?_) t m ⟨ht, htable⟩
      rw [(env.walk_perm m.formats).mem_iff] at hname
      exact AList.lookup_isSome.mpr hname
    · exact stays_pure _
  exact (hall.along ⟨hs, rfl⟩ (fun _ h => by cases h)).mono (fun _ h => h.1)

end Enable

section Operations
variable {used : Text → Prop} (hused : Usable used) (env : Env)

theorem along_actDisable (name : Option Text) {s : Store} (hs : Safe used s) :
    Along (Safe used) ((actDisable env name).run s Memory.fresh).effects s := by
  have hone : ∀ n, Keeps (Safe used) AnyTable (actDisableName env n) :=
    fun n => keeps_actDisableName env (kept_disable used n)
  cases name with
  | some n => exact (hone n).along hs trivial
  | none =>
    have heach : ∀ names, Keeps (Safe used) AnyTable (disableEach env names) := by
      intro names
      induction names with
      | nil => exact stays_pure _
      | cons n rest ih =>
        refine stays_observe_bind (fun t => ?_)
        split
        · exact (hone n).bind (fun worked => ih.bind (fun others => stays_pure _))
        · exact ih
    have humount : Keeps (Safe used) AnyTable (Prog.emit .umount : Act PUnit) :=
      stays_emit (fun _ ht => ht.umount)
    have hunmount : Keeps (Safe used) AnyTable (unmount env) := by
      refine (keeps_succeeds env).bind (fun ok => ?_)
      split
      · exact humount.bind (fun _ => stays_pure _)
      · exact keeps_warn_pure _ _
    have hunload : Keeps (Safe used) AnyTable (unloadBinfmtMisc env) := by
      refine stays_observe_bind (fun t => ?_)
      split
      · exact (keeps_answer _).bind (fun _ => stays_pure _)
      · split
        · split
          · refine (keeps_succeeds env).bind (fun ok => ?_)
            split
            · exact humount.bind (fun _ => stays_pure _)
            · exact hunmount
          · exact hunmount
        · exact stays_pure _
    have hall : Keeps (Safe used) AnyTable (actDisable env none) := by
      rw [actDisable.eq_def]
      refine stays_observe_bind (fun t => ?_)
      split
      · refine (keeps_loadAllFormats env (fun _ _ _ _ _ => trivial) false).bind (fun _ => ?_)
        refine stays_recollect_bind (fun m => (heach _).bind (fun worked => ?_))
        exact hunload.bind (fun _ => stays_pure _)
      · exact stays_pure _
    exact hall.along hs trivial

/-- Removal deletes a file only where procdir shows no entry of the name any more. -/
theorem along_actRemove (htest : env.test = false) (name package : Text) {s : Store}
    (hreg : s.kernel.hasRegister = true) (hs : Safe used s) (m : Memory) :
    Along (Safe used) ((actRemove env name package).run s m).effects s := by
  have hdrop : ∀ drop, Dropped name s drop → Along (Safe used) drop s := by
    intro drop hdrop
    rcases hdrop.shape with ⟨rfl, -⟩ | ⟨rfl, -⟩
    · exact along_nil.mpr hs
    · exact along_singleton.mpr ⟨hs, hs.drop name⟩
  rcases actRemove_cases env name package s m with ⟨o, m', hrun, -⟩ | ⟨m₁, -, -, hrun⟩
  · rw [hrun]
    exact along_nil.mpr hs
  · rw [hrun]
    rcases removeFormat_cases env htest name s m₁ with
      ⟨m', es, hrun', hes, -⟩ | ⟨m', drop, hrun', hdropped, -⟩ | ⟨m', drop, hrun', hdropped⟩
    · rw [hrun']
      rcases hes with rfl | rfl
      · exact along_nil.mpr hs
      · exact along_singleton.mpr ⟨hs, hs.setup rfl⟩
    · rw [hrun']
      exact hdrop drop hdropped
    · rw [hrun']
      have hsafe := (hdrop drop hdropped).final
      refine along_append.mpr ⟨hdrop drop hdropped, along_singleton.mpr ⟨hsafe, ?_⟩⟩
      have hmount := mount_replay_of_loss drop s hdropped.loss
      rw [← hasRegister_congr hmount] at hreg
      have hnone := Failure.entriesNamed_of_hidden hreg hdropped.gone
      refine hsafe.fewer (fun _ he => he) (fun e he hfile => ?_)
      have hne : e.name ≠ name := by
        intro heq
        rw [Failure.entriesNamed, List.filter_eq_nil_iff] at hnone
        exact hnone e he (by simpa using heq)
      rw [apply_def, file_unlink, if_neg hne]
      exact hfile

/-- The file is in its place when the move has worked. -/
theorem triple_renameMv_safe {name : Text} (hname : used name) : Triple (Safe used)
    (fun s _ => Safe used s ∧ (s.file (tmpName name)).isSome = true)
    (renameMv env (tmpName name) name)
    (fun r s _ => Safe used s ∧ (r = true → (s.file name).isSome = true)) := by
  refine triple_of_run (fun s m hpre => ?_)
  obtain ⟨hs, htmp⟩ := hpre
  obtain ⟨content, hc⟩ := Option.isSome_iff_exists.mp htmp
  rcases renameMv_cases env (tmpName name) name s m with ⟨m', hrun, -⟩ | ⟨m', hrun, -⟩
  · refine ⟨_, m', _, hrun, along_singleton.mpr ⟨hs, hs.move hname⟩, fun _ _ => ?_⟩
    refine ⟨hs.move hname, fun _ => ?_⟩
    rw [replay_cons, replay_nil, apply_def, file_rename s hc, if_pos rfl]
    rfl
  · refine ⟨_, m', [], hrun, along_nil.mpr hs, fun r hr => ⟨hs, fun htrue => ?_⟩⟩
    cases hr
    cases htrue

/-- The temporary file is there when the write has worked. -/
theorem triple_binfmtWrite_safe {name : Text} (hname : used name) (new : Binfmt) :
    Triple (Safe used) (fun s _ => Safe used s) (binfmtWrite env (some new) (tmpName name))
      (fun r s _ => Safe used s ∧ (r = true → (s.file (tmpName name)).isSome = true)) := by
  have hkeeps : Keeps (Safe used) AnyTable (binfmtWrite env (some new) (tmpName name)) :=
    keeps_binfmtWrite env (kept_write hname) (some new)
  have hboth : Triple (Safe used) (fun s _ => Safe used s ∧ True)
      (binfmtWrite env (some new) (tmpName name))
      (fun r s _ => (Safe used s ∧ True) ∧ (r = true → (s.file (tmpName name)).isSome = true)) :=
    hkeeps.and ?_
  · exact hboth.conseq (fun _ _ h => ⟨h, trivial⟩) (fun _ _ _ h => ⟨h.1.1, h.2⟩)
  intro s m _ r hr htrue
  subst htrue
  rcases binfmtWrite_cases env new (tmpName name) s m with ⟨m', hrun, -⟩ | ⟨m', es, hrun, -⟩
  · rw [hrun, Ran.state, file_replay_writing, if_pos rfl]
    rfl
  · rw [hrun] at hr
    cases hr

include hused

/-- A format is enabled once its file is there. -/
theorem triple_enableInstalled_safe {name : Text} (hname : used name) (new : Binfmt) :
    Triple (Safe used) (fun s _ => Safe used s ∧ (s.file name).isSome = true)
      (enableInstalled env name new) (fun _ s _ => Safe used s) := by
  have hremember : Triple (Safe used) (fun s _ => Safe used s ∧ (s.file name).isSome = true)
      (Prog.remember (fun m : Memory =>
        { m with formats := kvhashInsert m.formats name new }) : Act PUnit)
      (fun _ s _ => Safe used s ∧ (s.file name).isSome = true) :=
    triple_of_run (fun s m hpre => ⟨_, _, [], rfl, along_nil.mpr hpre.1, fun _ _ => hpre⟩)
  refine hremember.bind (fun _ => Triple.bind (triple_actEnableName env
    (hused.noColon name hname) (fun other => hused.noTmp name other hname)) (fun worked => ?_))
  split
  · exact triple_pure (fun _ _ h => h) (fun _ _ h => h)
  · exact triple_of_run (fun s m hpre => ⟨_, _, [], rfl, along_nil.mpr hpre, fun _ _ => hpre⟩)

/-- The steps on the files of an installation follow each other only where they work. -/
theorem keeps_installFile_safe (htest : env.test = false) {name : Text} (hname : used name)
    (b : Option Binfmt) : Keeps (Safe used) AnyTable (installFile env name b) := by
  have hwarn : ∀ w, Triple (Safe used) (fun s _ => Safe used s)
      (warn w >>= fun _ => pure false : Act Bool) (fun _ s _ => Safe used s) :=
    fun w => triple_of_run (fun s m hpre => ⟨_, _, [], rfl, along_nil.mpr hpre, fun _ _ => hpre⟩)
  rw [installFile.eq_def, if_neg (by simp [htest])]
  cases b with
  | none =>
    refine (keeps_binfmtWrite env (kept_write hname) none).bind (fun written => ?_)
    split
    · refine (keeps_renameMv env (fun s hs => hs.move hname)).bind (fun moved => ?_)
      split
      · exact stays_crash
      · exact keeps_warn_pure _ _
    · exact stays_pure _
  | some new =>
    have hrest : Triple (Safe used) (fun s _ => Safe used s) (do
        if ← binfmtWrite env (some new) (tmpName name) then
          if ← renameMv env (tmpName name) name then enableInstalled env name new
          else
            warn (.unableToInstall (tmpName name) name)
            return false
        else return false : Act Bool) (fun _ s _ => Safe used s) := by
      refine (triple_binfmtWrite_safe env hname new).bind (fun written => ?_)
      cases written with
      | false => exact triple_pure (fun _ _ h => h.1) (fun _ _ h => h.1)
      | true =>
        refine Triple.bind ((triple_renameMv_safe env hname).conseq
          (fun _ _ h => ⟨h.1, h.2 rfl⟩) (fun _ _ _ h => h)) (fun moved => ?_)
        cases moved with
        | false => exact (hwarn _).conseq (fun _ _ h => h.1) (fun _ _ _ h => h)
        | true =>
          exact (triple_enableInstalled_safe hused env hname new).conseq
            (fun _ _ h => ⟨h.1, h.2 rfl⟩) (fun _ _ _ h => h)
    exact hrest.conseq (fun _ _ h => h.1) (fun _ _ _ h => ⟨h, trivial⟩)

/-- Installation keeps every entry backed: the temporary file belongs to no entry, and the
new entry is registered once its file is there. -/
theorem keeps_actInstall_safe (htest : env.test = false) {name : Text} (hname : used name)
    (b : Option Binfmt) : Keeps (Safe used) AnyTable (actInstall env name b) :=
  keeps_actInstall_of_file env (fun _ _ _ _ _ => trivial)
    (keeps_actDisableName env (kept_disable used name))
    (keeps_installFile_safe hused env htest hname b)

end Operations

/-- The names that a run works on: its argument, or those of the files that it imports. -/
def given (env : Env) (o : Options) : List Text :=
  match o.mode with
  | some .import => (imported env o.name).map (fun path => (importPath env path).2)
  | some .enable => o.name.toList
  | some .disable => o.name.toList
  | _ => [o.name.getD []]

def Changing (o : Options) : Prop :=
  o.mode = some .install ∨ o.mode = some .remove ∨ o.mode = some .import ∨
    o.mode = some .enable ∨ o.mode = some .disable

/-- One run outside test mode, in a state where procdir is mounted. It is given used names
only, whatever fails, and may be killed at any point. Formats are enabled without a name
only in a state that is `able`. -/
inductive Step (used : Text → Prop) (able : Store → Prop) : Store → Store → Prop
  | run (env : Env) (opts : List Opt) (o : Options) (s : Store) (mount : Mount)
      (done : List Effect) (hparse : parse opts = .ok o) (htest : o.test = false)
      (hmode : Changing o) (hgiven : ∀ name ∈ given env o, used name)
      (hreg : (remounted s mount).kernel.hasRegister = true)
      (hable : o.mode = some .enable → o.name = none → able s)
      (hdone : done <+: ((CommandLine.main env opts).run (remounted s mount)
        Memory.fresh).effects) :
      Step used able s (replay done (remounted s mount))

/-- At every point of the run every entry stays backed. -/
theorem safe_step {used : Text → Prop} (hused : Usable used) {s t : Store}
    (h : Step used (Enableable used) s t) (hs : Safe used s) : Safe used t := by
  obtain ⟨env, opts, o, _, mount, done, hparse, htest, hmode, hgiven, hreg, hable, hdone⟩ := h
  rw [effects_main hparse] at hdone
  have hs' : Safe used (remounted s mount) := ⟨hs.backed, hs.noTmp⟩
  have hall : Along (Safe used) ((runMode { env with test := o.test } o).run (remounted s mount)
      Memory.fresh).effects (remounted s mount) := by
    rcases hmode with hmode | hmode | hmode | hmode | hmode
    · have hinstall := keeps_actInstall_safe hused { env with test := o.test } htest
        (hgiven (o.name.getD []) (by simp [given, hmode]))
      have hquit : ∀ w, Keeps (Safe used) AnyTable (quit w : Act Bool) := fun w => keeps_quit w
      simp only [runMode, hmode, installMode]
      split
      · exact (hquit _).along hs' trivial
      · exact ((keeps_warn _).bind (fun _ => hinstall none)).along hs' trivial
      · exact (hinstall _).along hs' trivial
    · simp only [runMode, hmode]
      exact along_actRemove _ htest _ _ hreg hs' _
    · have himport : Keeps (Safe used) AnyTable (actImport { env with test := o.test } o.name) := by
        refine keeps_actImport _ o.name (fun path hpath => ?_)
        have hname : used (importPath { env with test := o.test } path).2 := by
          apply hgiven
          simp only [given, hmode]
          exact List.mem_map.mpr ⟨path, hpath, rfl⟩
        exact keeps_actImportName _ (fun _ _ _ _ _ => trivial)
          (keeps_actInstall_safe hused _ htest hname)
      simp only [runMode, hmode]
      exact himport.along hs' trivial
    · simp only [runMode, hmode]
      cases hname : o.name with
      | none => exact along_actEnable_none _ hs' (hable hmode hname)
      | some name =>
        have hgiven' := hgiven name (by simp [given, hmode, hname])
        exact along_actEnableName _ htest (hused.noColon name hgiven')
          (fun other => hused.noTmp name other hgiven') hs'
    · simp only [runMode, hmode]
      exact along_actDisable _ o.name hs'
  exact hall done hdone

/-- In every sequence of such runs no kernel entry is ever without its stored file, if
formats are enabled without a name only where no temporary file holds a record. -/
theorem never_orphaned (used : Text → Prop) (hused : Usable used) (s t : Store)
    (hbacked : Backed s) (hentries : ∀ e ∈ s.kernel.entries, used e.name)
    (hruns : Relation.ReflTransGen (Step used (Enableable used)) s t) : Backed t := by
  have hsafe : Safe used t := by
    induction hruns with
    | refl => exact ⟨hbacked, fun e he name hname => hused.noTmp _ _ (hentries e he) hname⟩
    | tail _ hstep ih => exact safe_step hused hstep ih
  exact hsafe.backed

section Example

instance (s : Store) : Decidable (Backed s) :=
  inferInstanceAs (Decidable (∀ e ∈ s.kernel.entries, (s.file e.name).isSome = true))

def IsProg (name : Text) : Prop := name = text "prog"

theorem usable_isProg : Usable IsProg := by
  refine ⟨?_, ?_⟩
  · rintro name rfl
    decide
  · rintro name other rfl rfl
    decide

def installOptions : List Opt :=
  [.mode .install [text "prog", text "/usr/bin/prog"], .package (text "pkg"), .magic (text "AB")]

def installParsed : Options :=
  { Options.none with
    mode := some .install, type := some .magic, name := text "prog", package := text "pkg"
    magic := text "AB", interpreter := text "/usr/bin/prog" }

theorem given_installParsed (env : Env) : ∀ name ∈ given env installParsed, IsProg name := by
  intro name hname
  exact List.mem_singleton.mp hname

def after (env : Env) (opts : List Opt) (s : Store) : Store :=
  ((CommandLine.main env opts).run s Memory.fresh).state s

/-- A run, killed or not, with procdir mounted as it is. -/
theorem step_killed {used : Text → Prop} {able : Store → Prop} {env : Env} {opts : List Opt}
    {o : Options} {s : Store} {done : List Effect} (hparse : parse opts = .ok o)
    (htest : o.test = false) (hmode : Changing o) (hgiven : ∀ name ∈ given env o, used name)
    (hreg : s.kernel.hasRegister = true)
    (hable : o.mode = some .enable → o.name = none → able s)
    (hdone : done <+: ((CommandLine.main env opts).run s Memory.fresh).effects) :
    Step used able s (replay done s) := by
  have hsame : remounted s s.kernel.mount = s := rfl
  have hstep := @Step.run used able env opts o s s.kernel.mount done hparse htest hmode hgiven
  rw [hsame] at hstep
  exact hstep hreg hable hdone

theorem step_after {used : Text → Prop} {able : Store → Prop} {env : Env} {opts : List Opt}
    {o : Options} {s : Store} (hparse : parse opts = .ok o) (htest : o.test = false)
    (hmode : Changing o) (hgiven : ∀ name ∈ given env o, used name)
    (hreg : s.kernel.hasRegister = true)
    (hable : o.mode = some .enable → o.name = none → able s) :
    Step used able s (after env opts s) :=
  step_killed hparse htest hmode hgiven hreg hable List.prefix_rfl

def IsKnown (name : Text) : Prop := name ∈ [text "jar", text "wine", text "prog"]

theorem usable_isKnown : Usable IsKnown := by
  have hcolon : ∀ name ∈ [text "jar", text "wine", text "prog"], colon ∉ name := by decide
  have htmp : ∀ name ∈ [text "jar", text "wine", text "prog"],
      ∀ other ∈ [text "jar", text "wine", text "prog"], name ≠ tmpName other := by decide
  exact ⟨hcolon, fun name other hname hother => htmp name hname other hother⟩

instance : DecidablePred IsKnown := fun name =>
  inferInstanceAs (Decidable (name ∈ [text "jar", text "wine", text "prog"]))

/-- Only stored names have records. -/
theorem enableable_of_keys {s : Store} (h : ∀ name ∈ s.admindir.keys, IsKnown name) :
    Enableable IsKnown s := by
  intro name hrecord
  have hfile : (s.file name).isSome = true := by
    by_contra hno
    rw [record_of_missing (by simpa using hno)] at hrecord
    cases hrecord
  have hknown := h name (AList.lookup_isSome.mp hfile)
  exact ⟨usable_isKnown.noColon name hknown, fun other => usable_isKnown.noTmp name other hknown⟩

def busy : Store := busyStore [wineEntry]

def killed : Store :=
  replay ((CommandLine.main plainEnv installOptions).run busy Memory.fresh).effects.dropLast busy

def enabledAll : Store := after plainEnv [.mode .enable []] killed

def removeOptions : List Opt :=
  [.mode .remove [text "wine", text "/usr/bin/wine"], .package (text "wine")]

/-- One installation is killed, all formats are enabled, and then one is removed. -/
theorem never_orphaned_runs : Backed (after plainEnv removeOptions enabledAll) := by
  have hgiven : ∀ name ∈ given plainEnv installParsed, IsKnown name := by
    intro name hname
    rw [List.mem_singleton.mp hname]
    decide
  have hinstall : Step IsKnown (Enableable IsKnown) busy killed :=
    step_killed (o := installParsed) (by decide +kernel) rfl (Or.inl rfl) hgiven
      (by decide) (fun h => by cases h) (List.dropLast_prefix _)
  have hkeys : ∀ name ∈ killed.admindir.keys, IsKnown name := by decide +kernel
  have henable : Step IsKnown (Enableable IsKnown) killed enabledAll :=
    step_after (o := { Options.none with mode := some .enable }) (by decide +kernel) rfl
      (by simp [Changing]) (by simp [given, Options.none]) (by decide +kernel)
      (fun _ _ => enableable_of_keys hkeys)
  have hremove : Step IsKnown (Enableable IsKnown) enabledAll
      (after plainEnv removeOptions enabledAll) :=
    step_after (o := { Options.none with
      mode := some .remove, name := text "wine", interpreter := text "/usr/bin/wine"
      package := text "wine" }) (by decide +kernel) rfl
      (by simp [Changing]) (by simp [given, IsKnown]) (by decide +kernel)
      (fun h => by cases h)
  exact never_orphaned IsKnown usable_isKnown busy _ (by decide) (by decide)
    (((Relation.ReflTransGen.single hinstall).tail henable).tail hremove)

/-- A machine on which both ways of moving the temporary file fail. -/
def unmovableEnv : Env where
  __ := plainEnv
  faults := fun time => if time = 3 ∨ time = 4 then .error 0 else .none

/-- After an installation that failed to move its file the complete record is stored as
"prog.tmp", and enabling all formats registers it. -/
def tmpEnabled : Store :=
  after plainEnv [.mode .enable []] (after unmovableEnv installOptions emptyStore)

/-- The next installation of "prog" then deletes the file of that entry. -/
theorem orphaned :
    Usable IsProg ∧ Backed emptyStore ∧ tmpEnabled.kernel.hasEntry (text "prog.tmp") = true ∧
    Relation.ReflTransGen (Step IsProg (fun _ => True)) emptyStore
      (after plainEnv installOptions tmpEnabled) ∧
    (after plainEnv installOptions tmpEnabled).kernel.hasEntry (text "prog.tmp") = true ∧
    (after plainEnv installOptions tmpEnabled).file (text "prog.tmp") = none ∧
    ¬ Backed (after plainEnv installOptions tmpEnabled) := by
  refine ⟨usable_isProg, by decide, by decide +kernel, ?_, by decide +kernel, by decide +kernel,
    by decide +kernel⟩
  refine Relation.ReflTransGen.tail (Relation.ReflTransGen.tail (Relation.ReflTransGen.single
    (b := after unmovableEnv installOptions emptyStore) ?_) (c := tmpEnabled) ?_) ?_
  · exact step_after (o := installParsed) (by decide +kernel) rfl (Or.inl rfl)
      (given_installParsed _) (by decide) (fun _ _ => trivial)
  · exact step_after (o := { Options.none with mode := some .enable }) (by decide +kernel) rfl
      (by simp [Changing]) (by simp [given, Options.none]) (by decide +kernel) (fun _ _ => trivial)
  · exact step_after (o := installParsed) (by decide +kernel) rfl (Or.inl rfl)
      (given_installParsed _) (by decide +kernel) (fun _ _ => trivial)

end Example
end BinfmtSupport.Orphans
