import BinfmtSupport.Sweeping
import BinfmtSupport.CommandLine

/-!
What the init scripts do: stop is one process that disables everything, start another one
that enables everything. Between the two the filesystem may be unmounted. Whatever the
kernel had for the stored formats before, it then has one entry for each of them, with the
line that this format gets when the whole database is looked at; entries of other names are
left as they were.
-/
namespace BinfmtSupport.Restart

open CText Kvhash Format Regstring Journal Stores Actions Loading Enabling Installing
open AllFormats Rejection CommandLine Sweeping

/-- The state after `update-binfmts --disable`. -/
def stopped (env : Env) (s : Store) : Store :=
  ((CommandLine.main env [.mode .disable []]).run s Memory.fresh).state s

/-- The state after `update-binfmts --enable`. -/
def started (env : Env) (s : Store) : Store :=
  ((CommandLine.main env [.mode .enable []]).run s Memory.fresh).state s

def restarted (stop start : Env) (s : Store) : Store := started start (stopped stop s)

def WelcomeAll (env : Env) (s : Store) : Prop :=
  ∀ name, (s.file name).isSome = true → ∀ r, LineOf env s name r →
    ∃ e, entryOf (decodeLine r.regstring) = some e ∧ env.accepts e = true

def strangers (s : Store) : List Entry :=
  s.kernel.entries.filter (fun e => (s.file e.name).isNone)

section Commands
variable {env : Env} {s : Store}

theorem main_enable (htest : env.test = false) :
    CommandLine.main env [.mode .enable []] = exitStatus (actEnable env none) := by
  change exitStatus (actEnable { env with test := false } none) = _
  rw [test_eq_self htest]

theorem main_disable (htest : env.test = false) :
    CommandLine.main env [.mode .disable []] = exitStatus (actDisable env none) := by
  change exitStatus (actDisable { env with test := false } none) = _
  rw [test_eq_self htest]

theorem stopped_eq (htest : env.test = false) (s : Store) :
    stopped env s = ((actDisable env none).run s Memory.fresh).state s := by
  have hparse : parse [.mode .disable []] = .ok { Options.none with mode := some .disable } := rfl
  have heffects := @effects_main env _ _ hparse s Memory.fresh
  rw [show Options.test { Options.none with mode := some Mode.disable } = false from rfl,
    test_eq_self htest] at heffects
  rw [stopped, Ran.state, heffects]
  rfl

theorem started_eq (htest : env.test = false) (s : Store) :
    started env s = ((actEnable env none).run s Memory.fresh).state s := by
  have hparse : parse [.mode .enable []] = .ok { Options.none with mode := some .enable } := rfl
  have heffects := @effects_main env _ _ hparse s Memory.fresh
  rw [show Options.test { Options.none with mode := some Mode.enable } = false from rfl,
    test_eq_self htest] at heffects
  rw [started, Ran.state, heffects]
  rfl

end Commands

section Stop
variable {env : Env} {s : Store}

/-- A stopped system has no stored format in the kernel, and can be started again. -/
theorem stopped_spec (htest : env.test = false) (hrel : Reliable env) (hload : Loadable s)
    (hreg : s.kernel.hasRegister = true) : (stopped env s).admindir = s.admindir ∧
      (stopped env s).kernel.entries = strangers s ∧ Mountable (stopped env s).kernel.mount := by
  obtain ⟨r, m', drops, tail, hrun, hdrops, htail, hentries⟩ :=
    run_actDisable_all htest hrel hload hreg
  have hloss : ∀ e ∈ drops, e.isLoss = true := by
    intro e he
    obtain ⟨name, rfl⟩ := hdrops e he
    rfl
  have hfiles : ∀ e ∈ drops, e.files = [] := by
    intro e he
    obtain ⟨name, rfl⟩ := hdrops e he
    rfl
  have hmount := mount_replay_of_loss drops s hloss
  have hproc : Mountable s.kernel.mount := mountable_of_hasRegister hreg
  rw [stopped_eq htest, hrun, Ran.state, replay_append]
  rcases htail with rfl | rfl
  · refine ⟨admindir_replay_of_noFiles drops s hfiles, hentries, ?_⟩
    rw [replay_nil, hmount]
    exact hproc
  · -- only a filesystem is unmounted, and it can be mounted again
    have hstyle : filesystemStyle s.kernel.mount = true := by
      rcases actDisable_none_cases env htest s Memory.fresh with
        ⟨o, m₁, hnone⟩ | ⟨r₁, m₁, es, fs, hsome, hes, -, hfs⟩
      · rw [hrun] at hnone
        simp at hnone
      · rw [hrun, Ran.mk.injEq] at hsome
        rcases hfs with rfl | ⟨-, hstyle⟩
        · rw [List.append_nil] at hsome
          have hum : Effect.umount ∈ es := hsome.2.2 ▸ by simp
          cases hes _ hum
        · exact hstyle
    refine ⟨admindir_replay_of_noFiles drops s hfiles, hentries, ?_⟩
    change Mountable { (replay drops s).kernel.mount with register := false }
    rw [hmount]
    exact ⟨hproc.1, Or.inr hstyle⟩

theorem returned_disableEach (htest : env.test = false) (hrel : Reliable env) {names : List Text}
    (hplain : ∀ name ∈ names, isDirectoryName name = false ∧ isControlName name = false)
    (s : Store) (m : Memory) : ((disableEach env names).run s m).outcome = .returned true := by
  induction names generalizing s m with
  | nil => rfl
  | cons name rest ih =>
    have hrest := fun n hn => hplain n (List.mem_cons_of_mem name hn)
    obtain ⟨hdir, hctl⟩ := hplain name List.mem_cons_self
    rw [disableEach, Prog.run_observe_bind]
    split
    · rcases actDisableName_cases env htest name s m with
        ⟨m₁, drop, hrun, -⟩ | ⟨m₁, es, -, -, -, -, hfails⟩
      · have hothers := ih hrest (replay drop s) m₁
        rcases hwalk : (disableEach env rest).run (replay drop s) m₁ with ⟨o, m₂, es⟩
        rw [hwalk] at hothers
        obtain rfl : o = .returned true := hothers
        rw [Prog.run_bind_returned hrun, Prog.run_bind_returned hwalk]
        rfl
      · rw [dropFails_of_reliable env hrel, hdir, hctl] at hfails
        cases hfails
    · exact ih hrest s m

/-- A stop ends with status 0, and so a restart comes to its start. -/
theorem returned_stop (htest : env.test = false) (hrel : Reliable env) (hload : Loadable s) :
    ((CommandLine.main env [.mode .disable []]).run s Memory.fresh).outcome = .returned () := by
  obtain ⟨m', es, hrun⟩ : ∃ m' es,
      (actDisable env none).run s Memory.fresh = ⟨.returned true, m', es⟩ := by
    rw [actDisable, Prog.run_observe_bind]
    split
    · obtain ⟨m₁, hread, hlook⟩ := run_loadAllFormats_all (u := s) (m := Memory.fresh) hrel hload
        rfl rfl
      have hplain : ∀ name ∈ env.walk m₁.formats,
          isDirectoryName name = false ∧ isControlName name = false := by
        intro name hname
        have hstored : (s.file name).isSome = true :=
          (isSome_file_iff s name).mpr ((walk_perm_stored env hload hlook).mem_iff.mp hname)
        obtain ⟨hne, hres⟩ := hload.plain name hstored
        exact plain_of_unreserved hne hres
      have hworked := returned_disableEach htest hrel hplain s m₁
      rcases hsweep : (disableEach env (env.walk m₁.formats)).run s m₁ with ⟨o, m₂, drops⟩
      rw [hsweep] at hworked
      obtain rfl : o = .returned true := hworked
      obtain ⟨r, m₃, tail, hunload, -⟩ := unloadBinfmtMisc_cases env htest (replay drops s) m₂
      refine ⟨m₃, drops ++ tail, ?_⟩
      rw [Prog.run_bind_returned hread, Prog.run_recollect_bind, replay_nil,
        Prog.run_bind_returned hsweep, Prog.run_bind_returned hunload, Prog.run_pure,
        Ran.after_mk, Ran.after_mk, Ran.after_mk, List.nil_append, List.append_nil]
    · exact ⟨_, _, rfl⟩
  rw [main_disable htest, exitStatus, Prog.run_bind_returned hrun]
  rfl

end Stop

section Start
variable {env : Env} {s : Store}

/-- Enabling everything, also where the filesystem has to be mounted first. -/
theorem run_actEnable_mountable (htest : env.test = false) (hrel : Reliable env)
    (hload : Loadable s) (hmount : Mountable s.kernel.mount) (hwelcome : Welcome env s)
    (hcolon : ∀ name ∈ missing s, colon ∉ name) : ∃ m' es,
      (actEnable env none).run s Memory.fresh = ⟨.returned true, m', es⟩ ∧
      ((registrations es).map (fun x => x.2.name)).Perm (missing s) ∧
      (∀ x ∈ registrations es, Written env s x) ∧ (replay es s).kernel.hasRegister = true := by
  obtain ⟨loaded, m₁, es, hmod, hf₁, hset, hloaded, hworks⟩ :=
    loadBinfmtMisc_cases env htest s Memory.fresh
  have htrue : loaded = true := hworks hrel hmount
  subst htrue
  have hadm := admindir_replay_of_setup es s hset
  obtain ⟨m₂, hread, hlook⟩ := run_loadAllFormats_all hrel hload hadm hf₁
  have hready : Ready s (replay es s) m₂ := by
    refine ⟨hadm, hloaded rfl, fun key => ?_⟩
    have hrecord : (replay es s).record key = s.record key :=
      record_congr (by simp only [Store.file, hadm])
    rw [visible, hlook, hrecord, Option.or_self]
  have hwalk := walk_perm_stored env hload hlook
  obtain ⟨m', fs, hrun, hnames, hwritten, hready'⟩ := run_enableEach htest hrel hload hwelcome
    hcolon (hwalk.nodup_iff.mpr s.admindir.keys_nodup)
    (fun name hn => (isSome_file_iff s name).mpr (hwalk.mem_iff.mp hn)) hready (fun name _ => by
      rw [Kernel.hasEntry, entries_replay_of_setup es s hset]
      rfl)
  have hregs : registrations (es ++ fs) = registrations fs := by
    rw [registrations_append, registrations_of_setup hset, List.nil_append]
  refine ⟨m', es ++ fs, ?_, ?_, ?_, ?_⟩
  · rw [actEnable, Prog.run_bind_returned hmod, if_pos rfl, Prog.run_bind_returned hread,
      Prog.run_recollect_bind, replay_nil, hrun, Ran.after_mk, Ran.after_mk, List.nil_append]
  · rw [hregs, hnames]
    exact hwalk.filter _
  · rw [hregs]
    exact hwritten
  · rw [replay_append]
    exact hready'.register

/-- Lines are built from the database alone. -/
theorem lineOf_congr {u : Store} (hadm : u.admindir = s.admindir) (name : Text)
    (r : Registration) : LineOf env u name r ↔ LineOf env s name r := by
  have hrecord : ∀ key, u.record key = s.record key :=
    fun key => record_congr (by simp only [Store.file, hadm])
  have hneeds : ∀ b, NeedsDetector u ∅ name b ↔ NeedsDetector s ∅ name b := fun b =>
    needsDetector_congr name b (fun key => by rw [visible_empty, visible_empty, hrecord])
  simp only [LineOf, hrecord, hneeds]

theorem written_congr {u : Store} (hadm : u.admindir = s.admindir) (x : Registration × Entry) :
    Written env u x ↔ Written env s x := by
  rw [Written, Written, lineOf_congr hadm]

/-- Starting a system whose kernel has none of the stored formats. -/
theorem started_spec (htest : env.test = false) (hrel : Reliable env) (hload : Loadable s)
    (hmount : Mountable s.kernel.mount) (hnone : strangers s = s.kernel.entries)
    (hwelcome : WelcomeAll env s) (hcolon : ∀ name, (s.file name).isSome = true → colon ∉ name) :
    ∃ lines : List (Registration × Entry),
      (lines.map (fun x => x.2.name)).Perm s.admindir.keys ∧ (∀ x ∈ lines, Written env s x) ∧
      (started env s).admindir = s.admindir ∧
      (started env s).kernel.entries = s.kernel.entries ++ lines.map (fun x => x.2) ∧
      (started env s).kernel.hasRegister = true ∧
      ((CommandLine.main env [.mode .enable []]).run s Memory.fresh).outcome = .returned () := by
  have hfree : ∀ name, (s.file name).isSome = true → s.kernel.hasEntry name = false := by
    intro name hfile
    rw [hasEntry_eq_false_iff]
    rintro e he rfl
    rw [← hnone] at he
    have hno := (List.mem_filter.mp he).2
    rw [Option.isNone_iff_eq_none] at hno
    rw [hno] at hfile
    cases hfile
  have hall : missing s = s.admindir.keys := by
    rw [missing, List.filter_eq_self]
    intro name hname
    rw [hfree name ((isSome_file_iff s name).mpr hname)]
    rfl
  have hstored : ∀ name ∈ missing s, (s.file name).isSome = true :=
    fun name hname => (mem_missing.mp hname).1
  obtain ⟨m', es, hrun, hnames, hwritten, hreg⟩ := run_actEnable_mountable htest hrel hload hmount
    (fun name hname => hwelcome name (hstored name hname))
    (fun name hname => hcolon name (hstored name hname))
  have honly := issues_actEnable env htest none s Memory.fresh
  rw [hrun] at honly
  rw [started_eq htest, hrun, main_enable htest, exitStatus, Prog.run_bind_returned hrun]
  exact ⟨registrations es, hall ▸ hnames, hwritten, admindir_replay_of_enables honly s,
    entries_replay_of_enables honly s, hreg, rfl⟩

end Start

section Restart
variable {stop start : Env} {s : Store}

/-- What a restart comes to. -/
theorem restarted_spec (hstop : stop.test = false) (hstart : start.test = false)
    (hrel : Reliable stop) (hrel' : Reliable start) (hload : Loadable s)
    (hreg : s.kernel.hasRegister = true) (hwelcome : WelcomeAll start s)
    (hcolon : ∀ name, (s.file name).isSome = true → colon ∉ name) :
    ∃ lines : List (Registration × Entry),
      (lines.map (fun x => x.2.name)).Perm s.admindir.keys ∧ (∀ x ∈ lines, Written start s x) ∧
      (restarted stop start s).admindir = s.admindir ∧
      (restarted stop start s).kernel.entries = strangers s ++ lines.map (fun x => x.2) ∧
      (restarted stop start s).kernel.hasRegister = true ∧
      ((CommandLine.main start [.mode .enable []]).run (stopped stop s)
        Memory.fresh).outcome = .returned () := by
  obtain ⟨hadm, hentries, hmount⟩ := stopped_spec hstop hrel hload hreg
  have hfile : ∀ name, (stopped stop s).file name = s.file name :=
    fun name => by simp only [Store.file, hadm]
  have hnone : strangers (stopped stop s) = (stopped stop s).kernel.entries := by
    rw [strangers, List.filter_eq_self, hentries]
    intro e he
    rw [hfile]
    exact (List.mem_filter.mp he).2
  have hwelcome' : WelcomeAll start (stopped stop s) := by
    intro name hname r hr
    rw [hfile] at hname
    exact hwelcome name hname r ((lineOf_congr hadm name r).mp hr)
  obtain ⟨lines, hnames, hwritten, hadm', hentries', hreg', hdone⟩ := started_spec hstart hrel'
    (hload.congr hadm) hmount hnone hwelcome' (fun name hname => hcolon name (hfile name ▸ hname))
  refine ⟨lines, ?_, ?_, hadm'.trans hadm, ?_, hreg', hdone⟩
  · rw [← hadm]
    exact hnames
  · exact fun x hx => (written_congr hadm x).mp (hwritten x hx)
  · rw [restarted, hentries', hentries]

end Restart

section Convergence
variable {start start' : Env} {s : Store}

/-- Two lists with the lines of all stored formats have the same lines. -/
theorem perm_of_allWritten (start : Env) {xs ys : List (Registration × Entry)}
    (hxs : (xs.map (fun x => x.2.name)).Perm s.admindir.keys)
    (hys : (ys.map (fun x => x.2.name)).Perm s.admindir.keys)
    (hx : ∀ x ∈ xs, Written start s x) (hy : ∀ y ∈ ys, Written start s y) : xs.Perm ys := by
  -- where the kernel is empty all stored formats are missing
  let u : Store := { s with kernel := { s.kernel with entries := [] } }
  have hall : missing u = s.admindir.keys := List.filter_eq_self.mpr (fun _ _ => rfl)
  exact perm_of_written (s := u) (hall.symm ▸ hxs) (hall.symm ▸ hys)
    (fun x hmem => (written_congr rfl x).mpr (hx x hmem))
    (fun y hmem => (written_congr rfl y).mpr (hy y hmem))

theorem written_reordered (horder : Reordered start start') {x : Registration × Entry}
    (hx : Written start' s x) : Written start s x :=
  ⟨(horder.lineOf x.2.name x.1).mp hx.1, hx.2⟩

theorem welcomeAll_reordered (horder : Reordered start start') (h : WelcomeAll start s) :
    WelcomeAll start' s := by
  intro name hname r hr
  obtain ⟨e, hentry, htakes⟩ := h name hname r ((horder.lineOf name r).mp hr)
  refine ⟨e, hentry, ?_⟩
  obtain ⟨readdir, hreaddir, walk, hwalk, rfl⟩ := horder
  exact htakes

theorem welcomeAll_congr {u : Store} (hadm : u.admindir = s.admindir) (h : WelcomeAll start s) :
    WelcomeAll start u := by
  intro name hname r hr
  have hfile : u.file name = s.file name := by simp only [Store.file, hadm]
  rw [hfile] at hname
  exact h name hname r ((lineOf_congr hadm name r).mp hr)

def formats (s : Store) : List Entry := s.kernel.entries.filter (fun e => (s.file e.name).isSome)

/-- Entries of strangers come first, then all formats. -/
theorem formats_of_entries {u : Store} {lines : List (Registration × Entry)}
    (hadm : u.admindir = s.admindir)
    (hnames : (lines.map (fun x => x.2.name)).Perm s.admindir.keys)
    (hentries : u.kernel.entries = strangers s ++ lines.map (fun x => x.2)) :
    formats u = lines.map (fun x => x.2) ∧ strangers u = strangers s := by
  have hfile : ∀ name, u.file name = s.file name := fun name => by simp only [Store.file, hadm]
  have hstored : ∀ e ∈ lines.map (fun x => x.2), (s.file e.name).isSome = true := by
    intro e he
    obtain ⟨x, hx, rfl⟩ := List.mem_map.mp he
    exact (isSome_file_iff s x.2.name).mpr (hnames.mem_iff.mp (List.mem_map.mpr ⟨x, hx, rfl⟩))
  have hstrange : ∀ e ∈ strangers s, (s.file e.name).isNone = true :=
    fun e he => (List.mem_filter.mp he).2
  constructor
  · rw [formats, hentries, List.filter_append, List.filter_eq_nil_iff.mpr, List.filter_eq_self.mpr,
      List.nil_append]
    · intro e he
      rw [hfile]
      exact hstored e he
    · intro e he hsome
      have hnone := hstrange e he
      rw [hfile, Option.isSome_iff_ne_none] at hsome
      exact hsome (Option.isNone_iff_eq_none.mp hnone)
  · rw [strangers, hentries, List.filter_append, List.filter_eq_self.mpr,
      List.filter_eq_nil_iff.mpr, List.append_nil]
    · intro e he hnone
      have hsome := hstored e he
      rw [hfile, Option.isNone_iff_eq_none] at hnone
      rw [hnone] at hsome
      cases hsome
    · intro e he
      rw [hfile]
      exact hstrange e he

end Convergence

section Example

open Isolation

/-- An entry of somebody else, and one that a stored format has from an older interpreter. -/
def strangerEntry : Entry :=
  ⟨text "other", text "M", text "0", text "XY", [], text "/bin/other", [[]]⟩

def staleEntry : Entry :=
  ⟨text "prog", text "M", text "0", text "AB", [], text "/usr/bin/old", [[]]⟩

def withEntries (entries : List Entry) : Store :=
  { storeWith (text "prog") plainContent with
    kernel := { emptyStore.kernel with entries := entries } }

theorem load_plainContent : binfmtLoad plainContent = .ok plainLoaded := by decide +kernel

theorem loadable_withEntries (entries : List Entry) : Loadable (withEntries entries) :=
  (loadable_storeWith load_plainContent (by decide) (by decide)).congr rfl

theorem onlyProg {entries : List Entry} {name : Text}
    (h : ((withEntries entries).file name).isSome = true) : name = text "prog" := by
  change ((storeWith (text "prog") plainContent).file name).isSome = true at h
  rw [file_storeWith] at h
  by_contra hne
  rw [if_neg hne] at h
  cases h

theorem welcomeAll_withEntries (entries : List Entry) :
    WelcomeAll plainEnv (withEntries entries) := by
  intro name hname r hr
  obtain rfl := onlyProg hname
  obtain ⟨b, d, hb, -, rfl⟩ := hr
  have hrecord : (withEntries entries).record (text "prog") = some plainLoaded := by
    change (storeWith (text "prog") plainContent).record (text "prog") = _
    rw [record_of_file (by rw [file_storeWith, if_pos rfl]), load_plainContent]
    rfl
  rw [hrecord] at hb
  cases hb
  cases d <;> exact ⟨_, entryOf_decodeLine _ (by decide +kernel), rfl⟩

end Example

section Results

/-- A restart of a system whose database is in order: afterwards every stored format has one
entry, made from the line that the whole database asks for, behind the entries of strangers,
which are the old ones. The database is as it was, and both runs end with status 0. -/
theorem restart_registers {stop start : Env} {s : Store} (hstop : stop.test = false)
    (hstart : start.test = false) (hrel : Reliable stop) (hrel' : Reliable start)
    (hload : Loadable s) (hreg : s.kernel.hasRegister = true) (hwelcome : WelcomeAll start s)
    (hcolon : ∀ name, (s.file name).isSome = true → colon ∉ name) :
    ∃ lines : List (Registration × Entry),
      (lines.map (fun x => x.2.name)).Perm s.admindir.keys ∧ (∀ x ∈ lines, Written start s x) ∧
      (restarted stop start s).admindir = s.admindir ∧
      (restarted stop start s).kernel.entries = strangers s ++ lines.map (fun x => x.2) ∧
      ((CommandLine.main stop [.mode .disable []]).run s Memory.fresh).outcome = .returned () ∧
      ((CommandLine.main start [.mode .enable []]).run (stopped stop s)
        Memory.fresh).outcome = .returned () := by
  obtain ⟨lines, hnames, hwritten, hadm, hentries, -, hdone⟩ :=
    restarted_spec hstop hstart hrel hrel' hload hreg hwelcome hcolon
  exact ⟨lines, hnames, hwritten, hadm, hentries, returned_stop hstop hrel hload, hdone⟩

theorem restart_registers_stale :
    ∃ lines : List (Registration × Entry),
      (lines.map (fun x => x.2.name)).Perm (withEntries [strangerEntry, staleEntry]).admindir.keys ∧
      (∀ x ∈ lines, Written plainEnv (withEntries [strangerEntry, staleEntry]) x) ∧
      (restarted plainEnv plainEnv (withEntries [strangerEntry, staleEntry])).admindir =
        (withEntries [strangerEntry, staleEntry]).admindir ∧
      (restarted plainEnv plainEnv (withEntries [strangerEntry, staleEntry])).kernel.entries =
        strangers (withEntries [strangerEntry, staleEntry]) ++ lines.map (fun x => x.2) ∧
      ((CommandLine.main plainEnv [.mode .disable []]).run
        (withEntries [strangerEntry, staleEntry]) Memory.fresh).outcome = .returned () ∧
      ((CommandLine.main plainEnv [.mode .enable []]).run
        (stopped plainEnv (withEntries [strangerEntry, staleEntry])) Memory.fresh).outcome =
          .returned () :=
  restart_registers rfl rfl plainEnv_reliable plainEnv_reliable (loadable_withEntries _) rfl
    (welcomeAll_withEntries _) (fun name hname => by
      obtain rfl := onlyProg hname
      decide)

/-- Two systems with one database, whatever their kernels had for it: after a restart they
have the same entries for the stored formats, in whatever order directories and tables are
gone through. Another restart brings no other entries. -/
theorem restart_converges {stop stop' start start' : Env} {s t : Store}
    (hstop : stop.test = false) (hstop' : stop'.test = false) (hstart : start.test = false)
    (hrel : Reliable stop) (hrel' : Reliable stop') (hrel'' : Reliable start)
    (horder : Reordered start start') (hadm : t.admindir = s.admindir) (hload : Loadable s)
    (hreg : s.kernel.hasRegister = true) (hreg' : t.kernel.hasRegister = true)
    (hwelcome : WelcomeAll start s)
    (hcolon : ∀ name, (s.file name).isSome = true → colon ∉ name) :
    (formats (restarted stop' start' t)).Perm (formats (restarted stop start s)) ∧
      (restarted stop' start' (restarted stop start s)).kernel.entries.Perm
        (restarted stop start s).kernel.entries := by
  have hstart' : start'.test = false := horder.test.trans hstart
  have hrel''' : Reliable start' := horder.reliable hrel''
  obtain ⟨xs, hxs, hx, hadm₁, hentries₁, hreg₁, -⟩ :=
    restarted_spec hstop hstart hrel hrel'' hload hreg hwelcome hcolon
  have hfileT : ∀ name, t.file name = s.file name := fun name => by simp only [Store.file, hadm]
  have hfile₁ : ∀ name, (restarted stop start s).file name = s.file name :=
    fun name => by simp only [Store.file, hadm₁]
  obtain ⟨hformats₁, hstrangers₁⟩ := formats_of_entries hadm₁ hxs hentries₁
  constructor
  · obtain ⟨ys, hys, hy, hadm₂, hentries₂, -⟩ := restarted_spec hstop' hstart' hrel' hrel'''
      (hload.congr hadm) hreg' (welcomeAll_reordered horder (welcomeAll_congr hadm hwelcome))
      (fun name hname => hcolon name (hfileT name ▸ hname))
    rw [hformats₁, (formats_of_entries hadm₂ hys hentries₂).1]
    refine List.Perm.map _ (perm_of_allWritten start (hadm ▸ hys) hxs ?_ hx)
    exact fun y hmem => (written_congr hadm y).mp (written_reordered horder (hy y hmem))
  · obtain ⟨ys, hys, hy, -, hentries₂, -⟩ := restarted_spec hstop' hstart' hrel' hrel'''
      (hload.congr hadm₁) hreg₁ (welcomeAll_reordered horder (welcomeAll_congr hadm₁ hwelcome))
      (fun name hname => hcolon name (hfile₁ name ▸ hname))
    rw [hentries₂, hstrangers₁, hentries₁]
    refine List.Perm.append_left _ (List.Perm.map _
      (perm_of_allWritten start (hadm₁ ▸ hys) hxs ?_ hx))
    exact fun y hmem => (written_congr hadm₁ y).mp (written_reordered horder (hy y hmem))

/-- Of two kernels one had a stale entry and the other none. -/
theorem restart_converges_stale :
    (formats (restarted plainEnv plainEnv (withEntries []))).Perm
        (formats (restarted plainEnv plainEnv (withEntries [strangerEntry, staleEntry]))) ∧
      (restarted plainEnv plainEnv (restarted plainEnv plainEnv
        (withEntries [strangerEntry, staleEntry]))).kernel.entries.Perm
          (restarted plainEnv plainEnv (withEntries [strangerEntry, staleEntry])).kernel.entries :=
  restart_converges rfl rfl rfl plainEnv_reliable plainEnv_reliable plainEnv_reliable
    ⟨plainEnv.readdir, plainEnv.readdir_perm, plainEnv.walk, plainEnv.walk_perm, rfl⟩ rfl
    (loadable_withEntries _) rfl rfl (welcomeAll_withEntries _) (fun name hname => by
      obtain rfl := onlyProg hname
      decide)

end Results
end BinfmtSupport.Restart
