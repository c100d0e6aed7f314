import BinfmtSupport.Isolation
import BinfmtSupport.Steady

/-!
Enabling and disabling without a name. The walk over the table enables one name after the
other, and each of these steps reads the database into the table again; still every stored
format that the kernel does not have gets the one line that it would get alone, whatever
the order is. Disabling drops the entries of the stored names and no others.
-/
namespace BinfmtSupport.Sweeping

open CText Kvhash Format Regstring Journal Stores Actions Loading Enabling Installing
open AllFormats Footprint Rejection

/-- Every file of the directory loads, and none has a name that procdir needs. -/
structure Loadable (s : Store) : Prop where
  intact : ∀ name, Intact s name
  plain : ∀ name, (s.file name).isSome = true → name ≠ [] ∧ isReserved name = false

def missing (s : Store) : List Text := s.admindir.keys.filter (fun name => !s.kernel.hasEntry name)

def registration : Effect → Option (Registration × Entry)
  | .register r e => some (r, e)
  | _ => none

/-- What was written to the register file, with the entries that it made. -/
def registrations (es : List Effect) : List (Registration × Entry) := es.filterMap registration

/-- The line of a stored format, as a process that has loaded nothing yet builds it. -/
def LineOf (env : Env) (s : Store) (name : Text) (r : Registration) : Prop :=
  ∃ b d, s.record name = some b ∧ (d = true ↔ NeedsDetector s ∅ name b) ∧
    r = registrationOf name b (chooseInterpreter env b d)

def Welcome (env : Env) (s : Store) : Prop :=
  ∀ name ∈ missing s, ∀ r, LineOf env s name r →
    ∃ e, entryOf (decodeLine r.regstring) = some e ∧ env.accepts e = true

/-- The same machine, with other orders of directories and tables. -/
def Reordered (env env' : Env) : Prop :=
  ∃ readdir readdir_perm walk walk_perm,
    env' = { env with
      readdir := readdir
      readdir_perm := readdir_perm
      walk := walk
      walk_perm := walk_perm }

section Journals

@[simp] theorem registrations_nil : registrations [] = [] := rfl

@[simp] theorem registrations_append (es fs : List Effect) :
    registrations (es ++ fs) = registrations es ++ registrations fs := List.filterMap_append

theorem registration_of_setup {e : Effect} (h : e.isSetup = true) : registration e = none := by
  cases e with
  | register r entry => cases h
  | _ => rfl

theorem registrations_cons_setup {e : Effect} (h : e.isSetup = true) (es : List Effect) :
    registrations (e :: es) = registrations es :=
  List.filterMap_cons_none (registration_of_setup h)

theorem registrations_cons_register (r : Registration) (entry : Entry) (es : List Effect) :
    registrations (.register r entry :: es) = (r, entry) :: registrations es := rfl

theorem registrations_of_setup {es : List Effect} (h : ∀ e ∈ es, e.isSetup = true) :
    registrations es = [] := by
  rw [registrations, List.filterMap_eq_nil_iff]
  exact fun e he => registration_of_setup (h e he)

def OnlyEnables (e : Effect) : Prop :=
  e.isSetup = true ∨ ∃ r entry, e = .register r entry ∧
    entryOf (decodeLine r.regstring) = some entry

/-- Such a journal adds the entries of its registrations at the end. -/
theorem entries_replay_of_enables {es : List Effect} (h : ∀ e ∈ es, OnlyEnables e) (s : Store) :
    (replay es s).kernel.entries =
      s.kernel.entries ++ (registrations es).map (fun x => x.2) := by
  induction es generalizing s with
  | nil => simp
  | cons e rest ih =>
    have hrest := ih (fun x hx => h x (List.mem_cons_of_mem e hx))
    rw [replay_cons, apply_def, hrest]
    rcases h e List.mem_cons_self with hset | ⟨r, entry, rfl, -⟩
    · rw [entries_apply_of_setup e s hset, registrations_cons_setup hset]
    · rw [registrations_cons_register, List.map_cons]
      change (s.kernel.entries ++ [entry]) ++ _ = _
      rw [List.append_assoc]
      rfl

theorem admindir_replay_of_enables {es : List Effect} (h : ∀ e ∈ es, OnlyEnables e) (s : Store) :
    (replay es s).admindir = s.admindir := by
  refine admindir_replay_of_noFiles es s ?_
  intro e he
  rcases h e he with hset | ⟨r, entry, rfl, -⟩
  · exact files_of_isSetup e hset
  · rfl

end Journals

section Shape
variable (env : Env) (htest : env.test = false)
include htest

theorem issues_loadBinfmtMisc : Prog.Issues OnlyEnables (loadBinfmtMisc env) := by
  intro s m e he
  obtain ⟨r, m', es, hrun, -, hset, -⟩ := loadBinfmtMisc_cases env htest s m
  rw [hrun] at he
  exact Or.inl (hset e he)

theorem issues_actEnableName (name : Text) : Prog.Issues OnlyEnables (actEnableName env name) := by
  intro s m e he
  rcases actEnableName_cases env htest name s m with
    ⟨m', es, hrun, hset, -⟩ | ⟨o, m', es, hrun, -, hset, -⟩ |
    ⟨m', es, b, d, r, x, hrun, hset, -, -, -, -, -, -, hacc⟩
  · rw [hrun] at he
    exact Or.inl (hset e he)
  · rw [hrun] at he
    exact Or.inl (hset e he)
  · rw [hrun] at he
    rcases List.mem_append.mp he with he | he
    · exact Or.inl (hset e he)
    · rw [List.mem_singleton.mp he]
      exact Or.inr ⟨r, x, rfl, (entry_of_accepted env hacc).1⟩

theorem issues_enableEach (names : List Text) :
    Prog.Issues OnlyEnables (enableEach env names) := by
  induction names with
  | nil => exact (Prog.silent_pure _).issues _
  | cons name rest ih =>
    refine (Prog.silent_observe.issues _).bind (fun s => ?_)
    split
    · exact ih
    · refine (issues_actEnableName env htest name).bind (fun worked => ?_)
      exact ih.bind (fun others => (Prog.silent_pure _).issues _)

theorem issues_actEnable (name : Option Text) : Prog.Issues OnlyEnables (actEnable env name) := by
  cases name with
  | some name => exact issues_actEnableName env htest name
  | none =>
    refine (issues_loadBinfmtMisc env htest).bind (fun loaded => ?_)
    split
    · refine ((silent_loadAllFormats env false).issues _).bind (fun _ => ?_)
      refine (Prog.silent_recollect.issues _).bind (fun m => ?_)
      exact issues_enableEach env htest _
    · exact (Prog.silent_pure _).issues _

/-- No entry that is made here has a colon in its name. -/
theorem noColon_of_registration {name : Option Text} {s : Store} {m : Memory}
    {x : Registration × Entry}
    (hx : x ∈ registrations ((actEnable env name).run s m).effects) : colon ∉ x.2.name := by
  obtain ⟨e, he, hreg⟩ := List.mem_filterMap.mp hx
  rcases issues_actEnable env htest name s m e he with hset | ⟨r, entry, rfl, hentry⟩
  · cases e with
    | register => cases hset
    | _ => cases hreg
  · cases hreg
    change colon ∉ entry.name
    rw [name_of_entryOf hentry]
    intro hmem
    simpa using List.mem_takeWhile_imp hmem

end Shape

section Success
variable {env : Env} {s u : Store} {m : Memory} {name : Text}

/-- Between two steps of the walk: the database is as it was when the run began, and the
table shows nothing else. -/
structure Ready (s u : Store) (m : Memory) : Prop where
  admindir : u.admindir = s.admindir
  register : u.kernel.hasRegister = true
  table : ∀ key, visible u m.formats key = s.record key

theorem Ready.needsDetector (h : Ready s u m) (name : Text) (b : Binfmt) :
    NeedsDetector u m.formats name b ↔ NeedsDetector s ∅ name b :=
  needsDetector_congr name b (fun key => by rw [h.table, visible_empty])

theorem Loadable.plainName (h : Loadable s) {b : Binfmt} (hb : s.record name = some b) :
    isDirectoryName name = false ∧ isControlName name = false := by
  have hfile : (s.file name).isSome = true := by
    cases hf : s.file name with
    | none =>
      rw [record_of_missing hf] at hb
      cases hb
    | some content => rfl
  exact plain_of_unreserved (h.plain name hfile).1 (h.plain name hfile).2

/-- Nothing stops a reliable machine from building the line of a stored format. -/
theorem run_enableFormat (hrel : Reliable env) (hready : Ready s u m) {b : Binfmt}
    (hb : s.record name = some b) : ∃ m' d, (d = true ↔ NeedsDetector s ∅ name b) ∧
      SameView u m.formats m'.formats ∧ (enableFormat env name).run u m =
        (Actions.register env name
          (registrationOf name b (chooseInterpreter env b d))).run u m' := by
  have hintact : Intact u name := by
    intro _
    rw [record_congr (t := s) (by simp only [Store.file, hready.admindir]), hb]
    rfl
  have hcomp : Steady.Comparable u m.formats name b :=
    Steady.comparable_of_magic (Steady.isSome_magic_of_record hb)
      (Steady.magic_of_view hready.table)
  obtain ⟨m', d, hd, hview, -, hrun⟩ :=
    Steady.run_enableFormat hrel hintact ((hready.table name).trans hb) hcomp
  exact ⟨m', d, hd.trans (hready.needsDetector name b), hview, hrun⟩

theorem run_register_accepted (htest : env.test = false) (hrel : Reliable env)
    {r : Registration} {e : Entry} (hacc : accepted env u.kernel r = some e) :
    ∃ m', (Actions.register env name r).run u m = ⟨.returned true, m', [.register r e]⟩ ∧
      m'.formats = m.formats := by
  obtain ⟨m', hf, hrun, -⟩ := Steady.run_register htest hrel name r u m
  exact ⟨m', hrun e hacc, hf⟩

def Written (env : Env) (s : Store) (x : Registration × Entry) : Prop :=
  LineOf env s x.2.name x.1 ∧ entryOf (decodeLine x.1.regstring) = some x.2

theorem mem_missing {s : Store} {name : Text} :
    name ∈ missing s ↔ (s.file name).isSome = true ∧ s.kernel.hasEntry name = false := by
  rw [missing, List.mem_filter, ← isSome_file_iff, Bool.not_eq_true']

/-- Enabling one stored format that the kernel does not have. -/
theorem run_actEnableName_missing (htest : env.test = false) (hrel : Reliable env)
    (hload : Loadable s) (hready : Ready s u m) (hwelcome : Welcome env s)
    (hname : name ∈ missing s) (hcolon : colon ∉ name) (hfree : u.kernel.hasEntry name = false) :
    ∃ m' es x, (actEnableName env name).run u m =
        ⟨.returned true, m', es ++ [.register x.1 x.2]⟩ ∧
      (∀ e ∈ es, e.isSetup = true) ∧ x.2.name = name ∧ Written env s x ∧
      Ready s (replay (es ++ [.register x.1 x.2]) u) m' := by
  obtain ⟨hfile, -⟩ := mem_missing.mp hname
  obtain ⟨b, hb⟩ := Option.isSome_iff_exists.mp (hload.intact name hfile)
  obtain ⟨loaded, m₁, es, hmod, hf₁, hset, hreg, hworks⟩ := loadBinfmtMisc_cases env htest u m
  have hloaded : loaded = true := hworks hrel (mountable_of_hasRegister hready.register)
  subst hloaded
  have hadm := admindir_replay_of_setup es u hset
  have hready₁ : Ready s (replay es u) m₁ := by
    refine ⟨hadm.trans hready.admindir, hreg rfl, ?_⟩
    intro key
    rw [hf₁, visible_congr hadm, hready.table]
  obtain ⟨hdir, hctl⟩ := hload.plainName hb
  have hhidden : (replay es u).kernel.procExists name = false := by
    rw [procExists_eq_hasEntry (hreg rfl) hdir hctl, Kernel.hasEntry,
      entries_replay_of_setup es u hset]
    exact hfree
  obtain ⟨m₂, d, hd, hview, hformat⟩ := run_enableFormat hrel hready₁ hb
  obtain ⟨e, hentry, htakes⟩ := hwelcome name hname _ ⟨b, d, hb, hd, rfl⟩
  have hentryName : e.name = name := name_of_colonless hentry hcolon
  have hacc : accepted env (replay es u).kernel
      (registrationOf name b (chooseInterpreter env b d)) = some e := by
    simp [accepted, hentry, hentryName, hhidden, htakes]
  obtain ⟨m₃, hregister, hf₃⟩ := run_register_accepted (m := m₂) htest hrel hacc
  refine ⟨m₃, es, (_, e), ?_, hset, hentryName, ⟨⟨b, d, ?_, ?_, ?_⟩, hentry⟩, ?_, ?_, ?_⟩
  · rw [actEnableName, Prog.run_bind_returned hmod, if_pos rfl, Prog.run_observe_bind, hhidden,
      if_neg Bool.false_ne_true, hformat, hregister, Ran.after_mk]
    rfl
  · rw [hentryName]
    exact hb
  · rw [hentryName]
    exact hd
  · rw [hentryName]
    rfl
  · rw [replay_append]
    exact hready₁.admindir
  · rw [replay_append]
    exact hready₁.register
  · intro key
    rw [hf₃, replay_append]
    change visible (replay es u) m₂.formats key = _
    rw [hview, hready₁.table]

/-- The walk over a part of the table registers what is missing of it, once each. -/
theorem run_enableEach (htest : env.test = false) (hrel : Reliable env) (hload : Loadable s)
    (hwelcome : Welcome env s) (hcolon : ∀ name ∈ missing s, colon ∉ name) {names : List Text}
    (hnodup : names.Nodup) (hstored : ∀ name ∈ names, (s.file name).isSome = true)
    (hready : Ready s u m)
    (hsame : ∀ name ∈ names, u.kernel.hasEntry name = s.kernel.hasEntry name) :
    ∃ m' es, (enableEach env names).run u m = ⟨.returned true, m', es⟩ ∧
      (registrations es).map (fun x => x.2.name) =
        names.filter (fun name => !s.kernel.hasEntry name) ∧
      (∀ x ∈ registrations es, Written env s x) ∧ Ready s (replay es u) m' := by
  induction names generalizing u m with
  | nil => exact ⟨m, [], rfl, rfl, by simp, hready⟩
  | cons name rest ih =>
    rw [List.nodup_cons] at hnodup
    have hfile := hstored name List.mem_cons_self
    have hstoredRest := fun n hn => hstored n (List.mem_cons_of_mem name hn)
    obtain ⟨b, hb⟩ := Option.isSome_iff_exists.mp (hload.intact name hfile)
    obtain ⟨hdir, hctl⟩ := hload.plainName hb
    have hshown := procExists_eq_hasEntry hready.register hdir hctl
    rw [hsame name List.mem_cons_self] at hshown
    cases hentry : s.kernel.hasEntry name with
    | true =>
      obtain ⟨m', es, hrun, hnames, hwritten, hready'⟩ := ih hnodup.2 hstoredRest hready
        (fun n hn => hsame n (List.mem_cons_of_mem name hn))
      refine ⟨m', es, ?_, ?_, hwritten, hready'⟩
      · rw [enableEach, Prog.run_observe_bind, if_pos (by rw [hshown, hentry])]
        exact hrun
      · rw [hnames, List.filter_cons_of_neg (by simp [hentry])]
    | false =>
      have hmem : name ∈ missing s := mem_missing.mpr ⟨hfile, hentry⟩
      obtain ⟨m₁, es, x, hfirst, hset, hx, hxw, hready₁⟩ :=
        run_actEnableName_missing htest hrel hload hready hwelcome hmem (hcolon name hmem)
          (by rw [hsame name List.mem_cons_self, hentry])
      have hothers : ∀ n ∈ rest, (replay (es ++ [.register x.1 x.2]) u).kernel.hasEntry n =
          s.kernel.hasEntry n := by
        intro n hn
        have hne : x.2.name ≠ n := by
          rw [hx]
          rintro rfl
          exact hnodup.1 hn
        rw [← hsame n (List.mem_cons_of_mem name hn), replay_append]
        change ((replay es u).kernel.entries ++ [x.2]).any (fun e => e.name = n) = _
        rw [entries_replay_of_setup es u hset, List.any_append]
        simp [hne, Kernel.hasEntry]
      obtain ⟨m', fs, hrest, hnames, hwritten, hready'⟩ :=
        ih hnodup.2 hstoredRest hready₁ hothers
      have hregs : registrations (es ++ [.register x.1 x.2] ++ fs) = x :: registrations fs := by
        rw [registrations_append, registrations_append, registrations_of_setup hset]
        rfl
      refine ⟨m', es ++ [.register x.1 x.2] ++ fs, ?_, ?_, ?_, ?_⟩
      · rw [enableEach, Prog.run_observe_bind, if_neg (by rw [hshown, hentry]; simp),
          Prog.run_bind_returned hfirst, Prog.run_bind_returned hrest, Prog.run_pure,
          Ran.after_mk, Ran.after_mk, List.append_nil]
        rfl
      · rw [hregs, List.map_cons, hx, hnames, List.filter_cons_of_pos (by simp [hentry])]
      · rw [hregs]
        intro y hy
        rcases List.mem_cons.mp hy with rfl | hy
        · exact hxw
        · exact hwritten y hy
      · rw [replay_append]
        exact hready'

/-- The table that was filled from the directory has the stored names and no others. -/
theorem walk_perm_stored (env : Env) (hload : Loadable s) {t : Table Text Binfmt}
    (h : ∀ key, kvhashLookup t key = s.record key) : (env.walk t).Perm s.admindir.keys := by
  refine (env.walk_perm t).trans ?_
  rw [List.perm_ext_iff_of_nodup t.keys_nodup s.admindir.keys_nodup]
  intro name
  rw [← isSome_file_iff]
  change name ∈ t ↔ _
  rw [← AList.lookup_isSome]
  change (kvhashLookup t name).isSome = true ↔ _
  rw [h name]
  constructor
  · intro hsome
    cases hf : s.file name with
    | none =>
      rw [record_of_missing hf] at hsome
      cases hsome
    | some content => rfl
  · exact hload.intact name

/-- Reading the directory into an empty table. -/
theorem run_loadAllFormats_all (hrel : Reliable env) (hload : Loadable s)
    (hadm : u.admindir = s.admindir) (hformats : m.formats = ∅) : ∃ m',
      (loadAllFormats env false).run u m = ⟨.returned (), m', []⟩ ∧
      ∀ key, kvhashLookup m'.formats key = s.record key := by
  have hrecord : ∀ key, u.record key = s.record key :=
    fun key => record_congr (by simp only [Store.file, hadm])
  rcases loadAllFormats_cases env false u m with
    ⟨m', hrun, hlook, -⟩ | ⟨m', -, ⟨time, hfail⟩ | ⟨-, name, hbad⟩⟩
  · refine ⟨m', hrun, ?_⟩
    intro key
    rw [hlook, hformats, visible_empty, hrecord]
  · rw [ok_of_reliable hrel] at hfail
    cases hfail
  · refine absurd ?_ hbad
    intro hfile
    rw [hrecord]
    refine hload.intact name ?_
    simpa only [Store.file, hadm] using hfile

/-- Enabling everything registers what is missing, each format with its own line. -/
theorem run_actEnable_all (htest : env.test = false) (hrel : Reliable env) (hload : Loadable s)
    (hreg : s.kernel.hasRegister = true) (hwelcome : Welcome env s)
    (hcolon : ∀ name ∈ missing s, colon ∉ name) : ∃ m' es,
      (actEnable env none).run s Memory.fresh = ⟨.returned true, m', es⟩ ∧
      ((registrations es).map (fun x => x.2.name)).Perm (missing s) ∧
      (∀ x ∈ registrations es, Written env s x) ∧ (replay es s).kernel.hasRegister = true := by
  obtain ⟨loaded, m₁, es, hmod, hf₁, hset, hloaded, hworks⟩ :=
    loadBinfmtMisc_cases env htest s Memory.fresh
  have htrue : loaded = true := hworks hrel (mountable_of_hasRegister hreg)
  subst htrue
  have hadm := admindir_replay_of_setup es s hset
  obtain ⟨m₂, hread, hlook⟩ := run_loadAllFormats_all hrel hload hadm hf₁
  have hready : Ready s (replay es s) m₂ := by
    refine ⟨hadm, hloaded rfl, ?_⟩
    intro key
    have hrecord : (replay es s).record key = s.record key :=
      record_congr (by simp only [Store.file, hadm])
    rw [visible, hlook, hrecord, Option.or_self]
  have hwalk := walk_perm_stored env hload hlook
  have hstored : ∀ name ∈ env.walk m₂.formats, (s.file name).isSome = true :=
    fun name hn => (isSome_file_iff s name).mpr (hwalk.mem_iff.mp hn)
  obtain ⟨m', fs, hrun, hnames, hwritten, hready'⟩ := run_enableEach htest hrel hload hwelcome
    hcolon (hwalk.nodup_iff.mpr s.admindir.keys_nodup) hstored hready (fun name _ => by
      rw [Kernel.hasEntry, entries_replay_of_setup es s hset]
      rfl)
  have hregs : registrations (es ++ fs) = registrations fs := by
    rw [registrations_append, registrations_of_setup hset, List.nil_append]
  refine ⟨m', es ++ fs, ?_, ?_, ?_, ?_⟩
  · rw [actEnable, Prog.run_bind_returned hmod, if_pos rfl, Prog.run_bind_returned hread,
      Prog.run_recollect_bind, replay_nil, hrun, Ran.after_mk, Ran.after_mk, List.nil_append]
  · rw [hregs, hnames]
    exact hwalk.filter _
  · rw [hregs]
    exact hwritten
  · rw [replay_append]
    exact hready'.register

/-- The line and the entry of a name are determined. -/
theorem Written.unique {x y : Registration × Entry} (hx : Written env s x)
    (hy : Written env s y) (hname : x.2.name = y.2.name) : x = y := by
  obtain ⟨⟨b, d, hb, hd, hr⟩, he⟩ := hx
  obtain ⟨⟨b', d', hb', hd', hr'⟩, he'⟩ := hy
  rw [hname, hb', Option.some.injEq] at hb
  subst hb
  have hsame : d = d' := by
    rw [Bool.eq_iff_iff, hd, hd', hname]
  have hline : x.1 = y.1 := by rw [hr, hr', hname, hsame]
  have hentry : x.2 = y.2 := by
    rw [hline, he', Option.some.injEq] at he
    exact he.symm
  exact Prod.ext hline hentry

theorem missing_nodup (s : Store) : (missing s).Nodup := s.admindir.keys_nodup.filter _

/-- Two lists with the lines of the same formats have the same lines. -/
theorem perm_of_written {xs ys : List (Registration × Entry)}
    (hxs : (xs.map (fun x => x.2.name)).Perm (missing s))
    (hys : (ys.map (fun x => x.2.name)).Perm (missing s))
    (hx : ∀ x ∈ xs, Written env s x) (hy : ∀ y ∈ ys, Written env s y) : xs.Perm ys := by
  have hnodup : ∀ {zs : List (Registration × Entry)},
      (zs.map (fun x => x.2.name)).Perm (missing s) → zs.Nodup :=
    fun h => List.Nodup.of_map _ (h.nodup_iff.mpr (missing_nodup s))
  have hsub : ∀ {xs ys : List (Registration × Entry)},
      (xs.map (fun x => x.2.name)).Perm (missing s) →
      (ys.map (fun x => x.2.name)).Perm (missing s) → (∀ x ∈ xs, Written env s x) →
      (∀ y ∈ ys, Written env s y) → ∀ x ∈ xs, x ∈ ys := by
    intro xs ys hxs hys hx hy x hmem
    have hname : x.2.name ∈ ys.map (fun x => x.2.name) := by
      rw [hys.mem_iff, ← hxs.mem_iff]
      exact List.mem_map.mpr ⟨x, hmem, rfl⟩
    obtain ⟨y, hymem, heq⟩ := List.mem_map.mp hname
    rw [(hx x hmem).unique (hy y hymem) heq.symm]
    exact hymem
  rw [List.perm_ext_iff_of_nodup (hnodup hxs) (hnodup hys)]
  exact fun x => ⟨hsub hxs hys hx hy x, hsub hys hxs hy hx x⟩

end Success

section Disable
variable {env : Env} {s : Store}

/-- Dropping a list of names takes away exactly the entries that have one of them. -/
theorem run_disableEach (htest : env.test = false) (hrel : Reliable env) {names : List Text}
    (hplain : ∀ name ∈ names, isDirectoryName name = false ∧ isControlName name = false)
    (hreg : s.kernel.hasRegister = true) (m : Memory) : ∃ r m' es,
      (disableEach env names).run s m = ⟨.returned r, m', es⟩ ∧
      (∀ e ∈ es, ∃ name, e = .dropEntry name) ∧
      (replay es s).kernel.entries = s.kernel.entries.filter (fun e => e.name ∉ names) := by
  induction names generalizing s m with
  | nil => exact ⟨true, m, [], rfl, by simp, by simp⟩
  | cons name rest ih =>
    have hrest := fun n hn => hplain n (List.mem_cons_of_mem name hn)
    obtain ⟨hdir, hctl⟩ := hplain name List.mem_cons_self
    have hsplit : s.kernel.entries.filter (fun e => e.name ∉ name :: rest) =
        (s.kernel.entries.filter (fun e => e.name ≠ name)).filter (fun e => e.name ∉ rest) := by
      rw [List.filter_filter]
      refine List.filter_congr ?_
      intro e _
      by_cases h : e.name = name <;> simp [h]
    by_cases hex : s.kernel.procExists name = true
    · rcases actDisableName_cases env htest name s m with
        ⟨m₁, drop, hrun, -, hdrop, -⟩ | ⟨m₁, es, -, -, -, -, hfails⟩
      · obtain ⟨rfl, -⟩ := hdrop.shape.resolve_left (fun h => by simp [hex] at h)
        have hreg' : ((Effect.dropEntry name).apply s).kernel.hasRegister = true := hreg
        obtain ⟨r, m', es, hwalk, hdrops, hentries⟩ := ih hrest hreg' m₁
        refine ⟨true && r, m', .dropEntry name :: es, ?_, ?_, ?_⟩
        · rw [disableEach, Prog.run_observe_bind, if_pos hex, Prog.run_bind_returned hrun]
          change ((disableEach env rest >>= fun others => pure (true && others) : Act Bool).run
            ((Effect.dropEntry name).apply s) m₁).after _ = _
          rw [Prog.run_bind_returned hwalk]
          simp
        · intro e he
          rcases List.mem_cons.mp he with rfl | he
          · exact ⟨name, rfl⟩
          · exact hdrops e he
        · rw [replay_cons, apply_def, hentries, hsplit]
          rfl
      · rw [dropFails_of_reliable env hrel, hdir, hctl] at hfails
        cases hfails
    · obtain ⟨r, m', es, hwalk, hdrops, hentries⟩ := ih hrest hreg m
      refine ⟨r, m', es, ?_, hdrops, ?_⟩
      · rw [disableEach, Prog.run_observe_bind, if_neg hex]
        exact hwalk
      · rw [procExists_eq_hasEntry hreg hdir hctl, Bool.not_eq_true, hasEntry_eq_false_iff] at hex
        have hnone : s.kernel.entries.filter (fun e => e.name ≠ name) = s.kernel.entries := by
          rw [List.filter_eq_self]
          intro e he
          simpa using hex e he
        rw [hentries, hsplit, hnone]

/-- Disabling everything drops the entries with stored names, and then may unmount. -/
theorem run_actDisable_all (htest : env.test = false) (hrel : Reliable env) (hload : Loadable s)
    (hreg : s.kernel.hasRegister = true) : ∃ r m' drops tail,
      (actDisable env none).run s Memory.fresh = ⟨.returned r, m', drops ++ tail⟩ ∧
      (∀ e ∈ drops, ∃ name, e = .dropEntry name) ∧ (tail = [] ∨ tail = [.umount]) ∧
      (replay drops s).kernel.entries =
        s.kernel.entries.filter (fun e => (s.file e.name).isNone) := by
  have hproc : s.kernel.mount.procdir = true := by
    simp only [Kernel.hasRegister, Bool.and_eq_true] at hreg
    exact hreg.1
  obtain ⟨m₁, hread, hlook⟩ := run_loadAllFormats_all (u := s) (m := Memory.fresh) hrel hload
    rfl rfl
  have hwalk := walk_perm_stored env hload hlook
  have hstored : ∀ name, name ∈ env.walk m₁.formats ↔ (s.file name).isSome = true :=
    fun name => by rw [hwalk.mem_iff, isSome_file_iff]
  have hplain : ∀ name ∈ env.walk m₁.formats,
      isDirectoryName name = false ∧ isControlName name = false := by
    intro name hname
    obtain ⟨hne, hres⟩ := hload.plain name ((hstored name).mp hname)
    exact plain_of_unreserved hne hres
  obtain ⟨worked, m₂, drops, hsweep, hdrops, hentries⟩ := run_disableEach htest hrel hplain hreg m₁
  obtain ⟨r, m₃, tail, hunload, htail⟩ := unloadBinfmtMisc_cases env htest (replay drops s) m₂
  refine ⟨worked, m₃, drops, tail, ?_, hdrops, htail.imp_right (fun h => h.1), ?_⟩
  · rw [actDisable, Prog.run_observe_bind, if_pos hproc, Prog.run_bind_returned hread,
      Prog.run_recollect_bind, replay_nil, Prog.run_bind_returned hsweep,
      Prog.run_bind_returned hunload, Prog.run_pure, Ran.after_mk, Ran.after_mk, Ran.after_mk,
      List.nil_append, List.append_nil]
  · rw [hentries]
    refine List.filter_congr ?_
    intro e _
    rw [Bool.eq_iff_iff, decide_eq_true_eq, hstored]
    simp

end Disable

section Sweep

def enableRun (env : Env) (name : Option Text) (s : Store) : Ran Effect Memory Bool :=
  (actEnable env name).run s Memory.fresh

/-- What enabling and disabling without a name are for. -/
structure Sweeps (env : Env) (s : Store) : Prop where
  each_once : ((registrations (enableRun env none s).effects).map (fun x => x.2.name)).Perm
    (missing s)
  own_line : ∀ x ∈ registrations (enableRun env none s).effects,
    registrations (enableRun env (some x.2.name) s).effects = [x]
  any_order : ∀ env', Reordered env env' → ((enableRun env' none s).state s).kernel.entries.Perm
    ((enableRun env none s).state s).kernel.entries
  again : ∀ env', Reordered env env' →
    registrations (enableRun env' none ((enableRun env none s).state s)).effects = []
  disable : ∃ drops tail, ((actDisable env none).run s Memory.fresh).effects = drops ++ tail ∧
    .umount ∉ drops ∧ (tail = [] ∨ tail = [.umount]) ∧
    (replay drops s).kernel.entries = s.kernel.entries.filter (fun e => (s.file e.name).isNone)

variable {env : Env} {s : Store}

theorem Reordered.reliable {env' : Env} (h : Reordered env env') (hrel : Reliable env) :
    Reliable env' := by
  obtain ⟨readdir, hreaddir, walk, hwalk, rfl⟩ := h
  exact hrel

theorem Reordered.test {env' : Env} (h : Reordered env env') : env'.test = env.test := by
  obtain ⟨readdir, hreaddir, walk, hwalk, rfl⟩ := h
  rfl

theorem Reordered.lineOf {env' : Env} (h : Reordered env env') (name : Text) (r : Registration) :
    LineOf env' s name r ↔ LineOf env s name r := by
  obtain ⟨readdir, hreaddir, walk, hwalk, rfl⟩ := h
  rfl

theorem Reordered.welcome {env' : Env} (h : Reordered env env') (hwelcome : Welcome env s) :
    Welcome env' s := by
  intro name hname r hr
  obtain ⟨e, hentry, htakes⟩ := hwelcome name hname r ((h.lineOf name r).mp hr)
  refine ⟨e, hentry, ?_⟩
  obtain ⟨readdir, hreaddir, walk, hwalk, rfl⟩ := h
  exact htakes

theorem Loadable.congr {u : Store} (h : Loadable s) (hadm : u.admindir = s.admindir) :
    Loadable u := by
  have hfile : ∀ name, u.file name = s.file name :=
    fun name => by simp only [Store.file, hadm]
  refine ⟨?_, ?_⟩
  · intro name hsome
    rw [record_congr (hfile name)]
    exact h.intact name (by rwa [← hfile name])
  · intro name hsome
    exact h.plain name (by rwa [← hfile name])

/-- Once the missing names are registered none is missing any more. -/
theorem missing_replay {es : List Effect} (honly : ∀ e ∈ es, OnlyEnables e)
    (hnames : ((registrations es).map (fun x => x.2.name)).Perm (missing s)) :
    missing (replay es s) = [] := by
  rw [List.eq_nil_iff_forall_not_mem]
  intro name hmem
  obtain ⟨hsome, hgone⟩ := mem_missing.mp hmem
  have hfile : (replay es s).file name = s.file name := by
    simp only [Store.file, admindir_replay_of_enables honly s]
  rw [hfile] at hsome
  rw [hasEntry_eq_false_iff, entries_replay_of_enables honly s] at hgone
  have hmissing : name ∈ missing s := by
    refine mem_missing.mpr ⟨hsome, ?_⟩
    rw [hasEntry_eq_false_iff]
    exact fun e he => hgone e (List.mem_append_left _ he)
  obtain ⟨x, hx, hxname⟩ := List.mem_map.mp (hnames.mem_iff.mpr hmissing)
  exact hgone x.2 (List.mem_append_right _ (List.mem_map.mpr ⟨x, hx, rfl⟩)) hxname

/-- A process that enables nothing but one missing name writes the line of this name. -/
theorem registrations_one (htest : env.test = false) (hrel : Reliable env) (hload : Loadable s)
    (hreg : s.kernel.hasRegister = true) (hwelcome : Welcome env s) {x : Registration × Entry}
    (hname : x.2.name ∈ missing s) (hcolon : colon ∉ x.2.name) (hx : Written env s x) :
    registrations (enableRun env (some x.2.name) s).effects = [x] := by
  have hready : Ready s s Memory.fresh := ⟨rfl, hreg, fun key => visible_empty s key⟩
  obtain ⟨m, es, y, hrun, hset, hy, hyw, -⟩ := run_actEnableName_missing htest hrel hload
    hready hwelcome hname hcolon (mem_missing.mp hname).2
  have hone : enableRun env (some x.2.name) s =
    ⟨.returned true, m, es ++ [.register y.1 y.2]⟩ := hrun
  rw [hone, registrations_append, registrations_of_setup hset, hyw.unique hx hy]
  rfl

/-- Where nothing is missing nothing is registered. -/
theorem registrations_of_missing_nil (htest : env.test = false) (hrel : Reliable env)
    (hload : Loadable s) (hreg : s.kernel.hasRegister = true) (hnone : missing s = []) :
    registrations (enableRun env none s).effects = [] := by
  have hvacuous : ∀ {P : Text → Prop}, ∀ name ∈ missing s, P name := by
    intro P name hname
    rw [hnone] at hname
    cases hname
  obtain ⟨m, es, hrun, hnames, -⟩ := run_actEnable_all htest hrel hload hreg hvacuous hvacuous
  have hrun' : enableRun env none s = ⟨.returned true, m, es⟩ := hrun
  rw [hnone] at hnames
  rw [hrun']
  exact List.map_eq_nil_iff.mp hnames.eq_nil

/-- In whatever order the directory and the table are gone through, the entries are the same. -/
theorem entries_of_reordered (htest : env.test = false) (hrel : Reliable env)
    (hload : Loadable s) (hreg : s.kernel.hasRegister = true) (hwelcome : Welcome env s)
    (hcolon : ∀ name ∈ missing s, colon ∉ name) {env' : Env} (horder : Reordered env env') :
    ((enableRun env' none s).state s).kernel.entries.Perm
      ((enableRun env none s).state s).kernel.entries := by
  obtain ⟨m, es, hrun, hnames, hwritten, -⟩ :=
    run_actEnable_all htest hrel hload hreg hwelcome hcolon
  obtain ⟨m', es', hrun', hnames', hwritten', -⟩ := run_actEnable_all (horder.test.trans htest)
    (horder.reliable hrel) hload hreg (horder.welcome hwelcome) hcolon
  have hissues := issues_actEnable env htest none s Memory.fresh
  have hissues' := issues_actEnable env' (horder.test.trans htest) none s Memory.fresh
  rw [enableRun, enableRun, Ran.state, Ran.state, entries_replay_of_enables hissues s,
    entries_replay_of_enables hissues' s, hrun, hrun']
  refine List.Perm.append_left _ (List.Perm.map _ (perm_of_written hnames' hnames ?_ hwritten))
  intro x hx
  exact ⟨(horder.lineOf _ _).mp (hwritten' x hx).1, (hwritten' x hx).2⟩

theorem sweeps_of_noColon (htest : env.test = false) (hrel : Reliable env) (hload : Loadable s)
    (hreg : s.kernel.hasRegister = true) (hwelcome : Welcome env s)
    (hcolon : ∀ name ∈ missing s, colon ∉ name) : Sweeps env s := by
  obtain ⟨m', es, hrun, hnames, hwritten, hreg'⟩ :=
    run_actEnable_all htest hrel hload hreg hwelcome hcolon
  have hrun' : enableRun env none s = ⟨.returned true, m', es⟩ := hrun
  have honly := issues_actEnable env htest none s Memory.fresh
  rw [hrun] at honly
  refine ⟨?_, ?_, fun env' horder => ?_, fun env' horder => ?_, ?_⟩
  · rw [hrun']
    exact hnames
  · rw [hrun']
    intro x hx
    have hname : x.2.name ∈ missing s := hnames.mem_iff.mp (List.mem_map.mpr ⟨x, hx, rfl⟩)
    exact registrations_one htest hrel hload hreg hwelcome hname (hcolon _ hname) (hwritten x hx)
  · exact entries_of_reordered htest hrel hload hreg hwelcome hcolon horder
  · rw [hrun', Ran.state]
    exact registrations_of_missing_nil (horder.test.trans htest) (horder.reliable hrel)
      (hload.congr (admindir_replay_of_enables honly s)) hreg' (missing_replay honly hnames)
  · obtain ⟨r, m₁, drops, tail, hdisable, hdrops, htail, hkept⟩ :=
      run_actDisable_all htest hrel hload hreg
    refine ⟨drops, tail, by rw [hdisable], ?_, htail, hkept⟩
    intro hmem
    obtain ⟨name, hdrop⟩ := hdrops _ hmem
    cases hdrop

/-- Enabling and disabling everything do what they are for exactly where every stored name
that the kernel does not have is free of colons. -/
theorem sweeps_iff (env : Env) (htest : env.test = false) (hrel : Reliable env) (s : Store)
    (hload : Loadable s) (hreg : s.kernel.hasRegister = true) (hwelcome : Welcome env s) :
    Sweeps env s ↔ ∀ name ∈ missing s, colon ∉ name := by
  constructor
  · intro h name hname
    obtain ⟨x, hx, rfl⟩ := List.mem_map.mp (h.each_once.mem_iff.mpr hname)
    exact noColon_of_registration env htest hx
  · exact sweeps_of_noColon htest hrel hload hreg hwelcome

end Sweep

section Example

open CommandLine Records Isolation

/-- One stored file that loads, under a plain name. -/
theorem loadable_storeWith {name : Text} {content : List Byte} {b : Binfmt}
    (hb : binfmtLoad content = .ok b) (hne : name ≠ []) (hres : isReserved name = false) :
    Loadable (storeWith name content) := by
  have honly : ∀ key, ((storeWith name content).file key).isSome = true → key = name := by
    intro key hsome
    rw [file_storeWith] at hsome
    by_contra hkey
    rw [if_neg hkey] at hsome
    cases hsome
  refine ⟨?_, ?_⟩
  · intro key hsome
    have hkey := honly key hsome
    subst hkey
    rw [record_of_file (by rw [file_storeWith, if_pos rfl]), hb]
    rfl
  · intro key hsome
    have hkey := honly key hsome
    subst hkey
    exact ⟨hne, hres⟩

/-- Whichever interpreter is chosen, the line of the one stored format is taken. -/
theorem welcome_storeWith {env : Env} {name : Text} {content : List Byte} {b : Binfmt}
    (hb : binfmtLoad content = .ok b)
    (htakes : ∀ d, ∃ e, entryOf (decodeLine
      (registrationOf name b (chooseInterpreter env b d)).regstring) = some e ∧
        env.accepts e = true) : Welcome env (storeWith name content) := by
  intro key hkey r hr
  obtain ⟨hsome, -⟩ := mem_missing.mp hkey
  rw [file_storeWith] at hsome
  have hname : key = name := by
    by_contra hne
    rw [if_neg hne] at hsome
    cases hsome
  subst hname
  obtain ⟨b', d, hb', -, rfl⟩ := hr
  rw [record_of_file (by rw [file_storeWith, if_pos rfl]), hb] at hb'
  cases hb'
  exact htakes d

def plainContent : List Byte := text "pkg\nmagic\n0\nAB\n\n/usr/bin/prog\n\n\n\n"

def plainLoaded : Binfmt :=
  ⟨some (text "pkg"), text "magic", text "0", some (text "AB"), [], some (text "/usr/bin/prog"),
    some [], some [], some []⟩

def awaiting : Store := busyStore [qemuEntry]

theorem keys_awaiting {name : Text} (h : (awaiting.file name).isSome = true) :
    name = text "jar" ∨ name = text "wine" := by
  have hmem : name ∈ [text "jar", text "wine"] := (isSome_file_iff awaiting name).mp h
  simpa using hmem

theorem loadable_awaiting : Loadable awaiting := by
  refine ⟨fun name hsome => ?_, fun name hsome => ?_⟩
  · rcases keys_awaiting hsome with rfl | rfl <;> decide +kernel
  · rcases keys_awaiting hsome with rfl | rfl <;> decide

def jarLoaded : Binfmt :=
  ⟨some (text "openjdk"), text "magic", text "0", some (text "PK"), [],
    some (text "/usr/bin/jexec"), some [], some [], some []⟩

def wineLoaded : Binfmt :=
  ⟨some (text "wine"), text "magic", text "0", some (text "MZ"), [],
    some (text "/usr/bin/wine"), some [], some [], some []⟩

theorem welcome_awaiting : Welcome plainEnv awaiting := by
  rintro name hmissing r ⟨b, d, hb, -, rfl⟩
  obtain ⟨hsome, -⟩ := mem_missing.mp hmissing
  rcases keys_awaiting hsome with rfl | rfl
  · have hjar : awaiting.record (text "jar") = some jarLoaded := by decide +kernel
    cases hjar.symm.trans hb
    cases d <;> exact ⟨_, entryOf_decodeLine _ (by decide +kernel), rfl⟩
  · have hwine : awaiting.record (text "wine") = some wineLoaded := by decide +kernel
    cases hwine.symm.trans hb
    cases d <;> exact ⟨_, entryOf_decodeLine _ (by decide +kernel), rfl⟩

theorem sweeps_awaiting : Sweeps plainEnv awaiting :=
  (sweeps_iff plainEnv rfl plainEnv_reliable awaiting loadable_awaiting rfl
    welcome_awaiting).mpr (by decide +kernel)

def colonName : Text := text "a:E"

def colonNameOptions : List Opt :=
  [.mode .install [colonName, text "/usr/bin/new"], .magic (text "AB"),
    .mask (text "\\xff\\xff")]

def colonNameRecord : Binfmt :=
  ⟨some (text ":"), text "magic", text "0", some (text "AB"), text "\\xff\\xff",
    some (text "/usr/bin/new"), none, none, none⟩

/-- What the emulator of the test suite checks of an extension entry. -/
def emulated (e : Entry) : Bool :=
  e.type = text "E" && e.magic ≠ [] && slash ∉ e.magic && e.interpreter ≠ []

def emulatedEnv : Env := { plainEnv with accepts := emulated }

def colonStore : Store := storeWith colonName colonNameRecord.contents

theorem load_colonStore :
    binfmtLoad colonNameRecord.contents = .ok (stored colonNameRecord) := by decide +kernel

/-- A record that --install stores under the name "a:E" is registered as "a". -/
theorem colon_registers_other :
    recordOf colonNameOptions = some colonNameRecord ∧ Loadable colonStore ∧
    colonStore.kernel.hasRegister = true ∧ Welcome emulatedEnv colonStore ∧
    missing colonStore = [colonName] ∧
    (registrations (enableRun emulatedEnv none colonStore).effects).map (fun x => x.2.name) =
      [text "a"] ∧
    ¬ Sweeps emulatedEnv colonStore := by
  have hmissing : missing colonStore = [colonName] := by decide +kernel
  have hnames : (registrations (enableRun emulatedEnv none colonStore).effects).map
      (fun x => x.2.name) = [text "a"] := by decide +kernel
  refine ⟨by decide +kernel, loadable_storeWith load_colonStore (by decide) (by decide), rfl,
    welcome_storeWith load_colonStore ?_, hmissing, hnames, ?_⟩
  · intro d
    cases d with
    | true => exact ⟨⟨text "a", text "E", text "M", text "0", text "AB", text "\\xff\\xff",
        [text "/usr/lib/binfmt-support/run-detectors", []]⟩, by decide +kernel, by decide +kernel⟩
    | false => exact ⟨⟨text "a", text "E", text "M", text "0", text "AB", text "\\xff\\xff",
        [text "/usr/bin/new", []]⟩, by decide +kernel, by decide +kernel⟩
  · intro h
    have hperm := h.each_once
    rw [hnames, hmissing] at hperm
    exact absurd (List.perm_singleton.mp hperm) (by decide)

end Example
end BinfmtSupport.Sweeping
