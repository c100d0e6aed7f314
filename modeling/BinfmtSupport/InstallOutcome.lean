import BinfmtSupport.Steady

/-!
When does act_install return 0? The calls that it makes are counted from the state in which it
begins: reading the older record, opening and writing the old entry, writing and moving the
temporary file, loading the module, and reading the other formats all take their time, and
which of them are made depends on the two stores alone. So for each way to fail it can be said
which call has to fail, or what the kernel has to refuse.
-/
namespace BinfmtSupport.InstallOutcome

open CText Kvhash Format Regstring Journal Stores Actions Loading Enabling Installing
open Rejection Steady

section Times
variable (env : Env)

def afterReading (s : Store) (name : Text) (time : ℕ) : ℕ :=
  if (s.file name).isSome = true then time + 1 else time

def Readable (s : Store) (name : Text) (time : ℕ) : Prop :=
  (s.file name).isSome = true → env.ok time = true

def moduleAt (s : Store) (time : ℕ) : Option (Store × ℕ) :=
  if (!filesystemStyle s.kernel.mount && !s.kernel.hasRegister) = true then
    if env.ok time = true then
      some ((Effect.modprobe (env.modprobed s.kernel.mount)).apply s, time + 1)
    else none
  else some (s, time)

def mountAt (s : Store) (time : ℕ) : Option (Store × ℕ) :=
  if (filesystemStyle s.kernel.mount && !s.kernel.hasRegister) = true then
    if env.ok time = true then some (Effect.mount.apply s, time + 1) else none
  else some (s, time)

/-- Switching on makes a call, but does not mind whether it fails. -/
def switchAt (s : Store) (time : ℕ) : Option (Store × ℕ) :=
  if s.kernel.hasRegister = true then
    some (if env.ok time = true then (Effect.status true).apply s else s, time + 1)
  else none

def loadedAt (s : Store) (time : ℕ) : Option (Store × ℕ) :=
  (moduleAt env s time).bind (fun x =>
    if x.1.kernel.mount.procdir = true then
      (mountAt env x.1 x.2).bind (fun y => switchAt env y.1 y.2)
    else none)

/-- What comparing the record with those of other names comes to, in the order of the walk: the
first that is not different decides, and one that cannot be compared is a crash. -/
def scanned (name : Text) (b : Binfmt) (t : Table Text Binfmt) (keys : List Text) : Option Bool :=
  ((keys.filterMap (fun key =>
    if key = name then none else (kvhashLookup t key).map (binfmtEquals b))).find?
      (· ≠ some false)).getD (some false)

/-- Whether the record needs a detector, and the time when that is known, unless a file cannot
be opened or a record cannot be compared. -/
def detectorAt (name : Text) (b : Binfmt) (s : Store) (t : Table Text Binfmt) (time : ℕ) :
    Option (Bool × ℕ) :=
  if hasDetector b then some (true, time)
  else if (List.range (s.admindir.keys.length + 1)).all (fun i => env.ok (time + i)) then
    let loaded := rememberAll s t (env.readdir s.admindir)
    (scanned name b loaded (env.walk loaded)).map
      (fun d => (d, time + 1 + s.admindir.keys.length))
  else none

end Times

section Reading
variable {env : Env} {s : Store} {m : Memory} {name : Text} {b c : Binfmt}

theorem run_loadFormat_readable (h : Readable env s name m.clock) (quiet : Bool)
    (hquiet : quiet = true ∨ Intact s name) : ∃ m', (loadFormat env name quiet).run s m =
      ⟨.returned (), m', []⟩ ∧ m'.formats = remembered m.formats name (s.record name) ∧
        m'.clock = afterReading s name m.clock := by
  unfold afterReading
  cases hfile : s.file name with
  | none =>
    refine ⟨m, run_loadFormat_missing env name quiet s m hfile, ?_, rfl⟩
    rw [record_of_missing hfile]
    rfl
  | some content =>
    have hsome : (s.file name).isSome = true := by rw [hfile]; rfl
    have hok := h hsome
    have hr := record_of_file hfile
    rw [loadFormat, Prog.run_observe_bind]
    simp only [hfile, run_succeeds_bind, hok, if_true]
    cases hload : binfmtLoad content with
    | error field =>
      rw [hload] at hr
      rcases hquiet with rfl | hintact
      · refine ⟨m.tick, rfl, ?_, rfl⟩
        rw [hr]
        rfl
      · have hrecord := hintact hsome
        rw [hr] at hrecord
        cases hrecord
    | ok format =>
      rw [hload] at hr
      refine ⟨{ m.tick with formats := kvhashInsert m.tick.formats name format }, rfl, ?_, rfl⟩
      rw [hr]
      rfl

/-- Every file takes one call, and one that cannot be opened ends the process. -/
theorem run_loadFormats_at (env : Env) (s : Store) (m : Memory) (names : List Text)
    (hnames : ∀ name ∈ names, (s.file name).isSome = true) :
    (∀ i < names.length, env.ok (m.clock + i) = true) ∧
      (∃ m', (loadFormats env true names).run s m = ⟨.returned (), m', []⟩ ∧
        m'.formats = rememberAll s m.formats names ∧ m'.clock = m.clock + names.length) ∨
    ¬ (∀ i < names.length, env.ok (m.clock + i) = true) ∧
      ∃ m' es, (loadFormats env true names).run s m = ⟨.exited 2, m', es⟩ := by
  induction names generalizing m with
  | nil => exact Or.inl ⟨fun i hi => absurd hi (Nat.not_lt_zero i), m, rfl, rfl, rfl⟩
  | cons name rest ih =>
    have hsome := hnames name List.mem_cons_self
    cases hok : env.ok m.clock with
    | false =>
      obtain ⟨m', hrun⟩ := run_loadFormat_unreadable env name true s m hsome hok
      refine Or.inr ⟨fun hall => ?_, m', [], ?_⟩
      · have hzero := hall 0 (Nat.succ_pos _)
        rw [Nat.add_zero, hok] at hzero
        cases hzero
      · rw [loadFormats, Prog.run_bind_exited hrun]
    | true =>
      have hrun := run_loadFormat_quiet env name s m hsome hok
      have hclock : ∀ i, m.clock + 1 + i = m.clock + (i + 1) := fun i => by omega
      have hall : (∀ i < (name :: rest).length, env.ok (m.clock + i) = true) ↔
          ∀ i < rest.length, env.ok (m.clock + 1 + i) = true := by
        constructor
        · intro h i hi
          rw [hclock]
          exact h (i + 1) (Nat.succ_lt_succ hi)
        · intro h i hi
          cases i with
          | zero => exact hok
          | succ i => exact hclock i ▸ h i (Nat.lt_of_succ_lt_succ hi)
      have hstep : (loadFormats env true (name :: rest)).run s m = (loadFormats env true rest).run s
          { m.tick with formats := remembered m.formats name (s.record name) } := by
        rw [loadFormats, Prog.run_bind_returned hrun, Ran.after_nil]
        rfl
      rw [hall, hstep]
      rcases ih { m.tick with formats := remembered m.formats name (s.record name) }
          (fun n hn => hnames n (List.mem_cons_of_mem name hn)) with
        ⟨hrest, m', hmore, hf, hc⟩ | ⟨hrest, m', es, hmore⟩
      · refine Or.inl ⟨hrest, m', hmore, hf, hc.trans ?_⟩
        change m.clock + 1 + rest.length = m.clock + (rest.length + 1)
        omega
      · exact Or.inr ⟨hrest, m', es, hmore⟩

/-- The walk over the table asks what the list of its comparisons says. -/
theorem run_scanFormats (name : Text) (b : Binfmt) (t : Table Text Binfmt) (keys : List Text)
    (s : Store) (m : Memory) : (scanFormats name b t keys).run s m =
      ⟨(scanned name b t keys).elim .crashed .returned, m, []⟩ := by
  induction keys with
  | nil => rfl
  | cons key rest ih =>
    rw [scanFormats]
    by_cases hkey : key = name
    · rw [if_pos hkey, ih]
      simp only [scanned, List.filterMap_cons, if_pos hkey]
    · rw [if_neg hkey]
      cases hlook : kvhashLookup t key with
      | none =>
        rw [ih]
        simp only [scanned, List.filterMap_cons, if_neg hkey, hlook, Option.map_none]
      | some other =>
        have hcons : scanned name b t (key :: rest) = (List.find? (· ≠ some false)
            (binfmtEquals b other :: rest.filterMap (fun key => if key = name then none
              else (kvhashLookup t key).map (binfmtEquals b)))).getD (some false) := by
          simp only [scanned, List.filterMap_cons, if_neg hkey, hlook, Option.map_some]
        rw [hcons, List.find?_cons]
        cases hequal : binfmtEquals b other with
        | none =>
          simp only [hequal]
          rfl
        | some d =>
          simp only [hequal]
          cases d with
          | true => rfl
          | false => exact ih

/-- needDetector returns what is foreseen for it, or does not return. -/
theorem run_needDetector_at (env : Env) (name : Text) (b : Binfmt) (s : Store) (m : Memory) :
    (∀ d time, detectorAt env name b s m.formats m.clock = some (d, time) →
      ∃ m', (needDetector env name b).run s m = ⟨.returned d, m', []⟩ ∧ m'.clock = time) ∧
    (detectorAt env name b s m.formats m.clock = none →
      ∀ d, ((needDetector env name b).run s m).outcome ≠ .returned d) := by
  have hlength : (env.readdir s.admindir).length = s.admindir.keys.length :=
    (env.readdir_perm s.admindir).length_eq
  have hnames : ∀ n ∈ env.readdir s.admindir, (s.file n).isSome = true := fun n hn =>
    (isSome_file_iff s n).mpr ((env.readdir_perm s.admindir).mem_iff.mp hn)
  have htick : ∀ i, m.tick.clock + i = m.clock + (i + 1) := fun i => by
    change m.clock + 1 + i = m.clock + (i + 1)
    omega
  have hrest := run_loadFormats_at env s m.tick (env.readdir s.admindir) hnames
  simp only [htick, hlength] at hrest
  rw [detectorAt, needDetector]
  split_ifs with hdet hall
  · exact ⟨fun d time h => by cases h; exact ⟨m, rfl, rfl⟩, fun h => by cases h⟩
  · have hcalls : ∀ i < s.admindir.keys.length + 1, env.ok (m.clock + i) = true :=
      fun i hi => List.all_eq_true.mp hall i (List.mem_range.mpr hi)
    have hopen : env.ok m.clock = true := hcalls 0 (Nat.succ_pos _)
    rcases hrest with ⟨-, m', hrun, hf, hc⟩ | ⟨hno, -⟩
    · have hload : (loadAllFormats env true).run s m = ⟨.returned (), m', []⟩ := by
        rw [loadAllFormats, run_succeeds_bind, hopen, if_pos rfl, Prog.run_observe_bind]
        exact hrun
      rw [Prog.run_bind_returned hload, replay_nil, Ran.after_nil, Prog.run_recollect_bind,
        run_scanFormats, hf, show m.tick.formats = m.formats from rfl]
      dsimp only
      cases scanned name b (rememberAll s m.formats (env.readdir s.admindir))
          (env.walk (rememberAll s m.formats (env.readdir s.admindir))) with
      | none =>
        refine ⟨fun d time h => ?_, fun _ d hd => ?_⟩
        · cases h
        · cases hd
      | some d =>
        refine ⟨fun d' time h => ?_, fun h => ?_⟩
        · cases h
          exact ⟨m', rfl, hc.trans (by omega)⟩
        · cases h
    · exact absurd (fun i hi => hcalls (i + 1) (by omega)) hno
  · refine ⟨fun d time h => (by cases h), fun _ d hd => ?_⟩
    cases hopen : env.ok m.clock with
    | false =>
      rw [loadAllFormats, bind_assoc, run_succeeds_bind, hopen, if_neg Bool.false_ne_true] at hd
      cases hd
    | true =>
      rcases hrest with ⟨hrest, -⟩ | ⟨-, m', es, hrun⟩
      · refine hall (List.all_eq_true.mpr (fun i hi => ?_))
        cases i with
        | zero => exact hopen
        | succ i => exact hrest i (by rw [List.mem_range] at hi; omega)
      · have hload : (loadAllFormats env true).run s m = ⟨.exited 2, m', es⟩ := by
          rw [loadAllFormats, run_succeeds_bind, hopen, if_pos rfl, Prog.run_observe_bind]
          exact hrun
        rw [Prog.run_bind_exited hload] at hd
        cases hd

end Reading

section Enabling
variable (env : Env) (name : Text)

def Refused (s : Store) (r : Registration) (time : ℕ) : Prop :=
  env.ok time = false ∨ env.faults (time + 1) ≠ .none ∨ accepted env s.kernel r = none

/-- With this record in the table act_enable comes to write the line, and it is refused. -/
def EnableFails (c : Binfmt) (s : Store) (t : Table Text Binfmt) (time : ℕ) : Prop :=
  ∃ u time₁, loadedAt env s time = some (u, time₁) ∧ u.kernel.procExists name = false ∧
    Readable env u name time₁ ∧ Intact u name ∧
    ∃ d time₂, detectorAt env name c u (remembered t name (u.record name))
        (afterReading u name time₁) = some (d, time₂) ∧
      Refused env u (registrationOf name c (chooseInterpreter env c d)) time₂

variable {env name} {s : Store} {m : Memory} {c : Binfmt}

/-- The call returns as it is foreseen: in this state and at this time, or it fails. -/
def Foretold (p : Act Bool) (s : Store) (m : Memory) (x : Option (Store × ℕ)) : Prop :=
  (∀ u time, x = some (u, time) → ∃ m' es, p.run s m = ⟨.returned true, m', es⟩ ∧
    replay es s = u ∧ m'.clock = time ∧ m'.formats = m.formats) ∧
  (x = none → ∃ m' es, p.run s m = ⟨.returned false, m', es⟩)

theorem foretold_works {p : Act Bool} {m' : Memory} {es : List Effect}
    (hrun : p.run s m = ⟨.returned true, m', es⟩) (hf : m'.formats = m.formats) :
    Foretold p s m (some (replay es s, m'.clock)) := by
  refine ⟨fun u time h => ?_, fun h => ?_⟩
  · cases h
    exact ⟨m', es, hrun, rfl, rfl, hf⟩
  · cases h

theorem foretold_fails {p : Act Bool} {m' : Memory} {es : List Effect}
    (hrun : p.run s m = ⟨.returned false, m', es⟩) : Foretold p s m none := by
  refine ⟨fun u time h => ?_, fun _ => ⟨m', es, hrun⟩⟩
  cases h

/-- What comes next is foreseen from where the first call ends. -/
theorem Foretold.bind {p q : Act Bool} {x : Option (Store × ℕ)} {f : Store × ℕ → Option (Store × ℕ)}
    (hp : Foretold p s m x) (hq : ∀ u m₁, Foretold q u m₁ (f (u, m₁.clock))) :
    Foretold (p >>= fun ok => if ok = true then q else pure false) s m (x.bind f) := by
  cases x with
  | none =>
    obtain ⟨m₁, es, hrun⟩ := hp.2 rfl
    have hstop : (p >>= fun ok => if ok = true then q else pure false : Act Bool).run s m =
        ⟨.returned false, m₁, es ++ []⟩ := by
      rw [Prog.run_bind_returned hrun]
      rfl
    exact foretold_fails hstop
  | some first =>
    obtain ⟨m₁, es, hrun, hstate, hclock, hf₁⟩ := hp.1 first.1 first.2 rfl
    have hnext := hq (replay es s) m₁
    rw [hstate, hclock] at hnext
    have hstep : (p >>= fun ok => if ok = true then q else pure false : Act Bool).run s m =
        (q.run first.1 m₁).after es := by
      rw [Prog.run_bind_returned hrun, if_pos rfl, hstate]
    refine ⟨fun u time h => ?_, fun h => ?_⟩
    · obtain ⟨m₂, fs, hrun₂, hstate₂, hclock₂, hf₂⟩ := hnext.1 u time h
      refine ⟨m₂, es ++ fs, ?_, ?_, hclock₂, hf₂.trans hf₁⟩
      · rw [hstep, hrun₂, Ran.after_mk]
      · rw [replay_append, hstate, hstate₂]
    · obtain ⟨m₂, fs, hrun₂⟩ := hnext.2 h
      exact ⟨m₂, es ++ fs, by rw [hstep, hrun₂, Ran.after_mk]⟩

theorem foretold_loadModule (s : Store) (m : Memory) :
    Foretold (loadModule env) s m (moduleAt env s m.clock) := by
  have hrun := run_loadModule env s m
  rw [moduleAt]
  split_ifs at hrun ⊢
  · exact foretold_works hrun rfl
  · exact foretold_fails hrun
  · exact foretold_works hrun rfl

theorem foretold_mountFilesystem (s : Store) (m : Memory) :
    Foretold (mountFilesystem env) s m (mountAt env s m.clock) := by
  have hrun := run_mountFilesystem env s m
  rw [mountAt]
  split_ifs at hrun ⊢
  · exact foretold_works hrun rfl
  · exact foretold_fails hrun
  · exact foretold_works hrun rfl

theorem foretold_switchOn (s : Store) (m : Memory) :
    Foretold (switchOn env) s m (switchAt env s m.clock) := by
  have hrun := run_switchOn env s m
  rw [switchAt]
  split_ifs at hrun ⊢
  · exact foretold_works hrun rfl
  · exact foretold_works hrun rfl
  · exact foretold_fails hrun

theorem foretold_loadBinfmtMisc (htest : env.test = false) (s : Store) (m : Memory) :
    Foretold (loadBinfmtMisc env) s m (loadedAt env s m.clock) := by
  rw [loadBinfmtMisc, if_neg (by simp [htest])]
  refine (foretold_loadModule s m).bind (fun u m₁ => ?_)
  have hobserve : ∀ (p q : Act Bool) x, Foretold (if u.kernel.mount.procdir = true then p else q)
      u m₁ x → Foretold (do
        let s ← Prog.observe
        if s.kernel.mount.procdir then p else q) u m₁ x := fun p q x h => h
  refine hobserve _ _ _ ?_
  by_cases hproc : u.kernel.mount.procdir = true
  · rw [if_pos hproc, if_pos hproc]
    exact (foretold_mountFilesystem u m₁).bind (fun v m₂ => foretold_switchOn v m₂)
  · rw [if_neg hproc, if_neg hproc]
    exact foretold_fails (run_warn_bind _ _ _ _)

/-- A registration fails if the register file refuses it. -/
theorem register_failed_iff (htest : env.test = false) (r : Registration) (s : Store) (m : Memory) :
    ((Actions.register env name r).run s m).outcome = .returned false ↔
      Refused env s r m.clock := by
  rw [run_register env htest, Refused]
  cases env.ok m.clock with
  | false => simp
  | true =>
    cases env.faults (m.clock + 1) with
    | none => cases accepted env s.kernel r <;> simp
    | error written | ignored => simp

theorem enableFormat_failed_iff (htest : env.test = false)
    (hc : kvhashLookup m.formats name = some c) :
    ((enableFormat env name).run s m).outcome = .returned false ↔
      Readable env s name m.clock ∧ Intact s name ∧
        ∃ d time, detectorAt env name c s (remembered m.formats name (s.record name))
            (afterReading s name m.clock) = some (d, time) ∧
          Refused env s (registrationOf name c (chooseInterpreter env c d)) time := by
  by_cases hread : Readable env s name m.clock ∧ Intact s name
  · obtain ⟨m₁, hload, hf₁, hc₁⟩ := run_loadFormat_readable hread.1 false (Or.inr hread.2)
    have hlook : kvhashLookup m₁.formats name = some c := by
      rw [hf₁, lookup_remembered, hc, Option.some_or]
    have hrun : (enableFormat env name).run s m = ((needDetector env name c >>= fun d =>
        Actions.register env name (registrationOf name c (chooseInterpreter env c d)) :
          Act Bool)).run s m₁ := by
      rw [enableFormat, Prog.run_bind_returned hload, replay_nil, Ran.after_nil,
        Prog.run_recollect_bind]
      simp only [hlook]
    have hneed := run_needDetector_at env name c s m₁
    rw [hrun, ← hf₁, ← hc₁]
    cases hdetector : detectorAt env name c s m₁.formats m₁.clock with
    | none =>
      refine iff_of_false (fun h => ?_) (fun h => ?_)
      · rw [Prog.outcome_bind_iff] at h
        obtain ⟨d, m₂, es, hend, -⟩ := h
        exact hneed.2 hdetector d (by rw [hend])
      · obtain ⟨-, -, d, time, hsome, -⟩ := h
        cases hsome
    | some found =>
      obtain ⟨m₂, hend, hc₂⟩ := hneed.1 found.1 found.2 hdetector
      rw [Prog.run_bind_returned hend, replay_nil, Ran.after_nil, register_failed_iff htest, hc₂]
      constructor
      · exact fun hrefused => ⟨hread.1, hread.2, found.1, found.2, rfl, hrefused⟩
      · rintro ⟨-, -, d, time, hsome, hrefused⟩
        cases hsome
        exact hrefused
  · refine iff_of_false (fun h => ?_) (fun h => hread ⟨h.1, h.2.1⟩)
    have hexit : ∃ m', (loadFormat env name false).run s m = ⟨.exited 2, m', []⟩ := by
      rw [not_and_or] at hread
      rcases hread with hno | hno
      · simp only [Readable, Classical.not_imp, Bool.not_eq_true] at hno
        exact run_loadFormat_unreadable env name false s m hno.1 hno.2
      · rcases loadFormat_cases env name false s m with ⟨m', -, -, hintact⟩ | ⟨m', hrun, -⟩
        · exact absurd (hintact.resolve_left Bool.false_ne_true) hno
        · exact ⟨m', hrun⟩
    obtain ⟨m', hrun⟩ := hexit
    rw [enableFormat, Prog.run_bind_exited hrun] at h
    cases h

/-- act_enable returns 0 exactly if its line is refused. -/
theorem actEnableName_failed_iff (htest : env.test = false)
    (hc : kvhashLookup m.formats name = some c) :
    ((actEnableName env name).run s m).outcome = .returned false ↔
      EnableFails env name c s m.formats m.clock := by
  rw [actEnableName, EnableFails]
  have hload := foretold_loadBinfmtMisc htest s m
  cases hfirst : loadedAt env s m.clock with
  | none =>
    obtain ⟨m₁, es, hrun⟩ := hload.2 hfirst
    rw [Prog.run_bind_returned hrun]
    refine iff_of_false (fun h => ?_) ?_
    · cases h
    · rintro ⟨u, time₁, hu, -⟩
      cases hu
  | some first =>
    obtain ⟨m₁, es, hrun, hu, htime, hf₁⟩ := hload.1 first.1 first.2 hfirst
    rw [Prog.run_bind_returned hrun, if_pos rfl, Prog.run_observe_bind, Ran.outcome_after, hu]
    cases hex : first.1.kernel.procExists name with
    | true =>
      rw [if_pos rfl, run_warn_bind]
      refine iff_of_false (fun h => ?_) ?_
      · cases h
      · rintro ⟨u, time₁, hsome, hno, -⟩
        cases hsome
        exact Bool.noConfusion (hex.symm.trans hno)
    | false =>
      rw [if_neg Bool.false_ne_true, enableFormat_failed_iff htest (hf₁ ▸ hc), htime, hf₁]
      constructor
      · exact fun h => ⟨first.1, first.2, rfl, hex, h⟩
      · rintro ⟨u, time₁, hsome, -, h⟩
        cases hsome
        exact h

end Enabling

section Condition
variable (env : Env) (name : Text) (b : Option Binfmt) (s : Store) (t : Table Text Binfmt)
  (time : ℕ)

/-- The record of the name that the process has or finds belongs to another package. -/
def Foreign : Prop :=
  ∃ new old package oldPackage, b = some new ∧ visible s t name = some old ∧
    new.package = some package ∧ old.package = some oldPackage ∧ package ≠ oldPackage

def Owned : Prop :=
  ∀ old, visible s t name = some old →
    ∃ new, b = some new ∧ new.package.isSome = true ∧ new.package = old.package

def clearedAt : ℕ :=
  afterReading s name time + if s.kernel.procExists name = true then 2 else 0

structure Writes : Prop where
  real : env.test = false
  readable : Readable env s name time
  owned : Owned name b s t
  free : ¬ Manual s name
  dropped : s.kernel.procExists name = true →
    dropFails env name (afterReading s name time) = false

def Unwritable (time : ℕ) : Prop :=
  env.ok time = false ∨ env.ok (time + 1) = false ∨ b.isSome = true ∧ env.ok (time + 2) = false

def Immovable (time : ℕ) : Prop :=
  isDirectoryName name = true ∨ env.ok time = false ∧ env.ok (time + 1) = false

def movedAt (time : ℕ) : ℕ := if env.ok time = true then time + 1 else time + 2

def PlacingFails : Prop :=
  Unwritable env b time ∨ ∃ new, b = some new ∧ ¬ Unwritable env b time ∧
    (Immovable env name (time + 3) ∨ ¬ Immovable env name (time + 3) ∧
      EnableFails env name ((kvhashLookup t name).getD new) (replay (moving s name new) s)
        (kvhashInsert t name new) (movedAt env (time + 3)))

inductive InstallFails : Prop
  | foreign (hread : Readable env s name time) (h : Foreign name b s t)
  | stuck (hreal : env.test = false) (hread : Readable env s name time) (howned : Owned name b s t)
      (hfile : (s.file name).isSome = true) (hex : s.kernel.procExists name = true)
      (h : dropFails env name (afterReading s name time) = true)
  | unwritable (hwrites : Writes env name b s t time)
      (h : Unwritable env b (clearedAt name s time))
  | immovable (hwrites : Writes env name b s t time) (new : Binfmt) (hb : b = some new)
      (hwritten : ¬ Unwritable env b (clearedAt name s time))
      (h : Immovable env name (clearedAt name s time + 3))
  | unregistered (hwrites : Writes env name b s t time) (new : Binfmt) (hb : b = some new)
      (hwritten : ¬ Unwritable env b (clearedAt name s time))
      (hmoved : ¬ Immovable env name (clearedAt name s time + 3))
      (h : EnableFails env name ((visible s t name).getD new) (replay (placing s name new) s)
        (kvhashInsert (remembered t name (s.record name)) name new)
        (movedAt env (clearedAt name s time + 3)))

end Condition

section Installing
variable {env : Env} {name : Text} {b : Option Binfmt} {s : Store} {m : Memory} {c new : Binfmt}

/-- A file that can be written is complete. -/
theorem run_binfmtWrite_works (file : Text) (h : ¬ Unwritable env (some new) m.clock) :
    (binfmtWrite env (some new) file).run s m =
      ⟨.returned true, m.tick.tick.tick, writing s file new.contents⟩ := by
  simp only [Unwritable, not_or, Bool.not_eq_false, Option.isSome_some, true_and] at h
  obtain ⟨hunlink, hopen, hwrite⟩ := h
  rw [run_binfmtWrite, if_pos hunlink, if_pos hopen]
  rcases writeContents_cases env file new.contents (replay (clearing s file ++ [.create file]) s)
    m.tick.tick with hrun | ⟨k, -, hfail⟩
  · simp only [Prog.run_bind_returned hrun, if_true, Prog.run_pure, Ran.after_mk, writing,
      List.append_nil, List.append_assoc, List.singleton_append]
  · exact Bool.noConfusion (hfail.symm.trans hwrite)

theorem run_tryRename (env : Env) (source dest : Text) (s : Store) (m : Memory) :
    (tryRename env source dest).run s m =
      if env.ok m.clock = true ∧ isDirectoryName dest = false then
        ⟨.returned true, m.tick, [.rename source dest]⟩
      else ⟨.returned false, m.tick, []⟩ := by
  rw [tryRename, run_succeeds_bind]
  cases env.ok m.clock <;> cases isDirectoryName dest <;> rfl

theorem run_renameMv_works (source : Text) (h : ¬ Immovable env name m.clock) :
    ∃ m', (renameMv env source name).run s m = ⟨.returned true, m', [.rename source name]⟩ ∧
      m'.formats = m.formats ∧ m'.clock = movedAt env m.clock := by
  simp only [Immovable, not_or, not_and_or, Bool.not_eq_true, Bool.not_eq_false] at h
  obtain ⟨hdir, hok⟩ := h
  have hfirst := run_tryRename env source name s m
  have hsecond := run_tryRename env source name s m.tick
  rw [show m.tick.clock = m.clock + 1 from rfl] at hsecond
  rw [renameMv, movedAt]
  cases hopen : env.ok m.clock with
  | true =>
    rw [if_pos ⟨hopen, hdir⟩] at hfirst
    refine ⟨m.tick, ?_, rfl, rfl⟩
    rw [Prog.run_bind_returned hfirst]
    rfl
  | false =>
    rw [if_neg (fun h => Bool.noConfusion (hopen.symm.trans h.1))] at hfirst
    rw [if_pos ⟨hok.resolve_left (fun h => Bool.noConfusion (hopen.symm.trans h)), hdir⟩] at hsecond
    refine ⟨m.tick.tick, ?_, rfl, rfl⟩
    rw [Prog.run_bind_returned hfirst, if_neg Bool.false_ne_true, replay_nil, hsecond]
    rfl

theorem run_renameMv_fails (source : Text) (h : Immovable env name m.clock) :
    ∃ m' es, (renameMv env source name).run s m = ⟨.returned false, m', es⟩ := by
  have hfirst := run_tryRename env source name s m
  have hsecond := run_tryRename env source name s m.tick
  rw [show m.tick.clock = m.clock + 1 from rfl] at hsecond
  have hno : ¬ (env.ok m.clock = true ∧ isDirectoryName name = false) ∧
      ¬ (env.ok (m.clock + 1) = true ∧ isDirectoryName name = false) := by
    rcases h with hdir | ⟨hfirst, hsecond⟩
    · simp [hdir]
    · simp [hfirst, hsecond]
  rw [if_neg hno.1] at hfirst
  rw [if_neg hno.2] at hsecond
  refine ⟨m.tick.tick, [], ?_⟩
  rw [renameMv, Prog.run_bind_returned hfirst, if_neg Bool.false_ne_true, replay_nil, hsecond]
  rfl

/-- Whatever is said of a failure, it is one only where the call is. -/
theorem warned_failed_iff (p : Act Bool) (w : Warning) :
    ((p >>= fun ok => if ok = true then pure true
      else warn w >>= fun _ => pure false : Act Bool).run s m).outcome = .returned false ↔
    (p.run s m).outcome = .returned false := by
  rw [Prog.outcome_bind_iff]
  constructor
  · rintro ⟨ok, m', es, hrun, h⟩
    cases ok with
    | true => cases h
    | false => rw [hrun]
  · intro h
    rcases hrun : p.run s m with ⟨out, m', es⟩
    rw [hrun] at h
    cases h
    exact ⟨false, m', es, rfl, rfl⟩

theorem enableInstalled_failed_iff (htest : env.test = false) (new : Binfmt) (s : Store)
    (m : Memory) : ((enableInstalled env name new).run s m).outcome = .returned false ↔
      EnableFails env name ((kvhashLookup m.formats name).getD new) s
        (kvhashInsert m.formats name new) m.clock := by
  rw [enableInstalled, Prog.run_remember_bind]
  exact (warned_failed_iff _ _).trans
    (actEnableName_failed_iff htest (kvhashLookup_insert m.formats name new))

/-- What is left of an installation once the name is free: the file is written, moved and
enabled, and one of these fails. -/
theorem installFile_failed_iff (htest : env.test = false) :
    ((installFile env name b).run s m).outcome = .returned false ↔
      PlacingFails env name b s m.formats m.clock := by
  rw [PlacingFails, installFile.eq_def, if_neg (by simp [htest])]
  by_cases hwrite : Unwritable env b m.clock
  · have hfalse : ((binfmtWrite env b (tmpName name)).run s m).outcome = .returned false := by
      rw [binfmtWrite_outcome]
      rcases hwrite with hno | hno | ⟨hsome, hno⟩
      · simp [hno]
      · simp [hno]
      · simp [hsome, hno]
    rcases hrun : (binfmtWrite env b (tmpName name)).run s m with ⟨out, m', es⟩
    rw [hrun] at hfalse
    cases hfalse
    rw [Prog.run_bind_returned hrun]
    exact iff_of_true rfl (Or.inl hwrite)
  · cases b with
    | none =>
      have hcrash : ((binfmtWrite env none (tmpName name)).run s m).outcome = .crashed := by
        simp only [Unwritable, not_or, Bool.not_eq_false] at hwrite
        rw [binfmtWrite_outcome, if_pos ⟨hwrite.1, hwrite.2.1⟩]
        rfl
      rcases hrun : (binfmtWrite env none (tmpName name)).run s m with ⟨out, m', es⟩
      rw [hrun] at hcrash
      cases hcrash
      rw [Prog.run_bind_crashed hrun]
      refine iff_of_false (fun h => ?_) ?_
      · cases h
      · rintro (h | ⟨new, hnone, -⟩)
        · exact hwrite h
        · cases hnone
    | some new =>
      rw [Prog.run_bind_returned (run_binfmtWrite_works (tmpName name) hwrite), if_pos rfl,
        Ran.outcome_after]
      by_cases hmove : Immovable env name (m.clock + 3)
      · obtain ⟨m', es, hrun⟩ := run_renameMv_fails (m := m.tick.tick.tick)
          (s := replay (writing s (tmpName name) new.contents) s) (tmpName name) hmove
        rw [Prog.run_bind_returned hrun]
        exact iff_of_true rfl (Or.inr ⟨new, rfl, hwrite, Or.inl hmove⟩)
      · obtain ⟨m', hrun, hf, hc⟩ := run_renameMv_works (m := m.tick.tick.tick)
          (s := replay (writing s (tmpName name) new.contents) s) (tmpName name) hmove
        have hstate : replay [Effect.rename (tmpName name) name]
            (replay (writing s (tmpName name) new.contents) s) = replay (moving s name new) s := by
          rw [moving, replay_append]
        rw [Prog.run_bind_returned hrun, if_pos rfl, Ran.outcome_after, hstate,
          enableInstalled_failed_iff htest, hf, show m'.clock = movedAt env (m.clock + 3) from hc]
        constructor
        · exact fun h => Or.inr ⟨new, rfl, hwrite, Or.inr ⟨hmove, h⟩⟩
        · rintro (h | ⟨new', hnew, -, h | ⟨-, h⟩⟩)
          · exact absurd h hwrite
          · exact absurd h hmove
          · cases hnew
            exact h

theorem enableFormat_test_ne (htest : env.test = true) (hc : kvhashLookup m.formats name = some c) :
    ((enableFormat env name).run s m).outcome ≠ .returned false := by
  intro h
  rw [enableFormat, Prog.outcome_bind_iff] at h
  obtain ⟨_, m₁, es, hload, h⟩ := h
  have hlook : kvhashLookup m₁.formats name = some c := by
    rcases loadFormat_cases env name false s m with ⟨m', hrun, hf, -⟩ | ⟨m', hrun, -⟩
    · rw [hrun] at hload
      cases hload
      rw [hf, lookup_remembered, hc, Option.some_or]
    · rw [hrun] at hload
      cases hload
  rw [Prog.run_recollect_bind] at h
  simp only [hlook] at h
  rw [Prog.outcome_bind_iff] at h
  obtain ⟨d, m₂, es', -, h⟩ := h
  rw [Actions.register, if_pos htest] at h
  cases h

theorem installFile_test_ne (htest : env.test = true) :
    ((installFile env name b).run s m).outcome ≠ .returned false := by
  intro h
  rw [installFile.eq_def, if_pos htest] at h
  cases b with
  | none => cases h
  | some new =>
    change ((answer (.install new) >>= fun _ => enableInstalled env name new : Act Bool).run s
      m).outcome = _ at h
    rw [answer, Prog.run_remember_bind, enableInstalled, Prog.run_remember_bind] at h
    have hcall := (warned_failed_iff _ _).mp h
    rw [actEnableName, loadBinfmtMisc, if_pos htest, answer, bind_assoc,
      Prog.run_remember_bind, pure_bind, if_pos rfl, Prog.run_observe_bind] at hcall
    split at hcall
    · rw [run_warn_bind] at hcall
      cases hcall
    · exact enableFormat_test_ne htest (kvhashLookup_insert _ name new) hcall

/-- An installation that is only shown fails nowhere. -/
theorem replaceFormat_test_ne (htest : env.test = true) (b : Option Binfmt) (s : Store)
    (m : Memory) : ((replaceFormat env name b).run s m).outcome ≠ .returned false := by
  have hunless : ∀ m, ((installUnlessManual env name b).run s m).outcome ≠ .returned false := by
    intro m
    rw [installUnlessManual, Prog.run_observe_bind, if_neg (by simp [htest])]
    exact installFile_test_ne htest
  rw [replaceFormat, Prog.run_observe_bind]
  split
  · obtain ⟨m', hrun⟩ := run_actDisableName_test env htest name s m
    rw [Prog.run_bind_returned hrun, if_pos rfl]
    exact hunless m'
  · exact hunless m

/-- The old entry is dropped first, where there is one of the database. -/
theorem replaceFormat_failed_iff (htest : env.test = false) (b : Option Binfmt) (s : Store)
    (m : Memory) : ((replaceFormat env name b).run s m).outcome = .returned false ↔
      (s.file name).isSome = true ∧ s.kernel.procExists name = true ∧
          dropFails env name m.clock = true ∨
        ¬ Manual s name ∧
          (s.kernel.procExists name = true → dropFails env name m.clock = false) ∧
          PlacingFails env name b (replay (dropping s name) s) m.formats
            (m.clock + if s.kernel.procExists name = true then 2 else 0) := by
  have hunless := run_installUnlessManual env htest name b
  rw [replaceFormat, Prog.run_observe_bind, dropping]
  cases hex : s.kernel.procExists name with
  | false =>
    have hdisable : (actDisableName env name).run s m = ⟨.returned true, m, []⟩ := by
      rw [run_actDisableName env htest, if_neg (by simp [hex])]
    have hplace : ((installUnlessManual env name b).run s m).outcome = .returned false ↔
        PlacingFails env name b s m.formats m.clock := by
      rw [hunless, if_neg (by simp [hex]), installFile_failed_iff htest]
    have hrun : ((if (s.file name).isSome = true then actDisableName env name >>= fun ok =>
          if ok = true then installUnlessManual env name b
          else warn (.unableToDisable name) >>= fun _ => pure false
        else installUnlessManual env name b : Act Bool).run s m).outcome =
          ((installUnlessManual env name b).run s m).outcome := by
      split
      · rw [Prog.run_bind_returned hdisable, if_pos rfl, replay_nil, Ran.after_nil]
      · rfl
    rw [hrun, hplace, Manual, hex]
    simp
  | true =>
    cases hfile : s.file name with
    | none =>
      rw [if_neg (by simp), hunless, if_pos hex, Manual, hfile, hex]
      simp
    | some content =>
      have hdisable : (actDisableName env name).run s m = (Actions.dropEntry env name).run s m := by
        rw [run_actDisableName env htest, if_pos hex]
      rw [if_pos (by simp), Manual, hfile, if_pos rfl, if_pos rfl]
      cases hdrop : dropFails env name m.clock with
      | true =>
        obtain ⟨m', es, hrun, -⟩ := run_dropEntry_fails env name s m hex hdrop
        rw [Prog.run_bind_returned (hdisable.trans hrun), if_neg Bool.false_ne_true]
        exact iff_of_true rfl (Or.inl ⟨rfl, rfl, rfl⟩)
      | false =>
        obtain ⟨hdir, hctl⟩ := plain_of_dropFails env hdrop
        have hgone : (replay [Effect.dropEntry name] s).kernel.procExists name = false :=
          procExists_dropEntry name s hdir hctl
        rw [Prog.run_bind_returned (hdisable.trans (run_dropEntry_works env name s m hdrop)),
          if_pos rfl, Ran.outcome_after, hunless, if_neg (Bool.eq_false_iff.mp hgone),
          installFile_failed_iff htest]
        change PlacingFails env name b _ m.formats (m.clock + 1 + 1) ↔ _
        simp

theorem not_foreign_of_owned {t : Table Text Binfmt} (howned : Owned name b s t) :
    ¬ Foreign name b s t := by
  rintro ⟨new, old, package, oldPackage, rfl, hold, hp, hq, hne⟩
  obtain ⟨new', hnew, -, hsame⟩ := howned old hold
  cases hnew
  rw [hp, hq] at hsame
  exact hne (Option.some.inj hsame)

/-- What fails once the file may be replaced is one of the ways that are listed. -/
theorem installFails_of_owned (hreal : env.test = false) {t : Table Text Binfmt} {time : ℕ}
    (hread : Readable env s name time) (howned : Owned name b s t) :
    ((s.file name).isSome = true ∧ s.kernel.procExists name = true ∧
        dropFails env name (afterReading s name time) = true ∨
      ¬ Manual s name ∧
        (s.kernel.procExists name = true →
          dropFails env name (afterReading s name time) = false) ∧
        PlacingFails env name b (replay (dropping s name) s)
          (remembered t name (s.record name)) (clearedAt name s time)) ↔
      InstallFails env name b s t time := by
  have hlook : kvhashLookup (remembered t name (s.record name)) name = visible s t name :=
    lookup_remembered_self s t name
  have hplaced : ∀ new, replay (placing s name new) s =
      replay (moving (replay (dropping s name) s) name new) (replay (dropping s name) s) := by
    intro new
    have hadm : (replay (dropping s name) s).admindir = s.admindir := by
      rw [dropping]
      split <;> rfl
    rw [placing, replay_append, moving_congr hadm]
  constructor
  · rintro (⟨hfile, hex, hdrop⟩ | ⟨hfree, hdropped, hplacing⟩)
    · exact .stuck hreal hread howned hfile hex hdrop
    · have hwrites : Writes env name b s t time := ⟨hreal, hread, howned, hfree, hdropped⟩
      rcases hplacing with h | ⟨new, hb, hwritten, h | ⟨hmoved, h⟩⟩
      · exact .unwritable hwrites h
      · exact .immovable hwrites new hb hwritten h
      · rw [hlook, ← hplaced] at h
        exact .unregistered hwrites new hb hwritten hmoved h
  · intro h
    cases h with
    | foreign _ h => exact absurd h (not_foreign_of_owned howned)
    | stuck _ _ _ hfile hex h => exact Or.inl ⟨hfile, hex, h⟩
    | unwritable hwrites h => exact Or.inr ⟨hwrites.free, hwrites.dropped, Or.inl h⟩
    | immovable hwrites new hb hwritten h =>
      exact Or.inr ⟨hwrites.free, hwrites.dropped, Or.inr ⟨new, hb, hwritten, Or.inl h⟩⟩
    | unregistered hwrites new hb hwritten hmoved h =>
      rw [← hlook, hplaced] at h
      exact Or.inr ⟨hwrites.free, hwrites.dropped,
        Or.inr ⟨new, hb, hwritten, Or.inr ⟨hmoved, h⟩⟩⟩

theorem InstallFails.readable {t : Table Text Binfmt} {time : ℕ}
    (h : InstallFails env name b s t time) : Readable env s name time := by
  cases h with
  | foreign hread => exact hread
  | stuck _ hread => exact hread
  | unwritable hwrites => exact hwrites.readable
  | immovable hwrites => exact hwrites.readable
  | unregistered hwrites => exact hwrites.readable

/-- Unless another package is in the way, the installation fails at something that it does. -/
theorem InstallFails.owned {t : Table Text Binfmt} {time : ℕ}
    (h : InstallFails env name b s t time) (hforeign : ¬ Foreign name b s t) :
    env.test = false ∧ Owned name b s t := by
  cases h with
  | foreign _ h => exact absurd h hforeign
  | stuck hreal _ howned => exact ⟨hreal, howned⟩
  | unwritable hwrites => exact ⟨hwrites.real, hwrites.owned⟩
  | immovable hwrites => exact ⟨hwrites.real, hwrites.owned⟩
  | unregistered hwrites => exact ⟨hwrites.real, hwrites.owned⟩

/-- Comparing the packages lets the installation go on, ends it, or uses what is not there. -/
theorem comparePackages_cases {t : Table Text Binfmt} (b : Option Binfmt)
    (hlook : kvhashLookup m.formats name = visible s t name) :
    (Owned name b s t ∧
      (comparePackages env name b).run s m = (replaceFormat env name b).run s m) ∨
    (Foreign name b s t ∧ ((comparePackages env name b).run s m).outcome = .returned false) ∨
    (¬ Owned name b s t ∧ ¬ Foreign name b s t ∧
      ((comparePackages env name b).run s m).outcome = .crashed) := by
  cases hold : visible s t name with
  | none =>
    refine Or.inl ⟨fun old h => ?_, run_comparePackages_free (hlook.trans hold)⟩
    rw [hold] at h
    cases h
  | some old =>
    have hin := hlook.trans hold
    cases b with
    | none =>
      refine Or.inr (Or.inr ⟨fun howned => ?_, ?_, by rw [run_comparePackages_null hin]⟩)
      · obtain ⟨new, hnone, -⟩ := howned old hold
        cases hnone
      · rintro ⟨new, -, -, -, hnone, -⟩
        cases hnone
    | some new =>
      -- without a package there is nothing to compare, on either side
      have hcrash : new.package = none ∨ old.package = none →
          ¬ Owned name (some new) s t ∧ ¬ Foreign name (some new) s t ∧
            ((comparePackages env name (some new)).run s m).outcome = .crashed := by
        intro hmissing
        refine ⟨fun howned => ?_, ?_, by rw [run_comparePackages_unpackaged hin hmissing]⟩
        · obtain ⟨new', hnew, hsome, hsame⟩ := howned old hold
          cases hnew
          rcases hmissing with h | h
          · rw [h] at hsome
            cases hsome
          · rw [hsame, h] at hsome
            cases hsome
        · rintro ⟨new', old', package, oldPackage, hnew, hold', hp, hq, -⟩
          cases hnew
          rw [hold] at hold'
          cases hold'
          rcases hmissing with h | h
          · cases h.symm.trans hp
          · cases h.symm.trans hq
      cases hp : new.package with
      | none => exact Or.inr (Or.inr (hcrash (Or.inl hp)))
      | some package =>
        cases hq : old.package with
        | none => exact Or.inr (Or.inr (hcrash (Or.inr hq)))
        | some oldPackage =>
          by_cases hsame : package = oldPackage
          · refine Or.inl ⟨fun old' hold' => ?_, run_comparePackages_same hin hp (hsame ▸ hq)⟩
            rw [hold] at hold'
            cases hold'
            exact ⟨new, rfl, by rw [hp]; rfl, by rw [hp, hq, hsame]⟩
          · refine Or.inr (Or.inl ⟨⟨new, old, package, oldPackage, rfl, hold, hp, hq, hsame⟩, ?_⟩)
            rw [run_comparePackages_foreign hin hp hq hsame]

/-- An installation returns 0 in the ways that are listed, and in no others. -/
theorem actInstall_failed_iff (b : Option Binfmt) (s : Store) (m : Memory) :
    ((actInstall env name b).run s m).outcome = .returned false ↔
      InstallFails env name b s m.formats m.clock := by
  by_cases hread : Readable env s name m.clock
  · obtain ⟨m₁, hload, hf₁, hc₁⟩ := run_loadFormat_readable hread true (Or.inl rfl)
    have hlook : kvhashLookup m₁.formats name = visible s m.formats name := by
      rw [hf₁, lookup_remembered_self]
    rw [run_actInstall_loaded hload]
    rcases comparePackages_cases b hlook with
      ⟨howned, hrun⟩ | ⟨hforeign, hrun⟩ | ⟨howned, hforeign, hrun⟩
    · rw [hrun]
      cases htest : env.test with
      | true =>
        refine iff_of_false (replaceFormat_test_ne htest b s m₁) (fun h => ?_)
        exact Bool.noConfusion (htest.symm.trans (h.owned (not_foreign_of_owned howned)).1)
      | false =>
        rw [replaceFormat_failed_iff htest, hf₁, hc₁]
        exact installFails_of_owned htest hread howned
    · exact iff_of_true hrun (.foreign hread hforeign)
    · rw [hrun]
      exact iff_of_false (fun h => by cases h) (fun h => howned (h.owned hforeign).2)
  · have hexit : ∃ m', (loadFormat env name true).run s m = ⟨.exited 2, m', []⟩ := by
      simp only [Readable, Classical.not_imp, Bool.not_eq_true] at hread
      exact run_loadFormat_unreadable env name true s m hread.1 hread.2
    obtain ⟨m', hrun⟩ := hexit
    rw [run_actInstall_unloaded hrun]
    exact iff_of_false (fun h => by cases h) (fun h => hread h.readable)

end Installing
end BinfmtSupport.InstallOutcome
