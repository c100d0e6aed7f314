import BinfmtSupport.AllFormats
import BinfmtSupport.Rejection

/-!
What the actions do when every call succeeds. Of all that a process holds in memory only
the records then matter: loading the module, dropping an entry and moving a file into place
are functions of the two stores, and so is the line for the kernel, once it is known which
record it is built from and whether it needs a detector.
-/
namespace BinfmtSupport.Steady

open CText Kvhash Format Regstring Journal Stores Actions Loading Enabling Installing
open AllFormats Rejection Replacement

/-- Nothing that the record is compared with is incomparable, or it is not compared at all. -/
def Comparable (s : Store) (t : Table Text Binfmt) (name : Text) (b : Binfmt) : Prop :=
  hasDetector b = true ∨ ∀ key, key ≠ name → ∀ other, visible s t key = some other →
    binfmtEquals b other ≠ none

/-- The kernel has an entry under a name that is not stored. -/
def Manual (s : Store) (name : Text) : Prop :=
  s.file name = none ∧ s.kernel.procExists name = true

theorem intact_congr {s u : Store} (h : u.admindir = s.admindir) (name : Text) :
    Intact u name ↔ Intact s name := by
  have hfile : u.file name = s.file name := by simp only [Store.file, h]
  rw [Intact, Intact, hfile, record_congr hfile]

theorem binfmtEquals_ne_none {left right : Binfmt} {magic magic' : Text}
    (hleft : left.magic = some magic) (hright : right.magic = some magic') :
    binfmtEquals left right ≠ none := by
  unfold binfmtEquals
  split
  · split
    · rw [hleft, hright]
      simp
    · simp
  · simp

theorem isSome_magic_of_record {s : Store} {name : Text} {b : Binfmt}
    (h : s.record name = some b) : b.magic.isSome = true := by
  obtain ⟨magic, hmagic⟩ := magic_of_record h
  rw [hmagic]
  rfl

/-- As long as a process only knows stored records, they all have a magic. -/
theorem magic_of_view {s u : Store} {t : Table Text Binfmt}
    (hview : ∀ key, visible u t key = s.record key) (key : Text) (c : Binfmt)
    (hc : visible u t key = some c) : c.magic.isSome = true :=
  isSome_magic_of_record ((hview key).symm.trans hc)

/-- Records with a magic can be compared. -/
theorem comparable_of_magic {s : Store} {t : Table Text Binfmt} {name : Text} {b : Binfmt}
    (hb : b.magic.isSome = true)
    (h : ∀ key c, visible s t key = some c → c.magic.isSome = true) : Comparable s t name b := by
  obtain ⟨magic, hmagic⟩ := Option.isSome_iff_exists.mp hb
  refine Or.inr (fun key _ other hother => ?_)
  obtain ⟨magic', hmagic'⟩ := Option.isSome_iff_exists.mp (h key other hother)
  exact binfmtEquals_ne_none hmagic hmagic'

/-- The record that decides is the older one, if there is one. -/
theorem magic_getD {s : Store} {t : Table Text Binfmt} {name : Text} {b : Binfmt}
    (h : ∀ key c, visible s t key = some c → c.magic.isSome = true) (hb : b.magic.isSome = true) :
    ((visible s t name).getD b).magic.isSome = true := by
  cases hv : visible s t name with
  | none => exact hb
  | some old => exact h name old hv

theorem Comparable.congr {s u : Store} {t t' : Table Text Binfmt} {name : Text} {b : Binfmt}
    (h : Comparable s t name b)
    (hsame : ∀ key, key ≠ name → visible u t' key = visible s t key) : Comparable u t' name b := by
  rcases h with hd | h
  · exact Or.inl hd
  · refine Or.inr (fun key hne other hother => ?_)
    rw [hsame key hne] at hother
    exact h key hne other hother

section Module
variable (env : Env)

def loading (s : Store) : Ran Effect Memory Bool := (loadBinfmtMisc env).run s Memory.fresh

def loads (s : Store) : Bool := (loading env s).outcome = .returned true

def setup (s : Store) : List Effect := (loading env s).effects

def enabling (s : Store) (name : Text) (r : Registration) : Bool × List Effect :=
  if loads env s = true ∧ (replay (setup env s) s).kernel.procExists name = false then
    match accepted env (replay (setup env s) s).kernel r with
    | some e => (true, setup env s ++ [.register r e])
    | none => (false, setup env s)
  else (true, setup env s)

variable {env}

theorem blind_warn (w : Warning) : Prog.Blind Memory.formats (warn w) :=
  Prog.blind_remember (fun _ => rfl)

theorem blind_succeeds (hrel : Reliable env) : Prog.Blind Memory.formats (succeeds env) := by
  refine fun _ => ⟨true, [], fun m => ⟨m.tick, ?_, rfl⟩⟩
  rw [run_succeeds, ok_of_reliable hrel]

/-- A call, and one effect when it succeeds. -/
theorem blind_call (hrel : Reliable env) (e : Effect) (w : Warning) (r : Bool) :
    Prog.Blind Memory.formats (do
      if ← succeeds env then
        Prog.emit e
        return true
      else
        warn w
        return r) := by
  refine (blind_succeeds hrel).bind (fun ok => ?_)
  split
  · exact (Prog.blind_emit e).bind (fun _ => Prog.blind_pure _)
  · exact (blind_warn w).bind (fun _ => Prog.blind_pure _)

theorem blind_loadBinfmtMisc (htest : env.test = false) (hrel : Reliable env) :
    Prog.Blind Memory.formats (loadBinfmtMisc env) := by
  have hmodule : Prog.Blind Memory.formats (loadModule env) := by
    refine Prog.Blind.observe_bind (fun s => ?_)
    split
    · exact blind_call hrel _ _ _
    · exact Prog.blind_pure _
  have hmount : Prog.Blind Memory.formats (mountFilesystem env) := by
    refine Prog.Blind.observe_bind (fun s => ?_)
    split
    · exact blind_call hrel _ _ _
    · exact Prog.blind_pure _
  have hswitch : Prog.Blind Memory.formats (switchOn env) := by
    refine Prog.Blind.observe_bind (fun s => ?_)
    split
    · exact blind_call hrel _ _ _
    · exact (blind_warn _).bind (fun _ => Prog.blind_pure _)
  rw [loadBinfmtMisc, if_neg (by simp [htest])]
  refine hmodule.bind (fun loaded => ?_)
  split
  · refine Prog.Blind.observe_bind (fun s => ?_)
    split
    · refine hmount.bind (fun mounted => ?_)
      split
      · exact hswitch
      · exact Prog.blind_pure _
    · exact (blind_warn _).bind (fun _ => Prog.blind_pure _)
  · exact Prog.blind_pure _

/-- Loading the module is the same for all processes. -/
theorem run_loadBinfmtMisc (htest : env.test = false) (hrel : Reliable env) (s : Store)
    (m : Memory) : ∃ m', (loadBinfmtMisc env).run s m =
      ⟨.returned (loads env s), m', setup env s⟩ ∧ m'.formats = m.formats := by
  obtain ⟨r, es, hrun⟩ := blind_loadBinfmtMisc htest hrel s
  obtain ⟨m₀, hfresh, -⟩ := hrun Memory.fresh
  have hloads : loads env s = r := by
    rw [loads, loading, hfresh]
    cases r <;> rfl
  have hsetup : setup env s = es := by rw [setup, loading, hfresh]
  rw [hloads, hsetup]
  exact hrun m

/-- What load_binfmt_misc does depends on the kernel alone. -/
theorem sees_loadBinfmtMisc : Prog.Sees Store.kernel (loadBinfmtMisc env) := by
  have happly : ∀ (e : Effect) (s t : Store), t.kernel = s.kernel →
      (e.apply t).kernel = (e.apply s).kernel := by
    intro e s t h
    by_cases hfiles : e.files = []
    · cases e <;> simp_all [Effect.files, Effect.apply]
    · rw [kernel_apply_of_files e t hfiles, kernel_apply_of_files e s hfiles, h]
  have hsucceeds : Prog.Sees Store.kernel (succeeds env) := fun s t m _ => by
    rw [run_succeeds, run_succeeds]
  have hwarn : ∀ w r, Prog.Sees Store.kernel (warn w >>= fun _ => pure r : Act Bool) :=
    fun w r => (Prog.sees_remember _).bind happly (fun _ => Prog.sees_pure r)
  have hcall : ∀ e w r, Prog.Sees Store.kernel (do
      if ← succeeds env then
        Prog.emit e
        return true
      else
        warn w
        return r : Act Bool) := by
    intro e w r
    refine hsucceeds.bind happly (fun ok => ?_)
    split
    · exact (Prog.sees_emit e).bind happly (fun _ => Prog.sees_pure _)
    · exact hwarn w r
  have hmodule : Prog.Sees Store.kernel (loadModule env) := by
    refine Prog.Sees.observe_bind (fun s t h => by simp only [h]) (fun s => ?_)
    split
    · exact hcall _ _ _
    · exact Prog.sees_pure _
  have hmount : Prog.Sees Store.kernel (mountFilesystem env) := by
    refine Prog.Sees.observe_bind (fun s t h => by simp only [h]) (fun s => ?_)
    split
    · exact hcall _ _ _
    · exact Prog.sees_pure _
  have hswitch : Prog.Sees Store.kernel (switchOn env) := by
    refine Prog.Sees.observe_bind (fun s t h => by simp only [h]) (fun s => ?_)
    split
    · exact hcall _ _ _
    · exact hwarn _ _
  rw [loadBinfmtMisc]
  split
  · exact (Prog.sees_remember _).bind happly (fun _ => Prog.sees_pure _)
  · refine hmodule.bind happly (fun loaded => ?_)
    split
    · refine Prog.Sees.observe_bind (fun s t h => by simp only [h]) (fun s => ?_)
      split
      · refine hmount.bind happly (fun mounted => ?_)
        split
        · exact hswitch
        · exact Prog.sees_pure _
      · exact hwarn _ _
    · exact Prog.sees_pure _

theorem loads_congr {s u : Store} (h : u.kernel = s.kernel) : loads env u = loads env s := by
  rw [loads, loading, sees_loadBinfmtMisc s u _ h]
  rfl

theorem setup_isSetup (htest : env.test = false) (s : Store) :
    ∀ e ∈ setup env s, e.isSetup = true := by
  obtain ⟨r, m', es, hrun, -, hset, -⟩ := loadBinfmtMisc_cases env htest s Memory.fresh
  rw [setup, loading, hrun]
  exact hset

/-- Enabling touches no file. -/
theorem files_of_enabling (htest : env.test = false) (s : Store) (name : Text)
    (r : Registration) : ∀ e ∈ (enabling env s name r).2, e.files = [] := by
  have hset : ∀ e ∈ setup env s, e.files = [] :=
    fun e he => files_of_isSetup e (setup_isSetup htest s e he)
  unfold enabling
  split
  · split
    · intro e he
      rcases List.mem_append.mp he with he | he
      · exact hset e he
      · rw [List.mem_singleton.mp he]
        rfl
    · exact hset
  · exact hset

end Module

section Quiet
variable (env : Env)

theorem leaves_succeeds : Prog.Leaves Memory.answers (succeeds env) := by
  intro s m
  rw [run_succeeds]
  rfl

theorem leaves_quit {α : Type} (w : Warning) :
    Prog.Leaves Memory.answers (quit w : Act α) := fun _ _ => rfl

theorem leaves_loadFormat (name : Text) (quiet : Bool) :
    Prog.Leaves Memory.answers (loadFormat env name quiet) := by
  intro s m
  rw [loadFormat, Prog.run_observe_bind]
  cases s.file name with
  | none => rfl
  | some content =>
    refine ((leaves_succeeds env).bind (fun ok => ?_)) s m
    split
    · cases binfmtLoad content with
      | error field =>
        simp only
        split
        · exact Prog.leaves_pure _
        · exact leaves_quit _
      | ok format => exact fun _ _ => rfl
    · exact leaves_quit _

theorem leaves_loadAllFormats (quiet : Bool) :
    Prog.Leaves Memory.answers (loadAllFormats env quiet) := by
  have heach : ∀ names, Prog.Leaves Memory.answers (loadFormats env quiet names) := by
    intro names
    induction names with
    | nil => exact Prog.leaves_pure _
    | cons name rest ih => exact (leaves_loadFormat env name quiet).bind (fun _ => ih)
  refine (leaves_succeeds env).bind (fun ok => ?_)
  split
  · intro s m
    rw [Prog.run_observe_bind]
    exact heach _ s m
  · exact leaves_quit _

theorem leaves_needDetector (name : Text) (b : Binfmt) :
    Prog.Leaves Memory.answers (needDetector env name b) := by
  rw [needDetector]
  split
  · exact Prog.leaves_pure _
  · refine (leaves_loadAllFormats env true).bind (fun _ => ?_)
    intro s m
    rw [Prog.run_recollect_bind]
    rcases scanFormats_cases name b m.formats (env.walk m.formats) s m with
      ⟨hscan, -⟩ | ⟨hscan, -⟩ | ⟨hscan, -⟩ <;> rw [hscan]

end Quiet

section Line
variable {env : Env} {s : Store} {m : Memory} {name : Text} {b : Binfmt}

/-- Reading a record quietly always comes to its end. -/
theorem run_loadFormat (hrel : Reliable env) (name : Text) (s : Store) (m : Memory) :
    ∃ m', (loadFormat env name true).run s m = ⟨.returned (), m', []⟩ ∧
      m'.formats = remembered m.formats name (s.record name) ∧ m'.answers = m.answers := by
  have hquiet := leaves_loadFormat env name true s m
  rcases loadFormat_cases env name true s m with
    ⟨m', hload, hf', -⟩ | ⟨m', -, ⟨time, hfail⟩ | ⟨hloud, -⟩⟩
  · rw [hload] at hquiet
    exact ⟨m', hload, hf', hquiet⟩
  · rw [ok_of_reliable hrel] at hfail
    cases hfail
  · cases hloud

/-- The answer about the detector is given where every comparison has a result. -/
theorem run_needDetector (hrel : Reliable env) (hcomp : Comparable s m.formats name b) :
    ∃ d m', (needDetector env name b).run s m = ⟨.returned d, m', []⟩ ∧
      (d = true ↔ NeedsDetector s m.formats name b) ∧ SameView s m.formats m'.formats := by
  cases hd : hasDetector b with
  | true =>
    refine ⟨true, m, by simp [needDetector, hd], ?_, fun _ => rfl⟩
    simp [NeedsDetector, hd]
  | false =>
    rcases needDetector_cases env name b s m with h | ⟨m', -, time, hfail⟩ | ⟨m', hrun, -⟩
    · exact h
    · rw [ok_of_reliable hrel] at hfail
      cases hfail
    · -- the scan only crashes on a record of another name
      exfalso
      rcases loadAllFormats_cases env true s m with
        ⟨m₁, hread, hvis, -⟩ | ⟨m₁, -, ⟨time, hfail⟩ | ⟨hquiet, -⟩⟩
      · have hstep : (needDetector env name b).run s m =
            (scanFormats name b m₁.formats (env.walk m₁.formats)).run s m₁ := by
          simp only [needDetector, hd, Bool.false_eq_true, if_false]
          rw [Prog.run_bind_returned hread]
          simp
        rw [hstep] at hrun
        rcases scanFormats_cases name b m₁.formats (env.walk m₁.formats) s m₁ with
          ⟨hscan, -⟩ | ⟨hscan, -⟩ | ⟨-, key, -, hne, other, hlook, hnone⟩
        · rw [hscan] at hrun
          cases hrun
        · rw [hscan] at hrun
          cases hrun
        · rcases hcomp with hdet | hcomp
          · rw [hd] at hdet
            cases hdet
          · exact hcomp key hne other ((hvis key) ▸ hlook) hnone
      · rw [ok_of_reliable hrel] at hfail
        cases hfail
      · cases hquiet

/-- The line is built from the visible record of the name, whether it is then written or
only shown. -/
theorem run_enableFormat (hrel : Reliable env) (hintact : Intact s name)
    (hvis : visible s m.formats name = some b) (hcomp : Comparable s m.formats name b) :
    ∃ m' d, (d = true ↔ NeedsDetector s m.formats name b) ∧ SameView s m.formats m'.formats ∧
      m'.answers = m.answers ∧ (enableFormat env name).run s m = (Actions.register env name
        (registrationOf name b (chooseInterpreter env b d))).run s m' := by
  rcases loadFormat_cases env name false s m with
    ⟨m₁, hload, hf₁, -⟩ | ⟨m₁, -, ⟨time, hfail⟩ | ⟨-, hbad⟩⟩
  · have hview : SameView s m.formats m₁.formats := by
      rw [hf₁]
      exact sameView_remembered s m.formats name
    have hlook : kvhashLookup m₁.formats name = some b := by
      rw [hf₁, lookup_remembered_self, hvis]
    obtain ⟨d, m₂, hneed, hd, hview'⟩ :=
      run_needDetector hrel (hcomp.congr (fun key _ => hview key))
    have hquiet := leaves_loadFormat env name false s m
    have hquiet' := leaves_needDetector env name b s m₁
    rw [hload] at hquiet
    rw [hneed] at hquiet'
    refine ⟨m₂, d, hd.trans (needsDetector_congr name b hview), ?_, hquiet'.trans hquiet, ?_⟩
    · intro key
      rw [hview', hview]
    · rw [enableFormat, Prog.run_bind_returned hload, Prog.run_recollect_bind]
      simp only [hlook]
      exact Prog.run_bind_returned hneed _
  · rw [ok_of_reliable hrel] at hfail
    cases hfail
  · exact absurd hintact hbad

theorem run_register (htest : env.test = false) (hrel : Reliable env) (name : Text)
    (r : Registration) (s : Store) (m : Memory) : ∃ m', m'.formats = m.formats ∧
      (∀ e, accepted env s.kernel r = some e →
        (Actions.register env name r).run s m = ⟨.returned true, m', [.register r e]⟩) ∧
      (accepted env s.kernel r = none →
        (Actions.register env name r).run s m = ⟨.returned false, m', []⟩) := by
  have hwrite := run_writeRegister env r s m.tick
  have hopen : (Actions.register env name r).run s m =
      ((writeRegister env r >>= fun written => if written = true then pure true else do
        warn (.unableToClose (text "register"))
        return false) : Act Bool).run s m.tick := by
    simp only [Actions.register, htest, Bool.false_eq_true, if_false, run_succeeds_bind,
      ok_of_reliable hrel, if_true]
  rw [hopen]
  simp only [hrel m.tick.clock] at hwrite
  cases hacc : accepted env s.kernel r with
  | some e =>
    simp only [hacc] at hwrite
    refine ⟨m.tick.tick, rfl, ?_, fun hnone => by cases hnone⟩
    rintro _ ⟨⟩
    rw [Prog.run_bind_returned hwrite]
    rfl
  | none =>
    simp only [hacc] at hwrite
    refine ⟨m.tick.tick.warned (.unableToClose (text "register")), rfl,
      fun e hsome => (by cases hsome), fun _ => ?_⟩
    rw [Prog.run_bind_returned hwrite]
    rfl

/-- act_enable where the module cannot be loaded, or the name is in procdir. -/
theorem run_actEnableName_idle (htest : env.test = false) (hrel : Reliable env)
    (h : ¬ (loads env s = true ∧ (replay (setup env s) s).kernel.procExists name = false)) :
    ∃ m', (actEnableName env name).run s m = ⟨.returned true, m', setup env s⟩ ∧
      m'.formats = m.formats := by
  obtain ⟨m₁, hload, hf₁⟩ := run_loadBinfmtMisc htest hrel s m
  cases hloads : loads env s with
  | false =>
    rw [hloads] at hload
    refine ⟨m₁, ?_, hf₁⟩
    rw [actEnableName, Prog.run_bind_returned hload, if_neg Bool.false_ne_true, Prog.run_pure,
      Ran.after_mk, List.append_nil]
  | true =>
    rw [hloads] at hload
    have hex : (replay (setup env s) s).kernel.procExists name = true := by
      simpa [hloads] using h
    refine ⟨m₁.warned (.alreadyEnabled name), ?_, hf₁⟩
    rw [actEnableName, Prog.run_bind_returned hload, if_pos rfl, Prog.run_observe_bind,
      if_pos hex, run_warn_bind, Prog.run_pure, Ran.after_mk, List.append_nil]

/-- Otherwise it looks for the record. -/
theorem run_actEnableName_open (htest : env.test = false) (hrel : Reliable env)
    (hloads : loads env s = true)
    (hex : (replay (setup env s) s).kernel.procExists name = false) :
    ∃ m₁, m₁.formats = m.formats ∧ (actEnableName env name).run s m =
      ((enableFormat env name).run (replay (setup env s) s) m₁).after (setup env s) := by
  obtain ⟨m₁, hload, hf₁⟩ := run_loadBinfmtMisc htest hrel s m
  rw [hloads] at hload
  refine ⟨m₁, hf₁, ?_⟩
  rw [actEnableName, Prog.run_bind_returned hload, if_pos rfl, Prog.run_observe_bind, hex,
    if_neg Bool.false_ne_true]

/-- act_enable for a name whose line is determined. -/
theorem run_actEnableName_line (htest : env.test = false) (hrel : Reliable env)
    (hintact : Intact s name) (hvis : visible s m.formats name = some b)
    (hcomp : Comparable s m.formats name b) {d : Bool}
    (hd : d = true ↔ NeedsDetector s m.formats name b) :
    let line := registrationOf name b (chooseInterpreter env b d)
    ∃ m', (actEnableName env name).run s m =
      ⟨.returned (enabling env s name line).1, m', (enabling env s name line).2⟩ ∧
      SameView s m.formats m'.formats := by
  intro line
  by_cases hopen : loads env s = true ∧ (replay (setup env s) s).kernel.procExists name = false
  · obtain ⟨m₁, hf₁, hrun⟩ := run_actEnableName_open (m := m) htest hrel hopen.1 hopen.2
    have hadm := admindir_replay_of_setup _ s (setup_isSetup htest s)
    have hview : ∀ key, visible (replay (setup env s) s) m₁.formats key =
        visible s m.formats key := by
      intro key
      rw [hf₁]
      exact visible_congr hadm m.formats key
    have hintact' := (intact_congr hadm name).mpr hintact
    obtain ⟨m₂, d', hd', hview', -, hformat⟩ :=
      run_enableFormat hrel hintact' ((hview name).trans hvis)
        (hcomp.congr (fun key _ => hview key))
    have hsame : d' = d := by
      rw [Bool.eq_iff_iff, hd', hd]
      exact needsDetector_congr name b hview
    obtain ⟨m₃, hf₃, htaken, hrefused⟩ :=
      run_register htest hrel name line (replay (setup env s) s) m₂
    rw [hsame] at hformat
    refine ⟨m₃, ?_, fun key => ?_⟩
    · rw [hrun, hformat, enabling, if_pos hopen]
      cases hacc : accepted env (replay (setup env s) s).kernel line with
      | some e => rw [htaken e hacc, Ran.after_mk]
      | none => rw [hrefused hacc, Ran.after_mk, List.append_nil]
    · rw [hf₃, ← visible_congr hadm, hview', hview]
  · obtain ⟨m', hrun, hf'⟩ := run_actEnableName_idle (m := m) htest hrel hopen
    have hidle : enabling env s name line = (true, setup env s) := if_neg hopen
    refine ⟨m', ?_, fun key => by rw [hf']⟩
    rw [hrun, hidle]

end Line

section Placing

def dropping (s : Store) (name : Text) : List Effect :=
  if s.kernel.procExists name = true then [.dropEntry name] else []

def placing (s : Store) (name : Text) (b : Binfmt) : List Effect :=
  dropping s name ++ moving s name b

variable {env : Env} {s : Store} {m : Memory} {name : Text} {b : Binfmt}

theorem eq_dropping {drop : List Effect} (h : Dropped name s drop) : drop = dropping s name := by
  rcases h.shape with ⟨rfl, hex⟩ | ⟨rfl, hex⟩
  · rw [dropping, if_neg (by simp [hex])]
  · rw [dropping, if_pos hex]

theorem dropped_dropping (hdir : isDirectoryName name = false) (hctl : isControlName name = false) :
    Dropped name s (dropping s name) := by
  unfold dropping
  split
  · rename_i hex
    exact ⟨Or.inr ⟨rfl, hex⟩, procExists_dropEntry name s hdir hctl⟩
  · rename_i hex
    rw [Bool.not_eq_true] at hex
    exact ⟨Or.inl ⟨rfl, hex⟩, hex⟩

theorem file_replay_placing (hdir : isDirectoryName name = false)
    (hctl : isControlName name = false) (key : Text) :
    (replay (placing s name b) s).file key = if key = name then some b.contents
      else if key = tmpName name then none else s.file key :=
  file_replay_dropped_moving (dropped_dropping hdir hctl) b key

/-- An entry that was not made from this database is left alone. -/
theorem run_replaceFormat_manual (htest : env.test = false) (h : Manual s name) :
    ∃ m', (replaceFormat env name (some b)).run s m = ⟨.returned true, m', []⟩ ∧
      m'.formats = m.formats := by
  obtain ⟨hfile, hex⟩ := h
  refine ⟨m.warned (.manuallyCreated name), ?_, rfl⟩
  rw [replaceFormat, Prog.run_observe_bind, if_neg (by simp [hfile]),
    run_installUnlessManual env htest, if_pos hex]

/-- Otherwise the new file is put in place and the format is enabled. -/
theorem run_replaceFormat_placed (htest : env.test = false) (hrel : Reliable env)
    (hdir : isDirectoryName name = false) (hctl : isControlName name = false)
    (h : ¬ Manual s name) : ∃ m₁, m₁.formats = m.formats ∧
      (replaceFormat env name (some b)).run s m =
        ((enableInstalled env name b).run (replay (placing s name b) s) m₁).after
          (placing s name b) := by
  rcases replaceFormat_cases env htest name (some b) s m with
    ⟨m', -, hfile, hex⟩ | ⟨m', es, -, -, -, -, hfails⟩ | ⟨m₁, drop, hf₁, hdrop, -, -, hrun⟩
  · exact absurd ⟨hfile, hex⟩ h
  · rw [dropFails_of_reliable env hrel, hdir, hctl] at hfails
    cases hfails
  · rcases installFile_cases env htest name b (replay drop s) m₁ with
      ⟨m', es, -, -, hwhy⟩ | ⟨m₂, hf₂, -, hinst⟩
    · rw [hwhy hrel] at hdir
      cases hdir
    · have hplace : drop ++ moving (replay drop s) name b = placing s name b := by
        rw [placing, ← eq_dropping hdrop, moving_congr hdrop.admindir]
      refine ⟨m₂, hf₂.trans hf₁, ?_⟩
      rw [hrun, hinst, Ran.after_after, ← replay_append, hplace]

/-- act_install gets past the check of the packages. -/
theorem run_actInstall_checked (hrel : Reliable env)
    (h : ∀ old, visible s m.formats name = some old →
      old.package = b.package ∧ b.package.isSome = true) :
    ∃ m₁, m₁.formats = remembered m.formats name (s.record name) ∧ m₁.answers = m.answers ∧
      (actInstall env name (some b)).run s m = (replaceFormat env name (some b)).run s m₁ := by
  obtain ⟨m₁, hload, hf₁, hquiet⟩ := run_loadFormat hrel name s m
  refine ⟨m₁, hf₁, hquiet, ?_⟩
  have hlook : kvhashLookup m₁.formats name = visible s m.formats name := by
    rw [hf₁, lookup_remembered_self]
  rw [run_actInstall_loaded hload]
  cases hv : visible s m.formats name with
  | none => exact run_comparePackages_free (hlook.trans hv)
  | some old =>
    obtain ⟨hsame, hpackage⟩ := h old hv
    obtain ⟨package, hp⟩ := Option.isSome_iff_exists.mp hpackage
    exact run_comparePackages_same (hlook.trans hv) hp (hsame.trans hp)

/-- Any other package is turned away. -/
theorem run_actInstall_foreign (hrel : Reliable env) {old : Binfmt} {package oldPackage : Text}
    (hold : visible s m.formats name = some old) (hp : b.package = some package)
    (hq : old.package = some oldPackage) (hne : package ≠ oldPackage) :
    ∃ m', (actInstall env name (some b)).run s m = ⟨.returned false, m', []⟩ ∧
      SameView s m.formats m'.formats ∧ m'.answers = m.answers := by
  obtain ⟨m₁, hload, hf₁, hquiet⟩ := run_loadFormat hrel name s m
  have hlook : kvhashLookup m₁.formats name = some old := by
    rw [hf₁, lookup_remembered_self, hold]
  refine ⟨m₁.warned (.installedBy (shownPackage package) (shownPackage oldPackage)), ?_, ?_,
    hquiet⟩
  · rw [run_actInstall_loaded hload, run_comparePackages_foreign hlook hp hq hne]
  · intro key
    change visible s m₁.formats key = _
    rw [hf₁]
    exact sameView_remembered s m.formats name key

/-- The whole installation: what it returns, and what it does to the two stores. -/
theorem run_actInstall_line (htest : env.test = false) (hrel : Reliable env)
    (hdir : isDirectoryName name = false) (hctl : isControlName name = false)
    (hloads : (binfmtLoad b.contents).toOption.isSome = true)
    (howner : ∀ old, visible s m.formats name = some old →
      old.package = b.package ∧ b.package.isSome = true)
    (hmanual : ¬ Manual s name) {c : Binfmt} (hc : (visible s m.formats name).getD b = c)
    (hcomp : Comparable (withoutTmp s name) m.formats name c) {d : Bool}
    (hd : d = true ↔ NeedsDetector (withoutTmp s name) m.formats name c) :
    let line := registrationOf name c (chooseInterpreter env c d)
    let u := replay (placing s name b) s
    ∃ m', (actInstall env name (some b)).run s m = ⟨.returned (enabling env u name line).1, m',
        placing s name b ++ (enabling env u name line).2⟩ ∧
      ∀ key, visible (replay (enabling env u name line).2 u) m'.formats key =
        if key = name then some c else visible (withoutTmp s name) m.formats key := by
  intro line u
  obtain ⟨m₁, hf₁, -, hrun⟩ := run_actInstall_checked hrel howner
  obtain ⟨m₂, hf₂, hplaced⟩ := run_replaceFormat_placed (m := m₁) (b := b) htest hrel hdir hctl
    hmanual
  have hfile : ∀ key, u.file key = if key = name then some b.contents
      else if key = tmpName name then none else s.file key := file_replay_placing hdir hctl
  have hvis := visible_installed hfile m.formats
  have hneed := needsDetector_installed hfile m.formats c
  let m₃ : Memory := { m₂ with formats := kvhashInsert m₂.formats name b }
  have hf₃ : m₃.formats = kvhashInsert (remembered m.formats name (s.record name)) name b := by
    change kvhashInsert m₂.formats name b = _
    rw [hf₂, hf₁]
  rw [← hf₃] at hvis hneed
  have hown : visible u m₃.formats name = some c := by rw [hvis, if_pos rfl, hc]
  have hcomp' : Comparable u m₃.formats name c :=
    hcomp.congr (fun key hne => (hvis key).trans (if_neg hne))
  have hintact : Intact u name := by
    intro _
    rw [record_of_file ((hfile name).trans (if_pos rfl))]
    exact hloads
  obtain ⟨m₄, henable, hview⟩ :=
    run_actEnableName_line htest hrel hintact hown hcomp' (hd.trans hneed.symm)
  obtain ⟨m', hend, hf'⟩ := enableInstalled_run env name b u m₂ m₃ m₄ rfl _ _ henable
  refine ⟨m', by rw [hrun, hplaced, hend, Ran.after_mk], fun key => ?_⟩
  have hadm := admindir_replay_of_noFiles _ u (files_of_enabling htest u name line)
  rw [visible_congr hadm, hf', hview, hvis, hc]

end Placing
end BinfmtSupport.Steady
