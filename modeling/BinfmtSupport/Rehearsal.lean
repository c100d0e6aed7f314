import BinfmtSupport.Steady

/-!
Under --test an action runs over stores that do not change, and prints what it would do.
The steps of the real action are read off its journal: a file that is moved into place, a
line that is registered, an entry that is dropped, a file that is deleted. For one name the
two agree as long as what stands between them can be foreseen: the manual entry, which the
real installation leaves alone, and what comes into view when the module is loaded.
-/
namespace BinfmtSupport.Rehearsal

open CText Kvhash Format Regstring Journal Stores Actions Loading Enabling Installing
open AllFormats Rejection Replacement Steady

/-- What is demonstrated, and what is done: a record is installed, a name is enabled with
a line, a name is disabled, a record is removed. -/
inductive Event
  | install (record : List Byte)
  | enable (name line : Text)
  | disable (name : Text)
  | remove (name : Text)
deriving DecidableEq

def performs : Effect → Store → List Event
  | .rename source _, s => (s.file source).toList.map .install
  | .register r _, _ => [.enable r.name r.regstring]
  | .dropEntry name, _ => [.disable name]
  | .unlink name, _ => [.remove name]
  | _, _ => []

def shows : Answer → List Event
  | .install b => [.install b.contents]
  | .enable name r => [.enable name r.regstring]
  | .disable name => [.disable name]
  | .remove name => [.remove name]
  | _ => []

def performed (es : List Effect) (s : Store) : List Event := observed performs es s

def demonstrated (m : Memory) : List Event := m.answers.flatMap shows

/-- The same machine under --test. -/
def trial (env : Env) : Env := { env with test := true }

def Agree (u : Store) (m : Memory) (s : Store) (n : Memory) : Prop :=
  ∀ key, visible s n.formats key = visible u m.formats key

/-- load_binfmt_misc works where the name needs it, and shows or hides no entry of it. -/
def Foreseen (env : Env) (s : Store) (name : Text) : Prop :=
  (replay (setup env s) s).kernel.procExists name = s.kernel.procExists name ∧
    (s.kernel.procExists name = false → loads env s = true)

section Events

@[simp] theorem performed_nil (s : Store) : performed [] s = [] := rfl

theorem performed_append (es fs : List Effect) (s : Store) :
    performed (es ++ fs) s = performed es s ++ performed fs (replay es s) :=
  observed_append performs es fs s

theorem performed_setup {es : List Effect} (h : ∀ e ∈ es, e.isSetup = true) (s : Store) :
    performed es s = [] := by
  refine observed_of_forall (fun e he t => ?_) s
  have hset := h e he
  cases e <;> first | rfl | cases hset

theorem performed_dropped {name : Text} {s : Store} {drop : List Effect}
    (h : Dropped name s drop) : performed drop s =
      if s.kernel.procExists name = true then [.disable name] else [] := by
  rcases h.shape with ⟨rfl, hex⟩ | ⟨rfl, hex⟩
  · rw [if_neg (by simp [hex]), performed_nil]
  · rw [if_pos hex]
    rfl

/-- Writing a new file shows when it is moved, unless an older one has to go first. -/
theorem performed_moving {s : Store} {name : Text} (b : Binfmt)
    (htmp : s.file (tmpName name) = none) :
    performed (moving s name b) s = [.install b.contents] := by
  have hclear : clearing s (tmpName name) = [] := if_neg (by simp [htmp])
  have hwrite : performed (writing s (tmpName name) b.contents) s = [] := by
    refine observed_of_forall (fun e he t => ?_) s
    rw [writing, hclear, List.nil_append] at he
    rcases List.mem_cons.mp he with rfl | he
    · rfl
    · obtain ⟨byte, -, rfl⟩ := List.mem_map.mp he
      rfl
  have hfile : (replay (writing s (tmpName name) b.contents) s).file (tmpName name) =
      some b.contents := by
    rw [file_replay_writing, if_pos rfl]
  rw [moving, performed_append, hwrite, List.nil_append]
  change performs (.rename (tmpName name) name) _ ++ [] = _
  rw [performs, hfile]
  rfl

/-- An accepted line is all that enabling shows. -/
theorem performed_enabling {env : Env} (htest : env.test = false) {u : Store} {name : Text}
    {r : Registration} (hfore : Foreseen env u name) (hr : (enabling env u name r).1 = true) :
    performed (enabling env u name r).2 u =
      if u.kernel.procExists name = true then [] else [.enable r.name r.regstring] := by
  have hset := performed_setup (setup_isSetup htest u) u
  cases hex : u.kernel.procExists name with
  | true =>
    have hidle : enabling env u name r = (true, setup env u) :=
      if_neg (by simp [hfore.1, hex])
    rw [hidle, hset, if_pos rfl]
  | false =>
    have hopen : loads env u = true ∧ (replay (setup env u) u).kernel.procExists name = false :=
      ⟨hfore.2 hex, hfore.1.trans hex⟩
    rw [enabling, if_pos hopen] at hr ⊢
    cases hacc : accepted env (replay (setup env u) u).kernel r with
    | some e =>
      simp only [Bool.false_eq_true, if_false, performed_append, hset]
      rfl
    | none =>
      rw [hacc] at hr
      cases hr

theorem demonstrated_of_answers {m n : Memory} (as : List Answer)
    (h : n.answers = m.answers ++ as) :
    demonstrated n = demonstrated m ++ as.flatMap shows := by
  rw [demonstrated, h, List.flatMap_append]
  rfl

end Events

section Disable
variable {env : Env} {s u : Store} {m m' n : Memory} {name : Text} {es : List Effect}

/-- Under --test a name in procdir is shown as disabled. -/
theorem run_actDisableName_trial (env : Env) (name : Text) (s : Store) (n : Memory) :
    ∃ n', (actDisableName (trial env) name).run s n = ⟨.returned true, n', []⟩ ∧
      n'.formats = n.formats ∧ n'.answers = n.answers ++
        if s.kernel.procExists name = true then [.disable name] else [] := by
  rw [actDisableName, Prog.run_observe_bind]
  by_cases hproc : s.kernel.mount.procdir = true
  · rw [if_pos hproc]
    split
    · exact ⟨_, rfl, rfl, rfl⟩
    · exact ⟨n, rfl, rfl, (List.append_nil _).symm⟩
  · have hno : s.kernel.procExists name = false := by simp [Kernel.procExists, hproc]
    rw [if_neg hproc, if_neg (by simp [hno])]
    exact ⟨n, rfl, rfl, (List.append_nil _).symm⟩

/-- Disabling a name that is in procdir, or that is not, in both states. -/
theorem rehearse_actDisableName (htest : env.test = false)
    (hex : s.kernel.procExists name = u.kernel.procExists name)
    (hrun : (actDisableName env name).run u m = ⟨.returned true, m', es⟩) :
    Dropped name u es ∧ m'.formats = m.formats ∧
      ∃ n', (actDisableName (trial env) name).run s n = ⟨.returned true, n', []⟩ ∧
        n'.formats = n.formats ∧ demonstrated n' = demonstrated n ++ performed es u := by
  rcases actDisableName_cases env htest name u m with
    ⟨m₁, drop, hreal, hf₁, hdrop, -⟩ | ⟨m₁, drop, hreal, -⟩
  · rw [hreal] at hrun
    cases hrun
    obtain ⟨n', htrial, hf', hanswers⟩ := run_actDisableName_trial env name s n
    refine ⟨hdrop, hf₁, n', htrial, hf', ?_⟩
    rw [demonstrated_of_answers _ hanswers, performed_dropped hdrop, hex]
    split <;> rfl
  · rw [hreal] at hrun
    cases hrun

end Disable

section Remove
variable {env : Env} {s : Store} {m' : Memory} {es : List Effect}

/-- A removal that works does what it shows. -/
theorem rehearse_actRemove (htest : env.test = false) (name package : Text)
    (hrun : (actRemove env name package).run s Memory.fresh = ⟨.returned true, m', es⟩) :
    demonstrated ((actRemove (trial env) name package).run s Memory.fresh).memory =
      performed es s := by
  have hfile : ∀ m, (removeFormat env name).run s m = ⟨.returned true, m', es⟩ →
      m.answers = [] →
      demonstrated ((removeFormat (trial env) name).run s m).memory = performed es s := by
    intro m hreal hnone
    rcases removeFormat_cases env htest name s m with
      ⟨m₁, es₁, hrem, -⟩ | ⟨m₁, drop, hrem, -⟩ | ⟨m₁, drop, hrem, hdrop⟩
    · rw [hrem] at hreal
      cases hreal
    · rw [hrem] at hreal
      cases hreal
    · rw [hrem] at hreal
      cases hreal
      obtain ⟨n', htrial, -, hanswers⟩ := run_actDisableName_trial env name s m
      have hshow : (removeFile (trial env) name).run s n' =
          ⟨.returned true, { n' with answers := n'.answers ++ [.remove name] }, []⟩ := rfl
      rw [removeFormat, Prog.run_bind_returned htrial, if_pos rfl, replay_nil, hshow,
        performed_append, performed_dropped hdrop]
      change demonstrated { n' with answers := n'.answers ++ [.remove name] } = _
      rw [demonstrated, hanswers, hnone]
      split <;> rfl
  -- up to the check of the packages the two processes are the same
  rw [actRemove, Prog.run_observe_bind] at hrun ⊢
  by_cases hsome : (s.file name).isSome = true
  · rw [if_pos hsome] at hrun ⊢
    have hquiet := leaves_loadFormat env name true s Memory.fresh
    have hsame : loadFormat (trial env) name true = loadFormat env name true := rfl
    rw [hsame]
    rcases loadFormat_cases env name true s Memory.fresh with
      ⟨m₁, hload, -⟩ | ⟨m₁, hload, -⟩
    · rw [hload] at hquiet
      rw [Prog.run_bind_returned hload, Prog.run_recollect_bind] at hrun ⊢
      cases hlook : kvhashLookup m₁.formats name with
      | none =>
        simp only [hlook, replay_nil, Ran.after_nil] at hrun ⊢
        exact hfile m₁ hrun hquiet
      | some old =>
        cases hp : old.package with
        | none =>
          simp only [hlook, hp] at hrun
          cases hrun
        | some oldPackage =>
          simp only [hlook, hp, replay_nil, Ran.after_nil] at hrun ⊢
          split at hrun
          · rename_i heq
            rw [if_pos heq]
            exact hfile m₁ hrun hquiet
          · rename_i hne
            rw [if_neg hne]
            cases hrun
            change m₁.answers.flatMap shows = _
            rw [hquiet]
            rfl
    · rw [Prog.run_bind_exited hload] at hrun
      cases hrun
  · rw [if_neg hsome] at hrun ⊢
    cases hrun
    rfl

end Remove

section Enable
variable {env : Env} {s u : Store} {m m' n : Memory} {name : Text} {c : Binfmt}
  {es : List Effect}

/-- Under --test a name in procdir is not enabled again. -/
theorem run_actEnableName_shown (env : Env) (n : Memory)
    (hex : s.kernel.procExists name = true) :
    ∃ n', (actEnableName (trial env) name).run s n = ⟨.returned true, n', []⟩ ∧
      n'.formats = n.formats ∧ demonstrated n' = demonstrated n := by
  refine ⟨Memory.warned { n with answers := n.answers ++ [.load] } (.alreadyEnabled name), ?_,
    rfl, ?_⟩
  · have hload : (loadBinfmtMisc (trial env)).run s n =
        ⟨.returned true, { n with answers := n.answers ++ [.load] }, []⟩ := rfl
    rw [actEnableName, Prog.run_bind_returned hload, if_pos rfl, Prog.run_observe_bind,
      replay_nil, if_pos hex]
    rfl
  · refine (demonstrated_of_answers (m := n) [.load] rfl).trans ?_
    exact List.append_nil _

/-- Any other name is shown with the line of its visible record. -/
theorem run_actEnableName_trial (hrel : Reliable env) (hintact : Intact s name)
    (hvis : visible s n.formats name = some c) (hcomp : Comparable s n.formats name c)
    {d : Bool} (hd : d = true ↔ NeedsDetector s n.formats name c)
    (hex : s.kernel.procExists name = false) :
    let line := registrationOf name c (chooseInterpreter env c d)
    ∃ n', (actEnableName (trial env) name).run s n = ⟨.returned true, n', []⟩ ∧
      SameView s n.formats n'.formats ∧
      demonstrated n' = demonstrated n ++ [.enable name line.regstring] := by
  intro line
  have hload : (loadBinfmtMisc (trial env)).run s n =
      ⟨.returned true, { n with answers := n.answers ++ [.load] }, []⟩ := rfl
  have hrel' : Reliable (trial env) := hrel
  obtain ⟨n₁, d', hd', hview, hanswers, hformat⟩ := run_enableFormat
    (m := { n with answers := n.answers ++ [.load] }) hrel' hintact hvis hcomp
  have hsame : d' = d := by rw [Bool.eq_iff_iff, hd', hd]
  rw [hsame] at hformat
  refine ⟨{ n₁ with answers := n₁.answers ++ [.enable name line] }, ?_, hview, ?_⟩
  · rw [actEnableName, Prog.run_bind_returned hload, if_pos rfl, Prog.run_observe_bind,
      replay_nil, hex, if_neg Bool.false_ne_true, hformat]
    rfl
  · refine (demonstrated_of_answers (m := n) [.load, .enable name line] ?_).trans rfl
    change n₁.answers ++ [.enable name line] = _
    rw [hanswers, List.append_assoc]
    rfl

theorem Agree.needsDetector (h : Agree u m s n) (name : Text) (c : Binfmt) :
    NeedsDetector s n.formats name c ↔ NeedsDetector u m.formats name c :=
  needsDetector_congr name c h

/-- Enabling a name with a record in both processes. -/
theorem rehearse_actEnableName (htest : env.test = false) (hrel : Reliable env)
    (hagree : Agree u m s n) (hfore : Foreseen env u name)
    (hex : s.kernel.procExists name = u.kernel.procExists name)
    (hintact : Intact u name) (hintact' : Intact s name)
    (hvis : visible u m.formats name = some c) (hcomp : Comparable u m.formats name c)
    (hrun : (actEnableName env name).run u m = ⟨.returned true, m', es⟩) :
    (∃ r, r.name = name ∧ es = (enabling env u name r).2) ∧ SameView u m.formats m'.formats ∧
    ∃ n', (actEnableName (trial env) name).run s n = ⟨.returned true, n', []⟩ ∧
      SameView s n.formats n'.formats ∧
      demonstrated n' = demonstrated n ++ performed es u := by
  classical
  obtain ⟨m₁, hreal, hview⟩ := run_actEnableName_line htest hrel hintact hvis hcomp
    (d := decide (NeedsDetector u m.formats name c)) (by simp)
  rw [hreal] at hrun
  simp only [Ran.mk.injEq, Outcome.returned.injEq] at hrun
  obtain ⟨htrue, rfl, rfl⟩ := hrun
  refine ⟨⟨_, rfl, rfl⟩, hview, ?_⟩
  rw [performed_enabling htest hfore htrue, ← hex]
  cases hshown : s.kernel.procExists name with
  | true =>
    obtain ⟨n', htrial, hf', hsame⟩ := run_actEnableName_shown env n hshown
    refine ⟨n', htrial, fun key => by rw [hf'], ?_⟩
    rw [if_pos rfl, List.append_nil, hsame]
  | false =>
    obtain ⟨n', htrial, hview', hshow⟩ := run_actEnableName_trial hrel hintact'
      ((hagree name).trans hvis) (hcomp.congr (fun key _ => hagree key))
      (d := decide (NeedsDetector u m.formats name c)) (by simp [hagree.needsDetector]) hshown
    exact ⟨n', htrial, hview', hshow⟩

/-- Enabling one name in two processes that have done nothing else. -/
theorem rehearse_enableOne (htest : env.test = false) (hrel : Reliable env)
    (hfore : Foreseen env s name)
    (hrun : (actEnableName env name).run s Memory.fresh = ⟨.returned true, m', es⟩) :
    demonstrated ((actEnableName (trial env) name).run s Memory.fresh).memory =
      performed es s := by
  by_cases hopen : loads env s = true ∧ (replay (setup env s) s).kernel.procExists name = false
  · -- a name that is not in the database makes the real run fail
    obtain ⟨m₁, hf₁, hreal⟩ := run_actEnableName_open (m := Memory.fresh) htest hrel hopen.1
      hopen.2
    have hadm := admindir_replay_of_setup _ s (setup_isSetup htest s)
    obtain ⟨c, hc⟩ : ∃ c, s.record name = some c := by
      rw [hreal] at hrun
      rcases enableFormat_cases env name (replay (setup env s) s) m₁ with
        ⟨o, m₂, hformat, hne, -⟩ | ⟨m₂, c, d, hvis, -⟩
      · rw [hformat] at hrun
        cases hrun
        exact absurd rfl hne
      · refine ⟨c, ?_⟩
        rw [visible_congr hadm, hf₁] at hvis
        exact (visible_empty s name).symm.trans hvis
    have hintact : Intact s name := by
      intro _
      rw [hc]
      rfl
    have hcomp : Comparable s Memory.fresh.formats name c :=
      comparable_of_magic (isSome_magic_of_record hc) (magic_of_view (visible_empty s))
    obtain ⟨-, -, n', htrial, -, hshow⟩ := rehearse_actEnableName (n := Memory.fresh) htest hrel
      (fun _ => rfl) hfore rfl hintact hintact ((visible_empty s name).trans hc) hcomp hrun
    rw [htrial]
    exact hshow
  · have hex : s.kernel.procExists name = true := by
      by_contra hno
      rw [Bool.not_eq_true] at hno
      exact hopen ⟨hfore.2 hno, hfore.1.trans hno⟩
    obtain ⟨m₁, hreal, -⟩ := run_actEnableName_idle (m := Memory.fresh) htest hrel hopen
    obtain ⟨n', htrial, -, hshow⟩ := run_actEnableName_shown env Memory.fresh hex
    rw [hreal] at hrun
    cases hrun
    rw [htrial, performed_setup (setup_isSetup htest s)]
    exact hshow

end Enable

section Install
variable {env : Env} {s u : Store} {m m' n : Memory} {name : Text} {b c : Binfmt}
  {es : List Effect}

theorem procExists_of_noEntry {k : Kernel} (hdir : isDirectoryName name = false)
    (hctl : isControlName name = false) (hentry : k.hasEntry name = false) :
    k.procExists name = false := by
  simp [Kernel.procExists, hdir, hctl, hentry]

/-- Loading the module shows no entry where there is none. -/
theorem foreseen_of_noEntry (htest : env.test = false) (hdir : isDirectoryName name = false)
    (hctl : isControlName name = false) (hentry : u.kernel.hasEntry name = false)
    (hloads : loads env u = true) : Foreseen env u name := by
  refine ⟨?_, fun _ => hloads⟩
  rw [procExists_of_noEntry hdir hctl hentry]
  refine procExists_of_noEntry hdir hctl ?_
  rw [Kernel.hasEntry, entries_replay_of_setup _ u (setup_isSetup htest u)]
  exact hentry

theorem visible_withoutTmp (htmp : u.file (tmpName name) = none) (t : Table Text Binfmt)
    (key : Text) : visible (withoutTmp u name) t key = visible u t key := by
  rw [visible, visible]
  congr 1
  apply record_congr
  rw [file_withoutTmp]
  split
  · rename_i hkey
    rw [hkey, htmp]
  · rfl

/-- What the rehearsing process knows once it has put the record into its table. -/
theorem visible_inserted (s : Store) (t : Table Text Binfmt) (b : Binfmt) (key : Text) :
    visible s (kvhashInsert (remembered t name (s.record name)) name b) key =
      if key = name then some ((visible s t name).getD b) else visible s t key := by
  split
  · subst key
    rw [visible, kvhashLookup_insert, lookup_remembered, if_pos rfl, Option.some_or, visible]
  · rename_i hne
    rw [visible, visible, kvhashLookup_insert_ne hne, lookup_remembered, if_neg hne,
      Option.or_none]

/-- Under --test the record is shown, and then its line. -/
theorem run_actInstall_trial (hrel : Reliable env) (hdir : isDirectoryName name = false)
    (hctl : isControlName name = false) (hentry : s.kernel.hasEntry name = false)
    (hintact : Intact s name) (howner : ∀ old, visible s n.formats name = some old →
      old.package = b.package ∧ b.package.isSome = true)
    (hc : (visible s n.formats name).getD b = c) (hcomp : Comparable s n.formats name c)
    {d : Bool} (hd : d = true ↔ NeedsDetector s n.formats name c) :
    let line := registrationOf name c (chooseInterpreter env c d)
    ∃ n', (actInstall (trial env) name (some b)).run s n = ⟨.returned true, n', []⟩ ∧
      demonstrated n' =
        demonstrated n ++ [.install b.contents, .enable name line.regstring] ∧
      ∀ key, visible s n'.formats key = if key = name then some c else visible s n.formats key := by
  intro line
  have hhidden := procExists_of_noEntry hdir hctl hentry
  have hrel' : Reliable (trial env) := hrel
  obtain ⟨n₁, hf₁, ha₁, hchecked⟩ := run_actInstall_checked hrel' howner
  have hmanual : ∀ k, (installUnlessManual (trial env) name (some b)).run s k =
      (installFile (trial env) name (some b)).run s k := by
    intro k
    rw [installUnlessManual, Prog.run_observe_bind, if_neg (by simp [hhidden])]
  have hreplace : ∃ n₂, n₂.formats = n₁.formats ∧ n₂.answers = n₁.answers ∧
      (replaceFormat (trial env) name (some b)).run s n₁ =
        (installFile (trial env) name (some b)).run s n₂ := by
    rw [replaceFormat, Prog.run_observe_bind]
    split
    · obtain ⟨n₂, hdisable, hf₂, ha₂⟩ := run_actDisableName_trial env name s n₁
      rw [if_neg (by simp [hhidden]), List.append_nil] at ha₂
      refine ⟨n₂, hf₂, ha₂, ?_⟩
      rw [Prog.run_bind_returned hdisable, if_pos rfl, replay_nil, hmanual]
      rfl
    · exact ⟨n₁, rfl, rfl, hmanual n₁⟩
  obtain ⟨n₂, hf₂, ha₂, hfile⟩ := hreplace
  let n₃ : Memory := { n₂ with
    answers := n₂.answers ++ [.install b]
    formats := kvhashInsert n₂.formats name b }
  have hview : ∀ key, visible s n₃.formats key =
      if key = name then some c else visible s n.formats key := by
    intro key
    change visible s (kvhashInsert n₂.formats name b) key = _
    rw [hf₂, hf₁, visible_inserted, hc]
  have hothers : ∀ key, key ≠ name → visible s n₃.formats key = visible s n.formats key :=
    fun key hne => (hview key).trans (if_neg hne)
  obtain ⟨n₄, henable, hview', hshow⟩ := run_actEnableName_trial (n := n₃) hrel hintact
    ((hview name).trans (if_pos rfl)) (hcomp.congr hothers)
    (hd.trans (needsDetector_congr_others hothers).symm) hhidden
  refine ⟨n₄, ?_, ?_, ?_⟩
  · have hinstalled : (enableInstalled (trial env) name b).run s
        { n₂ with answers := n₂.answers ++ [.install b] } = ⟨.returned true, n₄, []⟩ := by
      rw [enableInstalled, Prog.run_remember_bind, Prog.run_bind_returned henable, if_pos rfl]
      rfl
    rw [hchecked, hfile]
    exact hinstalled
  · rw [hshow, demonstrated, demonstrated]
    change (n₂.answers ++ [Answer.install b]).flatMap shows ++ _ = _
    rw [ha₂, ha₁, List.flatMap_append, List.append_assoc]
    rfl
  · intro key
    rw [hview', hview]

/-- The real installation, where the kernel has no entry of the name and no temporary file is
in the way. -/
theorem run_actInstall_vacant (htest : env.test = false) (hrel : Reliable env)
    (hdir : isDirectoryName name = false) (hctl : isControlName name = false)
    (hentry : u.kernel.hasEntry name = false) (htmp : u.file (tmpName name) = none)
    (hb : (binfmtLoad b.contents).toOption.isSome = true)
    (howner : ∀ old, visible u m.formats name = some old →
      old.package = b.package ∧ b.package.isSome = true)
    (hc : (visible u m.formats name).getD b = c) (hcomp : Comparable u m.formats name c) :
    ∃ m' d, (d = true ↔ NeedsDetector u m.formats name c) ∧
      let enabled := enabling env (replay (placing u name b) u) name
        (registrationOf name c (chooseInterpreter env c d))
      (actInstall env name (some b)).run u m =
        ⟨.returned enabled.1, m', placing u name b ++ enabled.2⟩ ∧
      ∀ key, visible (replay (placing u name b ++ enabled.2) u) m'.formats key =
        if key = name then some c else visible u m.formats key := by
  classical
  have hhidden := procExists_of_noEntry hdir hctl hentry
  have hwithout : ∀ key, visible (withoutTmp u name) m.formats key = visible u m.formats key :=
    visible_withoutTmp htmp m.formats
  obtain ⟨d, hd⟩ : ∃ d : Bool, d = true ↔ NeedsDetector u m.formats name c :=
    ⟨decide (NeedsDetector u m.formats name c), by simp⟩
  obtain ⟨m', hreal, hview⟩ := run_actInstall_line htest hrel hdir hctl hb howner
    (fun h => by rw [h.2] at hhidden; cases hhidden) hc
    (hcomp.congr (fun key _ => hwithout key))
    (hd.trans (needsDetector_congr name c hwithout).symm)
  refine ⟨m', d, hd, hreal, fun key => ?_⟩
  rw [replay_append, hview, hwithout]

theorem kernel_replay_placing (hhidden : u.kernel.procExists name = false) :
    placing u name b = moving u name b ∧ (replay (placing u name b) u).kernel = u.kernel := by
  have hplace : placing u name b = moving u name b := by
    rw [placing, dropping, if_neg (by simp [hhidden]), List.nil_append]
  refine ⟨hplace, ?_⟩
  rw [hplace]
  exact kernel_replay_of_files _ u (fun e he => files_of_mem_moving he)

/-- An installation in both processes. -/
theorem rehearse_actInstall (htest : env.test = false) (hrel : Reliable env)
    (hdir : isDirectoryName name = false) (hctl : isControlName name = false)
    (hagree : Agree u m s n) (hentry : u.kernel.hasEntry name = false)
    (hentry' : s.kernel.hasEntry name = false) (hloads : loads env u = true)
    (hintact : Intact s name) (htmp : u.file (tmpName name) = none)
    (hb : (binfmtLoad b.contents).toOption.isSome = true)
    (howner : ∀ old, visible u m.formats name = some old →
      old.package = b.package ∧ b.package.isSome = true)
    (hc : (visible u m.formats name).getD b = c) (hcomp : Comparable u m.formats name c)
    (hrun : (actInstall env name (some b)).run u m = ⟨.returned true, m', es⟩) :
    (∃ r, r.name = name ∧
      es = placing u name b ++ (enabling env (replay (placing u name b) u) name r).2) ∧
    (∀ key, visible (replay es u) m'.formats key =
      if key = name then some c else visible u m.formats key) ∧
    ∃ n', (actInstall (trial env) name (some b)).run s n = ⟨.returned true, n', []⟩ ∧
      demonstrated n' = demonstrated n ++ performed es u ∧
      ∀ key, visible s n'.formats key = if key = name then some c else visible s n.formats key := by
  have hhidden := procExists_of_noEntry hdir hctl hentry
  obtain ⟨m₁, d, hd, hreal, hview⟩ :=
    run_actInstall_vacant htest hrel hdir hctl hentry htmp hb howner hc hcomp
  rw [hreal] at hrun
  simp only [Ran.mk.injEq, Outcome.returned.injEq] at hrun
  obtain ⟨htrue, rfl, rfl⟩ := hrun
  obtain ⟨hplace, hkernel⟩ := kernel_replay_placing (b := b) hhidden
  have hfore : Foreseen env (replay (placing u name b) u) name :=
    foreseen_of_noEntry htest hdir hctl (by rw [hkernel]; exact hentry)
      ((loads_congr hkernel).trans hloads)
  refine ⟨⟨_, rfl, rfl⟩, hview, ?_⟩
  obtain ⟨n', htrial, hshow, hview'⟩ := run_actInstall_trial hrel hdir hctl hentry' hintact
    (fun old hold => howner old ((hagree name).symm.trans hold))
    (by rw [hagree name]; exact hc) (hcomp.congr (fun key _ => hagree key))
    (hd.trans (hagree.needsDetector name c).symm)
  have hplaced : performed (placing u name b) u = [.install b.contents] := by
    rw [hplace]
    exact performed_moving b htmp
  refine ⟨n', htrial, ?_, hview'⟩
  rw [hshow, performed_append, hplaced, performed_enabling htest hfore htrue, hkernel, hhidden]
  rfl

end Install
end BinfmtSupport.Rehearsal
