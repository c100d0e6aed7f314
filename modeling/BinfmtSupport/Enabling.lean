import BinfmtSupport.Loading

/-!
What act_enable does for one name. It first makes the module available, which touches
no entry and no file; then it either leaves the kernel alone or registers one line,
which is built from the visible record of the name.
-/
namespace BinfmtSupport.Enabling

open CText Kvhash Format Regstring Journal Stores Actions Loading

def Mountable (mount : Mount) : Prop :=
  mount.procdir = true ∧ (mount.register = true ∨ filesystemStyle mount = true)

theorem mountable_of_hasRegister {k : Kernel} (h : k.hasRegister = true) :
    Mountable k.mount := by
  simp only [Kernel.hasRegister, Bool.and_eq_true] at h
  exact ⟨h.1, Or.inl h.2⟩

section Module
variable (env : Env)

theorem run_loadModule (s : Store) (m : Memory) : (loadModule env).run s m =
    if (!filesystemStyle s.kernel.mount && !s.kernel.hasRegister) = true then
      if env.ok m.clock = true then
        ⟨.returned true, m.tick, [.modprobe (env.modprobed s.kernel.mount)]⟩
      else ⟨.returned false, m.tick.warned .couldntLoadModule, []⟩
    else ⟨.returned true, m, []⟩ := by
  rw [loadModule, Prog.run_observe_bind]
  split
  · rw [run_succeeds_bind]
    split <;> rfl
  · rfl

theorem run_mountFilesystem (s : Store) (m : Memory) : (mountFilesystem env).run s m =
    if (filesystemStyle s.kernel.mount && !s.kernel.hasRegister) = true then
      if env.ok m.clock = true then ⟨.returned true, m.tick, [.mount]⟩
      else ⟨.returned false, m.tick.warned .couldntMount, []⟩
    else ⟨.returned true, m, []⟩ := by
  rw [mountFilesystem, Prog.run_observe_bind]
  split
  · rw [run_succeeds_bind]
    split <;> rfl
  · rfl

theorem run_switchOn (s : Store) (m : Memory) : (switchOn env).run s m =
    if s.kernel.hasRegister = true then
      if env.ok m.clock = true then ⟨.returned true, m.tick, [.status true]⟩
      else ⟨.returned true, m.tick.warned (.unableToOpenForWriting (text "status")), []⟩
    else ⟨.returned false, m.warned .registerMissing, []⟩ := by
  rw [switchOn, Prog.run_observe_bind]
  split
  · rw [run_succeeds_bind]
    split <;> rfl
  · rfl

theorem loadModule_cases (s : Store) (m : Memory) : ∃ r m' es,
    (loadModule env).run s m = ⟨.returned r, m', es⟩ ∧ m'.formats = m.formats ∧
      (∀ e ∈ es, e.isSetup = true) ∧ (Mountable s.kernel.mount → r = true ∧ es = []) := by
  rw [run_loadModule]
  split
  · rename_i hneed
    have hnot : ¬ Mountable s.kernel.mount := by
      simp only [Bool.and_eq_true, Bool.not_eq_true', Kernel.hasRegister] at hneed
      rintro ⟨hproc, hreg | hfs⟩
      · simp [hproc, hreg] at hneed
      · simp [hfs] at hneed
    split
    · exact ⟨_, _, _, rfl, rfl, by simp [Effect.isSetup], fun h => absurd h hnot⟩
    · exact ⟨_, _, _, rfl, rfl, by simp, fun h => absurd h hnot⟩
  · exact ⟨_, _, _, rfl, rfl, by simp, fun _ => ⟨rfl, rfl⟩⟩

theorem mountFilesystem_cases (s : Store) (m : Memory) : ∃ r m' es,
    (mountFilesystem env).run s m = ⟨.returned r, m', es⟩ ∧ m'.formats = m.formats ∧
      (∀ e ∈ es, e.isSetup = true) ∧
      (Reliable env → Mountable s.kernel.mount →
        r = true ∧ (replay es s).kernel.hasRegister = true) := by
  rw [run_mountFilesystem]
  split
  · split
    · refine ⟨_, _, _, rfl, rfl, by simp [Effect.isSetup], ?_⟩
      intro _ hmount
      refine ⟨rfl, ?_⟩
      simp [Kernel.hasRegister, Effect.apply, hmount.1]
    · rename_i hok
      exact ⟨_, _, _, rfl, rfl, by simp, fun hrel => absurd (ok_of_reliable hrel _) hok⟩
  · rename_i hidle
    refine ⟨_, _, _, rfl, rfl, by simp, ?_⟩
    rintro _ ⟨hproc, hreg | hfs⟩
    · exact ⟨rfl, by simp [Kernel.hasRegister, hproc, hreg]⟩
    · refine ⟨rfl, ?_⟩
      simpa [hfs] using hidle

theorem switchOn_cases (s : Store) (m : Memory) : ∃ m' es,
    (switchOn env).run s m = ⟨.returned s.kernel.hasRegister, m', es⟩ ∧
      m'.formats = m.formats ∧ (∀ e ∈ es, e.isSetup = true) ∧
      (replay es s).kernel.hasRegister = s.kernel.hasRegister := by
  rw [run_switchOn]
  split
  · rename_i hreg
    rw [hreg]
    split
    · exact ⟨_, _, rfl, rfl, by simp [Effect.isSetup], hreg⟩
    · exact ⟨_, _, rfl, rfl, by simp, hreg⟩
  · rename_i hreg
    rw [Bool.not_eq_true] at hreg
    rw [hreg]
    exact ⟨_, _, rfl, rfl, by simp, hreg⟩

/-- Loading the module always returns. When it worked the register file is there, and
it works whenever the filesystem can be mounted. -/
theorem loadBinfmtMisc_cases (htest : env.test = false) (s : Store) (m : Memory) :
    ∃ r m' es, (loadBinfmtMisc env).run s m = ⟨.returned r, m', es⟩ ∧
      m'.formats = m.formats ∧ (∀ e ∈ es, e.isSetup = true) ∧
      (r = true → (replay es s).kernel.hasRegister = true) ∧
      (Reliable env → Mountable s.kernel.mount → r = true) := by
  obtain ⟨loaded, m₁, es₁, hmod, hf₁, hset₁, hidle⟩ := loadModule_cases env s m
  have hrun : (loadBinfmtMisc env).run s m = ((if loaded = true then do
        let s ← Prog.observe
        if s.kernel.mount.procdir then
          if ← mountFilesystem env then switchOn env else return false
        else
          warn .noProcdir
          return false
      else pure false : Act Bool).run (replay es₁ s) m₁).after es₁ := by
    simp only [loadBinfmtMisc, htest, Bool.false_eq_true, if_false]
    exact Prog.run_bind_returned hmod _
  cases loaded with
  | false =>
    refine ⟨false, m₁, es₁, ?_, hf₁, hset₁, by simp, ?_⟩
    · rw [hrun]
      simp
    · intro _ hmount
      exact (hidle hmount).1
  | true =>
    by_cases hproc : (replay es₁ s).kernel.mount.procdir = true
    · obtain ⟨mounted, m₂, es₂, hfs, hf₂, hset₂, hgood⟩ :=
        mountFilesystem_cases env (replay es₁ s) m₁
      cases mounted with
      | false =>
        refine ⟨false, m₂, es₁ ++ es₂, ?_, hf₂.trans hf₁, ?_, by simp, ?_⟩
        · rw [hrun]
          simp only [if_true, Prog.run_observe_bind, hproc, Prog.run_bind_returned hfs]
          simp
        · intro e he
          rcases List.mem_append.mp he with he | he
          · exact hset₁ e he
          · exact hset₂ e he
        · intro hrel hmount
          obtain ⟨-, rfl⟩ := hidle hmount
          exact (hgood hrel hmount).1
      | true =>
        obtain ⟨m₃, es₃, hon, hf₃, hset₃, hkeep⟩ :=
          switchOn_cases env (replay es₂ (replay es₁ s)) m₂
        refine ⟨(replay es₂ (replay es₁ s)).kernel.hasRegister, m₃, es₁ ++ (es₂ ++ es₃), ?_,
          (hf₃.trans hf₂).trans hf₁, ?_, ?_, ?_⟩
        · rw [hrun]
          simp only [if_true, Prog.run_observe_bind, hproc, Prog.run_bind_returned hfs, hon]
          simp
        · intro e he
          simp only [List.mem_append] at he
          rcases he with he | he | he
          · exact hset₁ e he
          · exact hset₂ e he
          · exact hset₃ e he
        · intro hr
          rw [replay_append, replay_append, hkeep]
          exact hr
        · intro hrel hmount
          obtain ⟨-, rfl⟩ := hidle hmount
          exact (hgood hrel hmount).2
    · refine ⟨false, m₁.warned .noProcdir, es₁, ?_, ?_, hset₁, by simp, ?_⟩
      · rw [hrun]
        rw [if_pos rfl, Prog.run_observe_bind, if_neg hproc, run_warn_bind, Prog.run_pure,
          Ran.after_mk, List.append_nil]
      · exact hf₁
      · intro _ hmount
        obtain ⟨-, rfl⟩ := hidle hmount
        exact absurd hmount.1 hproc

end Module

section Register
variable (env : Env)

theorem run_writeRegister (r : Registration) (s : Store) (m : Memory) :
    (writeRegister env r).run s m =
      match env.faults m.clock, accepted env s.kernel r with
      | .none, some e => ⟨.returned true, m.tick, [.register r e]⟩
      | _, _ => ⟨.returned false, m.tick, []⟩ := by
  rw [writeRegister, run_nextFault_bind]
  cases env.faults m.clock with
  | none =>
    simp only [Prog.run_observe_bind]
    cases accepted env s.kernel r <;> rfl
  | error written => rfl
  | ignored => rfl

/-- An accepted line makes the entry that it decodes to, under a free name. -/
theorem entry_of_accepted {k : Kernel} {r : Registration} {e : Entry}
    (h : accepted env k r = some e) : entryOf (decodeLine r.regstring) = some e ∧
      k.procExists e.name = false ∧ env.accepts e = true := by
  unfold accepted at h
  split at h
  · rename_i entry hentry
    split at h
    · rename_i hfree
      cases h
      simp only [Bool.and_eq_true, Bool.not_eq_true'] at hfree
      exact ⟨hentry, hfree⟩
    · cases h
  · cases h

/-- The register file is opened, and then the line is written and judged as a whole. -/
theorem run_register (htest : env.test = false) (name : Text) (r : Registration) (s : Store)
    (m : Memory) : (Actions.register env name r).run s m =
      if env.ok m.clock = true then
        match env.faults (m.clock + 1), accepted env s.kernel r with
        | .none, some e => ⟨.returned true, m.tick.tick, [.register r e]⟩
        | _, _ => ⟨.returned false, m.tick.tick.warned (.unableToClose (text "register")), []⟩
      else ⟨.returned false, m.tick.warned (.unableToOpenForWriting (text "register")), []⟩ := by
  have hopen : (Actions.register env name r).run s m = if env.ok m.clock = true then
        ((writeRegister env r >>= fun written => if written = true then pure true else do
          warn (.unableToClose (text "register"))
          return false) : Act Bool).run s m.tick
      else ⟨.returned false, m.tick.warned (.unableToOpenForWriting (text "register")), []⟩ := by
    simp only [Actions.register, htest, Bool.false_eq_true, if_false, run_succeeds_bind]
    split <;> rfl
  rw [hopen]
  split
  · have hwrite := run_writeRegister env r s m.tick
    have hclock : m.tick.clock = m.clock + 1 := rfl
    rw [hclock] at hwrite
    cases hfault : env.faults (m.clock + 1) with
    | none =>
      cases hacc : accepted env s.kernel r with
      | none =>
        rw [hfault, hacc] at hwrite
        rw [Prog.run_bind_returned hwrite]
        rfl
      | some e =>
        rw [hfault, hacc] at hwrite
        rw [Prog.run_bind_returned hwrite]
        rfl
    | error written | ignored =>
      rw [hfault] at hwrite
      rw [Prog.run_bind_returned hwrite]
      rfl
  · rfl

/-- The kernel takes the whole line or nothing. -/
theorem register_cases (htest : env.test = false) (name : Text) (r : Registration) (s : Store)
    (m : Memory) :
    (∃ m' e, (Actions.register env name r).run s m = ⟨.returned true, m', [.register r e]⟩ ∧
      m'.formats = m.formats ∧ accepted env s.kernel r = some e) ∨
    (∃ m', (Actions.register env name r).run s m = ⟨.returned false, m', []⟩ ∧
      m'.formats = m.formats) := by
  rw [run_register env htest]
  split
  · split
    · rename_i e _ hacc
      exact Or.inl ⟨_, e, rfl, rfl, hacc⟩
    · exact Or.inr ⟨_, rfl, rfl⟩
  · exact Or.inr ⟨_, rfl, rfl⟩

theorem needsDetector_congr {s u : Store} {t t' : Table Text Binfmt} (name : Text) (b : Binfmt)
    (h : ∀ key, visible u t' key = visible s t key) :
    NeedsDetector u t' name b ↔ NeedsDetector s t name b := by
  simp only [NeedsDetector, Shared, h]

/-- Enabling a format stops before a line is built, or hands over the line that is
built from the visible record of the name. -/
theorem enableFormat_cases (name : Text) (s : Store) (m : Memory) :
    (∃ o m', (enableFormat env name).run s m = ⟨o, m', []⟩ ∧ o ≠ .returned true ∧
      ((∃ r, o = .returned r) → SameView s m.formats m'.formats)) ∨
    (∃ m' b d, visible s m.formats name = some b ∧
      (d = true ↔ NeedsDetector s m.formats name b) ∧ SameView s m.formats m'.formats ∧
      (enableFormat env name).run s m = (Actions.register env name
        (registrationOf name b (chooseInterpreter env b d))).run s m') := by
  rcases loadFormat_cases env name false s m with ⟨m₁, hload, hf₁, -⟩ | ⟨m₁, hload, -⟩
  · have hlook : kvhashLookup m₁.formats name = visible s m.formats name := by
      rw [hf₁, lookup_remembered_self]
    have hview₁ : SameView s m.formats m₁.formats := by
      rw [hf₁]
      exact sameView_remembered s m.formats name
    cases hv : visible s m.formats name with
    | none =>
      left
      rw [hv] at hlook
      cases htest : env.test with
      | true =>
        refine ⟨.crashed, m₁, ?_, by simp⟩
        rw [enableFormat, Prog.run_bind_returned hload, Prog.run_recollect_bind]
        simp only [hlook, if_pos htest]
        rfl
      | false =>
        refine ⟨.returned false, m₁.warned (.notInDatabase name), ?_, by simp, fun _ => hview₁⟩
        rw [enableFormat, Prog.run_bind_returned hload, Prog.run_recollect_bind]
        simp only [hlook, htest]
        rfl
    | some b =>
      rw [hv] at hlook
      have hstep : (enableFormat env name).run s m = (needDetector env name b >>= fun detector =>
          Actions.register env name
            (registrationOf name b (chooseInterpreter env b detector))).run s m₁ := by
        rw [enableFormat, Prog.run_bind_returned hload, Prog.run_recollect_bind]
        simp only [hlook]
        rfl
      rcases needDetector_cases env name b s m₁ with
        ⟨d, m₂, hneed, hd, hview₂⟩ | ⟨m₂, hneed, -⟩ | ⟨m₂, hneed, -⟩
      · right
        refine ⟨m₂, b, d, rfl, hd.trans (needsDetector_congr name b hview₁), ?_, ?_⟩
        · intro key
          rw [hview₂, hview₁]
        · rw [hstep, Prog.run_bind_returned hneed]
          rfl
      · left
        exact ⟨.exited 2, m₂, by rw [hstep, Prog.run_bind_exited hneed], by simp⟩
      · left
        exact ⟨.crashed, m₂, by rw [hstep, Prog.run_bind_crashed hneed], by simp⟩
  · left
    refine ⟨.exited 2, m₁, ?_, by simp⟩
    rw [enableFormat, Prog.run_bind_exited hload]

end Register

section Name
variable (env : Env)

/-- How act_enable ends for one name: it leaves the entries alone because the module is
missing or the name is in procdir, or it gives up before the line is accepted, or it
registers the line of the visible record. -/
theorem actEnableName_cases (htest : env.test = false) (name : Text) (s : Store) (m : Memory) :
    (∃ m' es, (actEnableName env name).run s m = ⟨.returned true, m', es⟩ ∧
      (∀ e ∈ es, e.isSetup = true) ∧ m'.formats = m.formats ∧
      ((replay es s).kernel.procExists name = true ∨
        (Reliable env → ¬ Mountable s.kernel.mount)) ∧
      (Reliable env → Mountable s.kernel.mount → (replay es s).kernel.hasRegister = true)) ∨
    (∃ o m' es, (actEnableName env name).run s m = ⟨o, m', es⟩ ∧ o ≠ .returned true ∧
      (∀ e ∈ es, e.isSetup = true) ∧ (replay es s).kernel.hasRegister = true ∧
      (replay es s).kernel.procExists name = false ∧
      ((∃ r, o = .returned r) → SameView s m.formats m'.formats)) ∨
    (∃ m' es b d r e, (actEnableName env name).run s m =
        ⟨.returned true, m', es ++ [.register r e]⟩ ∧
      (∀ e ∈ es, e.isSetup = true) ∧ (replay es s).kernel.hasRegister = true ∧
      (replay es s).kernel.procExists name = false ∧ SameView s m.formats m'.formats ∧
      visible s m.formats name = some b ∧ (d = true ↔ NeedsDetector s m.formats name b) ∧
      r = registrationOf name b (chooseInterpreter env b d) ∧
      accepted env (replay es s).kernel r = some e) := by
  obtain ⟨loaded, m₁, es, hload, hf₁, hset, hreg, hmount⟩ := loadBinfmtMisc_cases env htest s m
  have hadm := admindir_replay_of_setup es s hset
  cases loaded with
  | false =>
    left
    refine ⟨m₁, es, ?_, hset, hf₁, Or.inr (fun hrel hm => ?_), fun hrel hm => ?_⟩
    · rw [actEnableName, Prog.run_bind_returned hload]
      simp
    · cases hmount hrel hm
    · cases hmount hrel hm
  | true =>
    by_cases hex : (replay es s).kernel.procExists name = true
    · left
      refine ⟨m₁.warned (.alreadyEnabled name), es, ?_, hset, hf₁, Or.inl hex, fun _ _ => hreg rfl⟩
      rw [actEnableName, Prog.run_bind_returned hload, if_pos rfl, Prog.run_observe_bind,
        if_pos hex, run_warn_bind, Prog.run_pure, Ran.after_mk, List.append_nil]
    · have hstep : (actEnableName env name).run s m =
          ((enableFormat env name).run (replay es s) m₁).after es := by
        rw [actEnableName, Prog.run_bind_returned hload, if_pos rfl, Prog.run_observe_bind,
          if_neg hex]
      have hvis : ∀ key, visible (replay es s) m₁.formats key = visible s m.formats key := by
        intro key
        rw [hf₁]
        exact visible_congr hadm m.formats key
      have hview : ∀ {m₂ : Memory}, SameView (replay es s) m₁.formats m₂.formats →
          SameView s m.formats m₂.formats := by
        intro m₂ hsame key
        rw [← visible_congr hadm m₂.formats key, hsame key, hvis key]
      rw [Bool.not_eq_true] at hex
      right
      rcases enableFormat_cases env name (replay es s) m₁ with
        ⟨o, m₂, hrun, hne, hsame⟩ | ⟨m₂, b, d, hb, hd, hsame, hrun⟩
      · left
        refine ⟨o, m₂, es, ?_, hne, hset, hreg rfl, hex, ?_⟩
        · rw [hstep, hrun, Ran.after_mk, List.append_nil]
        · intro hret
          exact hview (hsame hret)
      · rcases register_cases env htest name _ (replay es s) m₂ with
          ⟨m₃, e, hline, hf₃, hacc⟩ | ⟨m₃, hline, hf₃⟩
        · right
          refine ⟨m₃, es, b, d, _, e, ?_, hset, hreg rfl, hex, ?_, ?_, ?_, rfl, hacc⟩
          · rw [hstep, hrun, hline, Ran.after_mk]
          · rw [hf₃]
            exact hview hsame
          · rw [← hvis name]
            exact hb
          · exact hd.trans (needsDetector_congr name b hvis)
        · left
          refine ⟨.returned false, m₃, es, ?_, by simp, hset, hreg rfl, hex, fun _ => ?_⟩
          · rw [hstep, hrun, hline, Ran.after_mk, List.append_nil]
          · rw [hf₃]
            exact hview hsame

/-- Enabling touches no file, however it ends. -/
theorem files_of_actEnableName (htest : env.test = false) (name : Text) (s : Store)
    (m : Memory) : ∀ e ∈ ((actEnableName env name).run s m).effects, e.files = [] := by
  rcases actEnableName_cases env htest name s m with
    ⟨m', es, hrun, hset, -⟩ | ⟨o, m', es, hrun, -, hset, -⟩ |
    ⟨m', es, b, d, r, x, hrun, hset, -⟩
  · rw [hrun]
    exact fun e he => files_of_isSetup e (hset e he)
  · rw [hrun]
    exact fun e he => files_of_isSetup e (hset e he)
  · rw [hrun]
    intro e he
    rcases List.mem_append.mp he with he | he
    · exact files_of_isSetup e (hset e he)
    · rw [List.mem_singleton.mp he]
      rfl

/-- Under --test enabling only shows what it would register. -/
theorem silent_actEnableName_test (htest : env.test = true) (name : Text) :
    Prog.Silent (actEnableName env name) := by
  have hload : Prog.Silent (loadBinfmtMisc env) := by
    rw [loadBinfmtMisc, if_pos htest]
    exact (silent_answer _).bind (fun _ => Prog.silent_pure _)
  have hregister : ∀ r, Prog.Silent (Actions.register env name r) := by
    intro r
    rw [Actions.register, if_pos htest]
    exact (silent_answer _).bind (fun _ => Prog.silent_pure _)
  have hformat : Prog.Silent (enableFormat env name) := by
    intro s m
    rcases enableFormat_cases env name s m with ⟨o, m', hrun, -⟩ | ⟨m', b, d, -, -, -, hrun⟩
    · rw [hrun]
    · rw [hrun]
      exact hregister _ s m'
  refine hload.bind (fun loaded => ?_)
  split
  · refine Prog.silent_observe.bind (fun s => ?_)
    split
    · exact (silent_warn _).bind (fun _ => Prog.silent_pure _)
    · exact hformat
  · exact Prog.silent_pure _

end Name
end BinfmtSupport.Enabling
