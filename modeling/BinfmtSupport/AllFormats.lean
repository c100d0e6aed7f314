import BinfmtSupport.Installing

/-!
Actions that go through the whole table of formats, and actions that only show what they
would do. Without a name act_disable reads the database first, drops the entries whose
names it found there, one after the other, and unmounts last.
-/
namespace BinfmtSupport.AllFormats

open CText Kvhash Format Regstring Journal Stores Actions Loading Enabling Installing

section Entries

theorem hasEntry_eq_false_iff (k : Kernel) (name : Text) :
    k.hasEntry name = false ↔ ∀ e ∈ k.entries, e.name ≠ name := by
  simp [Kernel.hasEntry]

/-- What --install refuses is all that procdir has of its own. -/
theorem plain_of_unreserved {name : Text} (hne : name ≠ []) (hres : isReserved name = false) :
    isDirectoryName name = false ∧ isControlName name = false := by
  simp only [isReserved, Bool.or_eq_false_iff, decide_eq_false_iff_not] at hres
  simp [isDirectoryName, isControlName, hne, hres.1.1.1, hres.1.1.2, hres.1.2, hres.2]

/-- Only the control files and the directory itself are in procdir without being entries. -/
theorem procExists_eq_hasEntry {k : Kernel} {name : Text} (hreg : k.hasRegister = true)
    (hdir : isDirectoryName name = false) (hctl : isControlName name = false) :
    k.procExists name = k.hasEntry name := by
  simp only [Kernel.hasRegister, Bool.and_eq_true] at hreg
  simp [Kernel.procExists, hreg.1, hreg.2, hdir, hctl]

theorem hasRegister_congr {k k' : Kernel} (h : k'.mount = k.mount) :
    k'.hasRegister = k.hasRegister := by
  simp only [Kernel.hasRegister, h]

theorem hasEntry_replay_of_loss {es : List Effect} {s : Store} {name : Text}
    (hloss : ∀ e ∈ es, e.isLoss = true) (h : s.kernel.hasEntry name = false) :
    (replay es s).kernel.hasEntry name = false := by
  rw [hasEntry_eq_false_iff] at h ⊢
  intro e he
  exact h e ((entries_replay_of_loss es s hloss).subset he)

end Entries

section Test
variable (env : Env)

theorem silent_actDisableName_test (htest : env.test = true) (name : Text) :
    Prog.Silent (actDisableName env name) := by
  intro s m
  obtain ⟨m', hrun⟩ := run_actDisableName_test env htest name s m
  rw [hrun]

theorem silent_actEnable_test (htest : env.test = true) (name : Option Text) :
    Prog.Silent (actEnable env name) := by
  have heach : ∀ names, Prog.Silent (enableEach env names) := by
    intro names
    induction names with
    | nil => exact Prog.silent_pure _
    | cons name rest ih =>
      refine Prog.silent_observe.bind (fun s => ?_)
      split
      · exact ih
      · refine (silent_actEnableName_test env htest name).bind (fun worked => ?_)
        exact ih.bind (fun others => Prog.silent_pure _)
  have hload : Prog.Silent (loadBinfmtMisc env) := by
    rw [loadBinfmtMisc, if_pos htest]
    exact (silent_answer _).bind (fun _ => Prog.silent_pure _)
  cases name with
  | some name => exact silent_actEnableName_test env htest name
  | none =>
    refine hload.bind (fun loaded => ?_)
    split
    · refine (silent_loadAllFormats env false).bind (fun _ => ?_)
      exact Prog.silent_recollect.bind (fun m => heach (env.walk m.formats))
    · exact Prog.silent_pure _

theorem silent_actDisable_test (htest : env.test = true) (name : Option Text) :
    Prog.Silent (actDisable env name) := by
  have heach : ∀ names, Prog.Silent (disableEach env names) := by
    intro names
    induction names with
    | nil => exact Prog.silent_pure _
    | cons name rest ih =>
      refine Prog.silent_observe.bind (fun s => ?_)
      split
      · refine (silent_actDisableName_test env htest name).bind (fun worked => ?_)
        exact ih.bind (fun others => Prog.silent_pure _)
      · exact ih
  have hunload : Prog.Silent (unloadBinfmtMisc env) := by
    refine Prog.silent_observe.bind (fun s => ?_)
    rw [if_pos htest]
    exact (silent_answer _).bind (fun _ => Prog.silent_pure _)
  cases name with
  | some name => exact silent_actDisableName_test env htest name
  | none =>
    refine Prog.silent_observe.bind (fun s => ?_)
    split
    · refine (silent_loadAllFormats env false).bind (fun _ => ?_)
      refine Prog.silent_recollect.bind (fun m => ?_)
      refine (heach (env.walk m.formats)).bind (fun worked => ?_)
      exact hunload.bind (fun _ => Prog.silent_pure _)
    · exact Prog.silent_pure _

theorem silent_actRemove_test (htest : env.test = true) (name package : Text) :
    Prog.Silent (actRemove env name package) := by
  have hremove : Prog.Silent (removeFormat env name) := by
    refine (silent_actDisableName_test env htest name).bind (fun worked => ?_)
    split
    · rw [removeFile, if_pos htest]
      exact (silent_answer _).bind (fun _ => Prog.silent_pure _)
    · exact (silent_warn _).bind (fun _ => Prog.silent_pure _)
  intro s m
  rcases actRemove_cases env name package s m with ⟨o, m', hrun, -⟩ | ⟨m₁, -, -, hrun⟩
  · rw [hrun]
  · rw [hrun]
    exact hremove s m₁

end Test

section Sweep
variable (env : Env)

/-- When all calls succeed, only what is no entry stays in procdir. -/
theorem dropFails_of_reliable (hrel : Reliable env) (name : Text) (time : ℕ) :
    dropFails env name time = (isDirectoryName name || isControlName name) := by
  simp [dropFails, ok_of_reliable hrel time, hrel (time + 1)]

/-- Dropping a list of names from procdir always comes to its end. When all calls succeed
no entry with one of these names is left. -/
theorem disableEach_cases (htest : env.test = false) (names : List Text) (s : Store)
    (m : Memory) : ∃ r m' es, (disableEach env names).run s m = ⟨.returned r, m', es⟩ ∧
      (∀ e ∈ es, e.isLoss = true) ∧
      (Reliable env → s.kernel.hasRegister = true → ∀ name ∈ names,
        isDirectoryName name = false → isControlName name = false →
          (replay es s).kernel.hasEntry name = false) := by
  induction names generalizing s m with
  | nil => exact ⟨true, m, [], rfl, by simp, by simp⟩
  | cons name rest ih =>
    by_cases hex : s.kernel.procExists name = true
    · -- the entry of the first name goes, or cannot go
      obtain ⟨worked, m₁, drop, hdrop, hloss, hgone⟩ : ∃ worked m₁ drop,
          (actDisableName env name).run s m = ⟨.returned worked, m₁, drop⟩ ∧
          (∀ e ∈ drop, e.isLoss = true) ∧
          (Reliable env → s.kernel.hasRegister = true → isDirectoryName name = false →
            isControlName name = false → (replay drop s).kernel.hasEntry name = false) := by
        have hloss := loss_actDisableName env name s m
        rcases actDisableName_cases env htest name s m with
          ⟨m₁, drop, hrun, -, hdropped, -⟩ | ⟨m₁, es, hrun, -, -, -, hfails⟩
        · rw [hrun] at hloss
          refine ⟨true, m₁, drop, hrun, hloss, ?_⟩
          intro _ hreg hdir hctl
          have hreg' := hasRegister_congr (mount_replay_of_loss drop s hloss)
          rw [hreg] at hreg'
          rw [← procExists_eq_hasEntry hreg' hdir hctl]
          exact hdropped.gone
        · rw [hrun] at hloss
          refine ⟨false, m₁, es, hrun, hloss, ?_⟩
          intro hrel _ hdir hctl
          rw [dropFails_of_reliable env hrel, hdir, hctl] at hfails
          cases hfails
      obtain ⟨others, m₂, es, hrest, hlossRest, hgoneRest⟩ := ih (replay drop s) m₁
      refine ⟨worked && others, m₂, drop ++ es, ?_, ?_, ?_⟩
      · rw [disableEach, Prog.run_observe_bind, if_pos hex, Prog.run_bind_returned hdrop,
          Prog.run_bind_returned hrest, Prog.run_pure, Ran.after_mk, Ran.after_mk,
          List.append_nil]
      · intro e he
        rcases List.mem_append.mp he with he | he
        · exact hloss e he
        · exact hlossRest e he
      · intro hrel hreg other hother hdir hctl
        rw [replay_append]
        rcases List.mem_cons.mp hother with rfl | hother
        · exact hasEntry_replay_of_loss hlossRest (hgone hrel hreg hdir hctl)
        · refine hgoneRest hrel ?_ other hother hdir hctl
          rw [hasRegister_congr (mount_replay_of_loss drop s hloss)]
          exact hreg
    · obtain ⟨r, m', es, hrest, hloss, hgone⟩ := ih s m
      refine ⟨r, m', es, ?_, hloss, ?_⟩
      · rw [disableEach, Prog.run_observe_bind, if_neg hex]
        exact hrest
      · intro hrel hreg other hother hdir hctl
        rcases List.mem_cons.mp hother with rfl | hother
        · rw [procExists_eq_hasEntry hreg hdir hctl, Bool.not_eq_true] at hex
          exact hasEntry_replay_of_loss hloss hex
        · exact hgone hrel hreg other hother hdir hctl

theorem unloadBinfmtMisc_cases (htest : env.test = false) (s : Store) (m : Memory) :
    ∃ r m' es, (unloadBinfmtMisc env).run s m = ⟨.returned r, m', es⟩ ∧
      (es = [] ∨ es = [.umount] ∧ filesystemStyle s.kernel.mount = true) := by
  have hunmount : ∀ m, ∃ r m' es, (unmount env).run s m = ⟨.returned r, m', es⟩ ∧
      (es = [] ∨ es = [.umount]) := by
    intro m
    rw [unmount, run_succeeds_bind]
    split
    · exact ⟨_, _, _, rfl, Or.inr rfl⟩
    · exact ⟨_, _, _, rfl, Or.inl rfl⟩
  rw [unloadBinfmtMisc, Prog.run_observe_bind, if_neg (by simp [htest])]
  split
  · rename_i hstyle
    split
    · rw [run_succeeds_bind]
      split
      · exact ⟨_, _, _, rfl, Or.inr ⟨rfl, hstyle⟩⟩
      · obtain ⟨r, m', es, hrun, hes⟩ := hunmount m.tick
        exact ⟨r, m', es, hrun, hes.imp_right (fun h => ⟨h, hstyle⟩)⟩
    · obtain ⟨r, m', es, hrun, hes⟩ := hunmount m
      exact ⟨r, m', es, hrun, hes.imp_right (fun h => ⟨h, hstyle⟩)⟩
  · exact ⟨_, _, _, rfl, Or.inl rfl⟩

/-- Disabling everything stops before its first step, or drops entries until no name that
it knows has one, and then may unmount. -/
theorem actDisable_none_cases (htest : env.test = false) (s : Store) (m : Memory) :
    (∃ o m', (actDisable env none).run s m = ⟨o, m', []⟩) ∨
    (∃ r m' es fs, (actDisable env none).run s m = ⟨.returned r, m', es ++ fs⟩ ∧
      (∀ e ∈ es, e.isLoss = true) ∧
      (Reliable env → s.kernel.hasRegister = true → ∀ name,
        (visible s m.formats name).isSome = true → isDirectoryName name = false →
          isControlName name = false → (replay es s).kernel.hasEntry name = false) ∧
      (fs = [] ∨ fs = [.umount] ∧ filesystemStyle s.kernel.mount = true)) := by
  by_cases hproc : s.kernel.mount.procdir = true
  · rcases loadAllFormats_cases env false s m with ⟨m₁, hload, hlook, -⟩ | ⟨m₁, hload, -⟩
    · right
      obtain ⟨worked, m₂, es, hsweep, hloss, hgone⟩ :=
        disableEach_cases env htest (env.walk m₁.formats) s m₁
      obtain ⟨r, m₃, fs, hunload, hfs⟩ := unloadBinfmtMisc_cases env htest (replay es s) m₂
      refine ⟨worked, m₃, es, fs, ?_, hloss, ?_, ?_⟩
      · rw [actDisable, Prog.run_observe_bind, if_pos hproc, Prog.run_bind_returned hload,
          Prog.run_recollect_bind, replay_nil, Prog.run_bind_returned hsweep,
          Prog.run_bind_returned hunload, Prog.run_pure, Ran.after_mk, Ran.after_mk,
          Ran.after_mk, List.nil_append, List.append_nil]
      · intro hrel hreg name hvis hdir hctl
        obtain ⟨b, hb⟩ := Option.isSome_iff_exists.mp hvis
        rw [← hlook name] at hb
        exact hgone hrel hreg name (mem_walk_of_lookup env hb) hdir hctl
      · rw [mount_replay_of_loss es s hloss] at hfs
        exact hfs
    · left
      refine ⟨.exited 2, m₁, ?_⟩
      rw [actDisable, Prog.run_observe_bind, if_pos hproc, Prog.run_bind_exited hload]
  · left
    refine ⟨.returned true, m, ?_⟩
    rw [actDisable, Prog.run_observe_bind, if_neg hproc]
    rfl

end Sweep
end BinfmtSupport.AllFormats
