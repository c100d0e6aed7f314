import BinfmtSupport.Footprint
import BinfmtSupport.Rehearsal

/-!
The rehearsal of one name, carried over the whole table. The stores of the rehearsing process
never change, so what a real step leaves behind must not matter for the names that are still
to come.
-/
namespace BinfmtSupport.TableRehearsal

open CText Kvhash Format Regstring Journal Stores Actions Loading Enabling Installing
open AllFormats Rejection Replacement Steady Rehearsal

/-- No stored name comes into view when the module is loaded, and none that is still to be
enabled has a colon. -/
def ForeseenAll (env : Env) (s : Store) : Prop :=
  ∀ name, (s.record name).isSome = true → Foreseen env s name ∧
    (s.kernel.procExists name = false → colon ∉ name)

section Frame
variable {env : Env} {s u : Store} {name other : Text} {r : Registration}

/-- Once the control files are there, loading works and shows nothing new. -/
theorem loads_of_hasRegister (htest : env.test = false) (hrel : Reliable env)
    (hreg : u.kernel.hasRegister = true) : loads env u = true := by
  obtain ⟨loaded, m', es, hrun, -, -, -, hworks⟩ := loadBinfmtMisc_cases env htest u Memory.fresh
  rw [loads, loading, hrun, hworks hrel (mountable_of_hasRegister hreg)]
  rfl

theorem hasRegister_setup (htest : env.test = false) (hloads : loads env u = true) :
    (replay (setup env u) u).kernel.hasRegister = true := by
  obtain ⟨loaded, m', es, hrun, -, -, hreg, -⟩ := loadBinfmtMisc_cases env htest u Memory.fresh
  rw [loads, loading, hrun] at hloads
  rw [setup, loading, hrun]
  refine hreg ?_
  cases loaded with
  | true => rfl
  | false => cases hloads

/-- Behind the control files a name is in procdir by itself or because of its entries. -/
theorem procExists_congr {k k' : Kernel} (hreg : k.hasRegister = true)
    (hreg' : k'.hasRegister = true) (hentry : k'.hasEntry name = k.hasEntry name) :
    k'.procExists name = k.procExists name := by
  simp only [Kernel.hasRegister, Bool.and_eq_true] at hreg hreg'
  simp only [Kernel.procExists, hreg.1, hreg.2, hreg'.1, hreg'.2, hentry]

theorem foreseen_of_hasRegister (htest : env.test = false) (hrel : Reliable env)
    (hreg : u.kernel.hasRegister = true) (name : Text) : Foreseen env u name := by
  have hloads := loads_of_hasRegister htest hrel hreg
  refine ⟨procExists_congr hreg (hasRegister_setup htest hloads) ?_, fun _ => hloads⟩
  rw [Kernel.hasEntry, entries_replay_of_setup _ u (setup_isSetup htest u)]
  rfl

/-- What enabling leaves behind: the control files stay, and entries of other names. -/
theorem frame_enabling (htest : env.test = false) (hloads : loads env u = true)
    (hname : r.name = name) (hcolon : colon ∉ name) :
    (replay (enabling env u name r).2 u).kernel.hasRegister = true ∧
      ∀ other, other ≠ name →
        (replay (enabling env u name r).2 u).kernel.hasEntry other = u.kernel.hasEntry other := by
  have hset := setup_isSetup htest u
  have hreg := hasRegister_setup htest hloads
  have hentry : ∀ other, (replay (setup env u) u).kernel.hasEntry other =
      u.kernel.hasEntry other := by
    intro other
    rw [Kernel.hasEntry, entries_replay_of_setup _ u hset]
    rfl
  unfold enabling
  split
  · cases hacc : accepted env (replay (setup env u) u).kernel r with
    | none => exact ⟨hreg, fun other _ => hentry other⟩
    | some e =>
      have he : e.name = name :=
        (Footprint.name_of_colonless (entry_of_accepted env hacc).1 (hname ▸ hcolon)).trans hname
      rw [replay_append]
      refine ⟨hreg, fun other hne => ?_⟩
      rw [← hentry other]
      change List.any (_ ++ [e]) _ = _
      rw [List.any_append, List.any_cons, List.any_nil, he, decide_eq_false hne.symm]
      simp [Kernel.hasEntry]
  · exact ⟨hreg, fun other _ => hentry other⟩

/-- Dropping an entry leaves the other names as they are. -/
theorem procExists_dropped {drop : List Effect} (h : Dropped name u drop) (hne : other ≠ name) :
    (replay drop u).kernel.procExists other = u.kernel.procExists other := by
  rcases h.shape with ⟨rfl, -⟩ | ⟨rfl, -⟩
  · rfl
  · have hentry : ((Effect.dropEntry name).apply u).kernel.hasEntry other =
        u.kernel.hasEntry other := by
      change List.any (List.filter _ u.kernel.entries) _ = _
      rw [Kernel.hasEntry, List.any_filter]
      congr 1
      funext e
      by_cases heq : e.name = other
      · simp [heq, hne]
      · simp [heq]
    change ((Effect.dropEntry name).apply u).kernel.procExists other = _
    rw [Kernel.procExists, hentry]
    rfl

end Frame

section All
variable {env : Env} {s u : Store} {m m' n : Memory} {es : List Effect}

/-- Records are read in the same way under --test. -/
theorem loadAllFormats_trial (env : Env) (quiet : Bool) :
    loadAllFormats (trial env) quiet = loadAllFormats env quiet := by
  have heach : ∀ names, loadFormats (trial env) quiet names = loadFormats env quiet names := by
    intro names
    induction names with
    | nil => rfl
    | cons name rest ih =>
      rw [loadFormats, loadFormats, ih]
      rfl
  rw [loadAllFormats, loadAllFormats]
  simp only [heach]
  rfl

/-- Reading the whole directory aloud: the table is a function of the directory. -/
theorem run_loadAllFormats (hrel : Reliable env) (s : Store) (m : Memory) :
    (∃ m', (loadAllFormats env false).run s m = ⟨.returned (), m', []⟩ ∧
      m'.formats = rememberAll s m.formats (env.readdir s.admindir) ∧ ∀ name, Intact s name) ∨
    ∃ m', (loadAllFormats env false).run s m = ⟨.exited 2, m', []⟩ ∧ ∃ name, ¬ Intact s name := by
  have hstep : (loadAllFormats env false).run s m =
      (loadFormats env false (env.readdir s.admindir)).run s m.tick := by
    simp only [loadAllFormats, run_succeeds_bind, ok_of_reliable hrel, if_true,
      Prog.run_observe_bind]
  rcases loadFormats_cases env false (env.readdir s.admindir) s m.tick with
    ⟨m', hrun, hf', hq | hall⟩ | ⟨m', hrun, ⟨time, hfail⟩ | ⟨-, name, -, hbad⟩⟩
  · cases hq
  · refine Or.inl ⟨m', hstep.trans hrun, hf', fun name hsome => hall name ?_ hsome⟩
    rw [(env.readdir_perm s.admindir).mem_iff]
    exact (isSome_file_iff s name).mp hsome
  · rw [ok_of_reliable hrel] at hfail
    cases hfail
  · exact Or.inr ⟨m', hstep.trans hrun, name, hbad⟩

theorem rememberAll_congr (h : u.admindir = s.admindir) (t : Table Text Binfmt)
    (names : List Text) : rememberAll u t names = rememberAll s t names := by
  have hrecord : u.record = s.record := by
    funext key
    apply record_congr
    simp only [Store.file, h]
  rw [rememberAll, rememberAll, hrecord]

theorem nodup_walk (env : Env) (t : Table Text Binfmt) : (env.walk t).Nodup :=
  (env.walk_perm t).nodup_iff.mpr t.nodupKeys

/-- Both processes go through the stored names. The real one finds every name that is still
to come as it was at the beginning. -/
theorem rehearse_enableEach (htest : env.test = false) (hrel : Reliable env)
    (hintact : ∀ name, Intact s name) (names : List Text) (hnodup : names.Nodup)
    (hstored : ∀ name ∈ names, ∃ c, s.record name = some c)
    (hcolon : ∀ name ∈ names, s.kernel.procExists name = false → colon ∉ name)
    (hadm : u.admindir = s.admindir) (hreg : u.kernel.hasRegister = true)
    (hview : ∀ key, visible u m.formats key = s.record key)
    (hview' : ∀ key, visible s n.formats key = s.record key)
    (hex : ∀ name ∈ names, s.kernel.procExists name = u.kernel.procExists name)
    (hrun : (enableEach env names).run u m = ⟨.returned true, m', es⟩) :
    ∃ n', (enableEach (trial env) names).run s n = ⟨.returned true, n', []⟩ ∧
      demonstrated n' = demonstrated n ++ performed es u := by
  induction names generalizing u m n es with
  | nil =>
    cases hrun
    exact ⟨n, rfl, (List.append_nil _).symm⟩
  | cons name rest ih =>
    rw [List.nodup_cons] at hnodup
    have hhead := hex name List.mem_cons_self
    have hstored' := fun other hother => hstored other (List.mem_cons_of_mem name hother)
    have hcolon' := fun other hother => hcolon other (List.mem_cons_of_mem name hother)
    have hex' := fun other hother => hex other (List.mem_cons_of_mem name hother)
    rw [enableEach, Prog.run_observe_bind] at hrun ⊢
    cases hshown : s.kernel.procExists name with
    | true =>
      rw [if_pos (hhead.symm.trans hshown)] at hrun
      rw [if_pos rfl]
      exact ih hnodup.2 hstored' hcolon' hadm hreg hview hview' hex' hrun
    | false =>
      rw [if_neg (by simp [← hhead, hshown])] at hrun
      rw [if_neg Bool.false_ne_true]
      obtain ⟨worked, m₁, fs, hs, hone, hmore, rfl⟩ := Prog.returned_of_run_bind hrun
      obtain ⟨others, m₂, gs, ks, hrest, hend, rfl⟩ := Prog.returned_of_run_bind hmore
      rw [Prog.run_pure] at hend
      simp only [Ran.mk.injEq, Outcome.returned.injEq, Bool.and_eq_true] at hend
      obtain ⟨⟨rfl, rfl⟩, rfl, rfl⟩ := hend
      obtain ⟨c, hc⟩ := hstored name List.mem_cons_self
      obtain ⟨⟨r, hr, rfl⟩, hsame, n₁, htrial, hsame', hshow⟩ := rehearse_actEnableName (n := n)
        htest hrel (fun key => (hview' key).trans (hview key).symm)
        (foreseen_of_hasRegister htest hrel hreg name) hhead
        ((intact_congr hadm name).mpr (hintact name)) (hintact name)
        ((hview name).trans hc)
        (comparable_of_magic (isSome_magic_of_record hc) (magic_of_view hview)) hone
      -- what the line of this name leaves behind
      obtain ⟨hreg₁, hentry₁⟩ := frame_enabling htest (loads_of_hasRegister htest hrel hreg) hr
        (hcolon name List.mem_cons_self hshown)
      have hadm₁ := admindir_replay_of_noFiles _ u (files_of_enabling htest u name r)
      obtain ⟨n', htrial', hshow'⟩ := ih (n := n₁) hnodup.2 hstored' hcolon' (hadm₁.trans hadm)
        hreg₁ (fun key => by rw [visible_congr hadm₁, hsame, hview])
        (fun key => (hsame' key).trans (hview' key))
        (fun other hother => (hex' other hother).trans (procExists_congr hreg hreg₁
          (hentry₁ other (fun heq => hnodup.1 (heq ▸ hother)))).symm) hrest
      refine ⟨n', ?_, ?_⟩
      · rw [Prog.run_bind_returned htrial, replay_nil, Prog.run_bind_returned htrial']
        rfl
      · rw [hshow', hshow, List.append_nil, performed_append, List.append_assoc]

def stock (env : Env) (s : Store) : Table Text Binfmt :=
  rememberAll s ∅ (env.readdir s.admindir)

theorem visible_stock (env : Env) (s : Store) (key : Text) :
    visible s (stock env s) key = s.record key := by
  rw [stock, sameView_of_lookup (lookup_rememberAll_readdir env s ∅), visible_empty]

theorem stored_of_mem_walk {name : Text} (h : name ∈ env.walk (stock env s)) :
    ∃ c, s.record name = some c := by
  rw [(env.walk_perm _).mem_iff] at h
  obtain ⟨c, hc⟩ := Option.isSome_iff_exists.mp (AList.lookup_isSome.mpr h)
  refine ⟨c, ?_⟩
  rw [← visible_empty s name, ← lookup_rememberAll_readdir env s ∅ name]
  exact hc

theorem ForeseenAll.of_mem_walk (h : ForeseenAll env s) {name : Text}
    (hname : name ∈ env.walk (stock env s)) :
    Foreseen env s name ∧ (s.kernel.procExists name = false → colon ∉ name) := by
  obtain ⟨c, hc⟩ := stored_of_mem_walk hname
  refine h name ?_
  rw [hc]
  rfl

/-- Names that are all in procdir need nothing. -/
theorem run_enableEach_idle (env : Env) (names : List Text)
    (hex : ∀ name ∈ names, s.kernel.procExists name = true) (m : Memory) :
    (enableEach env names).run s m = ⟨.returned true, m, []⟩ := by
  induction names with
  | nil => rfl
  | cons name rest ih =>
    rw [enableEach, Prog.run_observe_bind, if_pos (hex name List.mem_cons_self)]
    exact ih (fun other hother => hex other (List.mem_cons_of_mem name hother))

/-- Under --test everything is enabled over the table that is read first, if it can be read. -/
theorem run_actEnable_trial (hrel : Reliable env) (s : Store) :
    (∃ n, demonstrated n = [] ∧ n.formats = stock env s ∧
      (actEnable (trial env) none).run s Memory.fresh =
        (enableEach (trial env) (env.walk (stock env s))).run s n) ∨
    demonstrated ((actEnable (trial env) none).run s Memory.fresh).memory = [] ∧
      ∃ name, ¬ Intact s name := by
  let n₁ : Memory := { Memory.fresh with answers := [.load] }
  have hload : (loadBinfmtMisc (trial env)).run s Memory.fresh = ⟨.returned true, n₁, []⟩ := rfl
  have hquiet := leaves_loadAllFormats env false s n₁
  rw [actEnable, Prog.run_bind_returned hload, if_pos rfl, loadAllFormats_trial, replay_nil,
    Ran.after_nil]
  rcases run_loadAllFormats hrel s n₁ with ⟨n₂, hread, hf₂, -⟩ | ⟨n₂, hread, name, hbad⟩
  · have htable : n₂.formats = stock env s := hf₂
    rw [hread] at hquiet
    refine Or.inl ⟨n₂, ?_, htable, ?_⟩
    · rw [demonstrated, hquiet]
      rfl
    · rw [Prog.run_bind_returned hread, Prog.run_recollect_bind, htable]
      rfl
  · rw [hread] at hquiet
    refine Or.inr ⟨?_, name, hbad⟩
    rw [Prog.run_bind_exited hread, demonstrated, hquiet]
    rfl

/-- Without the module nothing is enabled, and nothing is shown. -/
theorem rehearse_enableAll_idle (hrel : Reliable env) (hfore : ForeseenAll env s)
    (hloads : loads env s = false) :
    demonstrated ((actEnable (trial env) none).run s Memory.fresh).memory = [] := by
  rcases run_actEnable_trial hrel s with ⟨n, hnone, -, hread⟩ | ⟨hnone, -⟩
  · have hidle := run_enableEach_idle (trial env) (env.walk (stock env s)) (fun name hname => by
      by_contra hno
      rw [Bool.not_eq_true] at hno
      rw [(hfore.of_mem_walk hname).1.2 hno] at hloads
      cases hloads) n
    rw [hread, hidle]
    exact hnone
  · exact hnone

/-- Enabling everything. -/
theorem rehearse_enableAll (htest : env.test = false) (hrel : Reliable env)
    (hfore : ForeseenAll env s)
    (hrun : (actEnable env none).run s Memory.fresh = ⟨.returned true, m', es⟩) :
    demonstrated ((actEnable (trial env) none).run s Memory.fresh).memory = performed es s := by
  have hset := setup_isSetup htest s
  have hadm := admindir_replay_of_setup _ s hset
  obtain ⟨m₁, hload, hf₁⟩ := run_loadBinfmtMisc htest hrel s Memory.fresh
  rw [actEnable, Prog.run_bind_returned hload] at hrun
  cases hloads : loads env s with
  | false =>
    rw [hloads, if_neg Bool.false_ne_true, Prog.run_pure, Ran.after_mk, List.append_nil] at hrun
    cases hrun
    rw [performed_setup hset, rehearse_enableAll_idle hrel hfore hloads]
  | true =>
    rw [hloads, if_pos rfl] at hrun
    rcases run_loadAllFormats hrel (replay (setup env s) s) m₁ with
      ⟨m₂, hread, hf₂, hall⟩ | ⟨m₂, hread, -⟩
    · have hintact : ∀ name, Intact s name := fun name => (intact_congr hadm name).mp (hall name)
      have htable : m₂.formats = stock env s := by
        rw [hf₂, hf₁, hadm, rememberAll_congr hadm]
        rfl
      rw [Prog.run_bind_returned hread, Prog.run_recollect_bind, replay_nil, Ran.after_nil,
        htable] at hrun
      rcases hsweep : (enableEach env (env.walk (stock env s))).run (replay (setup env s) s) m₂
        with ⟨o, m₃, ks⟩
      rw [hsweep, Ran.after_mk] at hrun
      cases hrun
      rcases run_actEnable_trial hrel s with ⟨n, hnone, htable', hopen⟩ | ⟨-, name, hbad⟩
      · obtain ⟨n', htrial, hshow⟩ := rehearse_enableEach (n := n) htest hrel hintact _
          (nodup_walk env _) (fun name hname => stored_of_mem_walk hname)
          (fun name hname => (hfore.of_mem_walk hname).2) hadm (hasRegister_setup htest hloads)
          (fun key => by rw [visible_congr hadm, htable, visible_stock])
          (fun key => by rw [htable', visible_stock])
          (fun name hname => (hfore.of_mem_walk hname).1.1.symm) hsweep
        rw [hopen, htrial, hshow, hnone, performed_append, performed_setup hset]
      · exact absurd (hintact name) hbad
    · rw [Prog.run_bind_exited hread] at hrun
      cases hrun

/-- Dropping the entries of distinct names, one after the other. -/
theorem rehearse_disableEach (htest : env.test = false) (names : List Text)
    (hnodup : names.Nodup)
    (hex : ∀ name ∈ names, s.kernel.procExists name = u.kernel.procExists name)
    (hrun : (disableEach env names).run u m = ⟨.returned true, m', es⟩) :
    ∃ n', (disableEach (trial env) names).run s n = ⟨.returned true, n', []⟩ ∧
      demonstrated n' = demonstrated n ++ performed es u := by
  induction names generalizing u m n es with
  | nil =>
    cases hrun
    exact ⟨n, rfl, (List.append_nil _).symm⟩
  | cons name rest ih =>
    rw [List.nodup_cons] at hnodup
    have hhead := hex name List.mem_cons_self
    have hex' := fun other hother => hex other (List.mem_cons_of_mem name hother)
    rw [disableEach, Prog.run_observe_bind] at hrun ⊢
    cases hshown : s.kernel.procExists name with
    | false =>
      rw [if_neg (by simp [← hhead, hshown])] at hrun
      rw [if_neg Bool.false_ne_true]
      exact ih hnodup.2 hex' hrun
    | true =>
      rw [if_pos (hhead.symm.trans hshown)] at hrun
      rw [if_pos rfl]
      obtain ⟨worked, m₁, fs, hs, hone, hmore, rfl⟩ := Prog.returned_of_run_bind hrun
      obtain ⟨others, m₂, gs, ks, hrest, hend, rfl⟩ := Prog.returned_of_run_bind hmore
      rw [Prog.run_pure] at hend
      simp only [Ran.mk.injEq, Outcome.returned.injEq, Bool.and_eq_true] at hend
      obtain ⟨⟨rfl, rfl⟩, rfl, rfl⟩ := hend
      obtain ⟨hdrop, -, n₁, htrial, -, hshow⟩ := rehearse_actDisableName (n := n) htest hhead hone
      obtain ⟨n', htrial', hshow'⟩ := ih (n := n₁) hnodup.2 (fun other hother =>
        (hex' other hother).trans
          (procExists_dropped hdrop (fun heq => hnodup.1 (heq ▸ hother))).symm) hrest
      refine ⟨n', ?_, ?_⟩
      · rw [Prog.run_bind_returned htrial, replay_nil, Prog.run_bind_returned htrial']
        rfl
      · rw [hshow', hshow, List.append_nil, performed_append, List.append_assoc]

/-- Unmounting is no step that is shown. -/
theorem run_unloadBinfmtMisc (htest : env.test = false) (u : Store) (m : Memory) :
    ∃ r m' es, (unloadBinfmtMisc env).run u m = ⟨.returned r, m', es⟩ ∧ performed es u = [] := by
  obtain ⟨r, m', es, hrun, hes⟩ := unloadBinfmtMisc_cases env htest u m
  refine ⟨r, m', es, hrun, ?_⟩
  rcases hes with rfl | ⟨rfl, -⟩ <;> rfl

theorem run_unloadBinfmtMisc_trial (env : Env) (s : Store) (n : Memory) :
    ∃ n', (unloadBinfmtMisc (trial env)).run s n = ⟨.returned true, n', []⟩ ∧
      demonstrated n' = demonstrated n := by
  refine ⟨_, rfl, ?_⟩
  refine (demonstrated_of_answers (m := n)
    [.unload (filesystemStyle s.kernel.mount)] rfl).trans ?_
  exact List.append_nil _

/-- Disabling everything: the real process finds each name as it was at the beginning. -/
theorem rehearse_disableAll (htest : env.test = false)
    (hrun : (actDisable env none).run s Memory.fresh = ⟨.returned true, m', es⟩) :
    demonstrated ((actDisable (trial env) none).run s Memory.fresh).memory = performed es s := by
  rw [actDisable, Prog.run_observe_bind] at hrun ⊢
  by_cases hproc : s.kernel.mount.procdir = true
  · rw [if_pos hproc] at hrun ⊢
    have hquiet := leaves_loadAllFormats env false s Memory.fresh
    have hsilent := silent_loadAllFormats env false s Memory.fresh
    obtain ⟨_, m₁, fs, gs, hread, hmore, rfl⟩ := Prog.returned_of_run_bind hrun
    rw [hread] at hquiet hsilent
    cases hsilent
    rw [Prog.run_recollect_bind, replay_nil] at hmore
    obtain ⟨worked, m₂, hs, ks, hsweep, hrest, rfl⟩ := Prog.returned_of_run_bind hmore
    obtain ⟨r, m₃, js, hunload, hshow⟩ := run_unloadBinfmtMisc htest (replay hs s) m₂
    rw [Prog.run_bind_returned hunload, Prog.run_pure, Ran.after_mk, List.append_nil] at hrest
    cases hrest
    obtain ⟨n₂, htrial, heq⟩ :=
      rehearse_disableEach (n := m₁) htest _ (nodup_walk env _) (fun _ _ => rfl) hsweep
    obtain ⟨n', htrial', heq'⟩ := run_unloadBinfmtMisc_trial env s n₂
    have hnone : demonstrated m₁ = [] := by
      rw [demonstrated, hquiet]
      rfl
    rw [loadAllFormats_trial, Prog.run_bind_returned hread, Prog.run_recollect_bind, replay_nil]
    have hwalk : (trial env).walk m₁.formats = env.walk m₁.formats := rfl
    rw [hwalk, Prog.run_bind_returned htrial, replay_nil, Prog.run_bind_returned htrial']
    change demonstrated n' = _
    rw [heq', heq, hnone, List.nil_append, List.nil_append, performed_append, hshow,
      List.append_nil]
  · rw [if_neg hproc] at hrun ⊢
    cases hrun
    rfl

end All
end BinfmtSupport.TableRehearsal
