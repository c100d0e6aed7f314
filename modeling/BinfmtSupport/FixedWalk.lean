import BinfmtSupport.Silence
import BinfmtSupport.Walking

/-!
The loops over the table when no other process interferes. What act_enable, act_disable and
act_display have read before their loops covers the whole directory, a later reading has
nothing to insert, and the loop over the live table does what the loop over the list of its
keys does that is fixed when it starts. That is how the actions themselves are written.
-/
namespace BinfmtSupport.FixedWalk

open CText Kvhash Format Regstring Journal Stores Actions Loading Enabling Installing AllFormats
  Cursors Walking

def Covered (s : Store) (t : Table Text Binfmt) : Prop :=
  ∀ name, (s.record name).isSome = true → name ∈ t

section Source
variable (env : Env)

def action : Sweep → Act Bool
  | .enable => actEnable env none
  | .disable => actDisable env none
  | .display => actDisplay env none

def sweepEach : Sweep → List Text → Act Bool
  | .enable, names => enableEach env names
  | .disable, names => disableEach env names
  | .display, names => do
      displayEach env names
      return true

def closing : Sweep → Bool → Act Bool
  | .disable, worked => do
      let _ ← unloadBinfmtMisc env
      return worked
  | _, worked => return worked

theorem action_eq (sweep : Sweep) : action env sweep = opening env sweep >>= fun walks =>
    if walks = true then Prog.recollect >>= fun m =>
      sweepEach env sweep (env.walk m.formats) >>= closing env sweep
    else pure true := by
  cases sweep with
  | enable =>
    simp only [action, actEnable, opening, bind_assoc]
    refine bind_congr (fun loaded => ?_)
    cases loaded with
    | false => simp
    | true =>
      simp only [if_true, bind_assoc, pure_bind]
      refine bind_congr (fun _ => bind_congr (fun m => ?_))
      exact (bind_pure _).symm
  | disable =>
    simp only [action, actDisable, opening, bind_assoc]
    refine bind_congr (fun s => ?_)
    split
    · simp only [bind_assoc, pure_bind, if_true]
      rfl
    · simp
  | display =>
    simp only [action, actDisplay, opening, bind_assoc, pure_bind, if_true]
    refine bind_congr (fun _ => bind_congr (fun m => ?_))
    simp only [sweepEach, bind_assoc, pure_bind]
    rfl

theorem sweepEach_cons (sweep : Sweep) (name : Text) (rest : List Text) :
    sweepEach env sweep (name :: rest) = body env sweep name >>= fun worked =>
      sweepEach env sweep rest >>= fun others => pure (worked && others) := by
  cases sweep with
  | enable =>
    simp only [sweepEach, enableEach, body, bind_assoc]
    refine bind_congr (fun s => ?_)
    split
    · simp only [pure_bind, Bool.true_and, bind_pure]
    · rfl
  | disable =>
    simp only [sweepEach, disableEach, body, bind_assoc]
    refine bind_congr (fun s => ?_)
    split
    · rfl
    · simp only [pure_bind, Bool.true_and, bind_pure]
  | display =>
    simp only [sweepEach, displayEach, body, bind_assoc, pure_bind, Bool.true_and]

end Source

section Alone
variable {env : Env} {sweep : Sweep} {p : Position Text Process}

theorem covered_congr {s u : Store} {t : Table Text Binfmt} (h : u.admindir = s.admindir) :
    Covered u t ↔ Covered s t := by
  have hrecord : ∀ name, u.record name = s.record name := by
    intro name
    exact record_congr (by simp only [Store.file, h])
  simp only [Covered, hrecord]

theorem admindir_loadBinfmtMisc (env : Env) (s : Store) (m : Memory) :
    (((loadBinfmtMisc env).run s m).state s).admindir = s.admindir := by
  cases htest : env.test with
  | true =>
    rw [loadBinfmtMisc, if_pos htest]
    rfl
  | false =>
    obtain ⟨r, m', es, hrun, -, hset, -⟩ := loadBinfmtMisc_cases env htest s m
    rw [hrun]
    exact admindir_replay_of_setup es s hset

/-- The bodies touch no file. -/
theorem admindir_body (env : Env) (sweep : Sweep) (key : Text) (s : Store) (m : Memory) :
    (((body env sweep key).run s m).state s).admindir = s.admindir := by
  cases sweep with
  | enable =>
    rw [body, Prog.run_observe_bind]
    split
    · rfl
    · cases htest : env.test with
      | true => rw [Ran.state, silent_actEnableName_test env htest key s m, replay_nil]
      | false =>
        exact admindir_replay_of_noFiles _ s (files_of_actEnableName env htest key s m)
  | disable =>
    rw [body, Prog.run_observe_bind]
    split
    · cases htest : env.test with
      | true => rw [Ran.state, silent_actDisableName_test env htest key s m, replay_nil]
      | false =>
        rcases actDisableName_cases env htest key s m with
          ⟨m', es, hrun, -, hdropped, -⟩ | ⟨m', es, hrun, -, hes, -⟩
        · rw [hrun]
          exact hdropped.admindir
        · rw [hrun]
          rcases hes with rfl | rfl <;> rfl
    · rfl
  | display =>
    have hsilent : Prog.Silent (body env .display key) :=
      (Silence.silent_actDisplay env (some key)).bind (fun _ => Prog.silent_pure _)
    rw [Ran.state, hsilent s m, replay_nil]

theorem not_newcomer_of_covered {u : Store} {n : Memory} (h : Covered u n.formats) :
    ¬ Newcomer env u n := by
  rintro ⟨-, name, i, -, hnew, hrecord, -⟩
  exact hnew (h name hrecord)

/-- An iteration over a covered directory finds nothing new. -/
theorem not_finds_of_covered (hp : OnTable p) {others : Store → Store}
    (h : Covered (others p.state.store) p.state.memory.formats) :
    ¬ Finds env sweep p others := by
  rintro ⟨-, key, hplace, u, n, hread, hnew⟩
  refine not_newcomer_of_covered ?_ hnew
  obtain ⟨m₁, es, hmisc, rfl, -⟩ := hread.loads
  have hsame := admindir_loadBinfmtMisc env (others p.state.store) p.state.memory
  rw [hmisc] at hsame
  rw [hread.formats_eq env (hp key hplace)]
  exact (covered_congr hsame).mpr h

/-- What the directory read before the loop leaves behind. -/
theorem covered_of_loadAllFormats {quiet : Bool} {s : Store} {m m' : Memory} {es : List Effect}
    (h : (loadAllFormats env quiet).run s m = ⟨.returned (), m', es⟩) :
    Covered (replay es s) m'.formats := by
  have hsilent := silent_loadAllFormats env quiet s m
  rw [h] at hsilent
  subst hsilent
  rcases loadAllFormats_cases env quiet s m with ⟨m₁, hrun, hlook, -⟩ | ⟨m₁, hrun, -⟩
  · rw [h] at hrun
    cases hrun
    intro name hrecord
    obtain ⟨b, hb⟩ := Option.isSome_iff_exists.mp hrecord
    have hname := hlook name
    rw [visible, show s.record name = some b from hb] at hname
    apply AList.lookup_isSome.mp
    change (kvhashLookup m'.formats name).isSome = true
    rw [hname]
    cases kvhashLookup m.formats name <;> rfl
  · rw [h] at hrun
    cases hrun

/-- An action that comes to its loop has the whole directory in its table. -/
theorem covered_of_opening {s : Store} {m m' : Memory} {es : List Effect}
    (h : (opening env sweep).run s m = ⟨.returned true, m', es⟩) :
    Covered (replay es s) m'.formats := by
  have hload : ∀ t n fs, (loadAllFormats env false >>= fun _ => pure true : Act Bool).run t n =
      ⟨.returned true, m', fs⟩ → Covered (replay fs t) m'.formats := by
    intro t n fs hrun
    obtain ⟨a, m₁, gs, hs, hread, hpure, rfl⟩ := Prog.returned_of_run_bind hrun
    cases hpure
    rw [List.append_nil]
    exact covered_of_loadAllFormats hread
  cases sweep with
  | enable =>
    obtain ⟨loaded, m₁, fs, gs, hmisc, hrest, rfl⟩ := Prog.returned_of_run_bind h
    cases loaded with
    | false => cases hrest
    | true =>
      rw [replay_append]
      exact hload _ _ _ hrest
  | disable =>
    rw [opening, Prog.run_observe_bind] at h
    split at h
    · exact hload _ _ _ h
    · cases h
  | display => exact hload _ _ _ h

end Alone

section Fixed
variable {env : Env} {sweep : Sweep} {p q : Position Text Process}

structure Follows (p q : Position Text Process) (r : Ran Effect Memory Bool) : Prop where
  memory_eq : q.state.memory = r.memory
  store_eq : q.state.store = r.state p.state.store
  place_eq : q.place = if goesOn r.outcome = true then .finished else .left
  worked_eq : ∀ w, r.outcome = .returned w → q.state.worked = (p.state.worked && w)

theorem follows_nil (env : Env) (sweep : Sweep) (h : p.place = .finished) :
    Follows p p ((sweepEach env sweep []).run p.state.store p.state.memory) := by
  have hrun : (sweepEach env sweep []).run p.state.store p.state.memory =
      ⟨.returned true, p.state.memory, []⟩ := by
    cases sweep <;> rfl
  rw [hrun]
  refine ⟨rfl, rfl, h, fun w hw => ?_⟩
  cases hw
  exact (Bool.and_true _).symm

/-- A body that returns, and then what follows it. -/
theorem Follows.cons {name : Text} {rest : List Text} {w : Bool} {m' : Memory}
    {es : List Effect} {p' : Position Text Process}
    (hbody : (body env sweep name).run p.state.store p.state.memory = ⟨.returned w, m', es⟩)
    (hstate : p'.state = ⟨replay es p.state.store, m', p.state.worked && w⟩)
    (h : Follows p' q ((sweepEach env sweep rest).run p'.state.store p'.state.memory)) :
    Follows p q ((sweepEach env sweep (name :: rest)).run p.state.store p.state.memory) := by
  rw [hstate] at h
  rw [sweepEach_cons, Prog.run_bind_returned hbody]
  rcases hrest : (sweepEach env sweep rest).run (replay es p.state.store) m' with ⟨o, m'', fs⟩
  rw [hrest] at h
  obtain ⟨hmemory, hstore, hplace, hworked⟩ := h
  cases o with
  | returned others =>
    rw [Prog.run_bind_returned hrest, Prog.run_pure, Ran.after_mk, Ran.after_mk]
    refine ⟨hmemory, ?_, hplace, fun r hr => ?_⟩
    · rw [hstore]
      simp [Ran.state, hstate]
    · cases hr
      rw [hworked others rfl, hstate, Bool.and_assoc]
  | exited status =>
    rw [Prog.run_bind_exited hrest, Ran.after_mk]
    refine ⟨hmemory, ?_, hplace, fun r hr => by cases hr⟩
    rw [hstore]
    simp [Ran.state, hstate]
  | crashed =>
    rw [Prog.run_bind_crashed hrest, Ran.after_mk]
    refine ⟨hmemory, ?_, hplace, fun r hr => by cases hr⟩
    rw [hstore]
    simp [Ran.state, hstate]

/-- From any point of a loop over a covered directory that is left alone. -/
theorem follows_run (names front : List Text) (hat : p.place = .at names.head?)
    (horder : env.walk p.state.memory.formats = front ++ names)
    (hcovered : Covered p.state.store p.state.memory.formats) :
    Follows p ((hashForEach env sweep).run p (List.replicate names.length id))
      ((sweepEach env sweep names).run p.state.store p.state.memory) := by
  induction names generalizing p front with
  | nil => exact follows_nil env sweep hat
  | cons name rest ih =>
    have hplace : p.place = .entry name := hat
    have htable : OnTable p := by
      intro key hkey
      rw [hplace] at hkey
      cases hkey
      have hwalk : name ∈ env.walk p.state.memory.formats := by
        rw [horder]
        exact List.mem_append_right front List.mem_cons_self
      exact (mem_walk_iff _ name).mp hwalk
    have hnot : ¬ Finds env sweep p id := not_finds_of_covered htable hcovered
    have hformats := formats_step_of_not_finds htable hnot
    have hfresh : name ∉ front := by
      have hnodup := (env.walk_perm p.state.memory.formats).nodup_iff.mpr
        p.state.memory.formats.keys_nodup
      rw [horder, List.nodup_append] at hnodup
      intro hmem
      exact hnodup.2.2 name hmem name List.mem_cons_self rfl
    have hadm := admindir_body env sweep name p.state.store p.state.memory
    rw [List.length_cons, List.replicate_succ, Loop.run_cons]
    rw [Loop.step_entry hplace] at hformats ⊢
    rcases hbody : (body env sweep name).run p.state.store p.state.memory with ⟨o, m', es⟩
    have hstep : (hashForEach env sweep).body name id p.state =
        (⟨replay es p.state.store, m', worked p.state.worked o⟩, goesOn o) := by
      simp only [hashForEach, id, hbody]
    rw [hbody] at hadm
    rw [hstep] at hformats ⊢
    have hformats' : m'.formats = p.state.memory.formats := hformats
    cases o with
    | returned w =>
      refine Follows.cons hbody rfl (ih (front ++ [name]) ?_ ?_ ?_)
      · change Place.at (behind (env.walk m'.formats) name) = _
        rw [hformats', horder, behind_append hfresh]
      · change env.walk m'.formats = _
        rw [hformats', horder, List.append_assoc]
        rfl
      · change Covered (replay es p.state.store) m'.formats
        rw [hformats']
        exact (covered_congr hadm).mpr hcovered
    | exited status =>
      rw [Loop.run_of_not_entry (fun _ h => by cases h), sweepEach_cons,
        Prog.run_bind_exited hbody]
      exact ⟨rfl, rfl, rfl, fun w h => by cases h⟩
    | crashed =>
      rw [Loop.run_of_not_entry (fun _ h => by cases h), sweepEach_cons,
        Prog.run_bind_crashed hbody]
      exact ⟨rfl, rfl, rfl, fun w h => by cases h⟩

/-- Left alone, an action that comes to its loop does there, key by key, what the list of
keys that is fixed at the start of the loop makes it do. -/
theorem action_alone (env : Env) (sweep : Sweep) {s : Store} {m m' : Memory} {es : List Effect}
    (h : (opening env sweep).run s m = ⟨.returned true, m', es⟩) :
    (action env sweep).run s m = ((sweepEach env sweep (env.walk m'.formats) >>=
      closing env sweep).run (replay es s) m').after es ∧
    Follows ((hashForEach env sweep).start ⟨replay es s, m', true⟩)
      (walk env sweep (replay es s) m' (List.replicate (env.walk m'.formats).length id))
      ((sweepEach env sweep (env.walk m'.formats)).run (replay es s) m') := by
  constructor
  · rw [action_eq, Prog.run_bind_returned h, if_pos rfl, Prog.run_recollect_bind]
  · exact follows_run (env.walk m'.formats) [] rfl rfl (covered_of_opening h)

end Fixed
end BinfmtSupport.FixedWalk
