import BinfmtSupport.Installing
import BinfmtSupport.Emulator

/-!
What act_disable does to a path. The name that it is given is put behind procdir and a slash,
and the path that results is opened and written to, whatever it leads to: an entry, one of the
control files or, by a name with slashes, a file outside of procdir. The names "register" and
"status" are reserved where a format is installed or imported, but not here.
Files outside of procdir are named by what follows "admindir/" in a path to them.
-/
namespace BinfmtSupport.Disabling

open CText Kvhash Format Regstring Journal Stores Actions Enabling Installing

abbrev FileName := { name : Text // slash ∉ name ∧ isDirectoryName name = false }

/-- What a path leads to, whether or not there is a file in this place. -/
inductive Place
  | directory
  | inside (name : FileName)
  | outside (file : Text)
deriving DecidableEq

/-- The lookup of the paths that begin with procdir and a slash. A name without slashes is
looked up in procdir itself; where the others lead depends on the directories and the links
of the system. -/
structure Paths where
  place : Text → Place
  place_directory : ∀ name, isDirectoryName name = true → place name = .directory
  place_inside : ∀ name : FileName, place name.val = .inside name

section Source
variable (env : Env) (paths : Paths)

def pathExists (s : Store) : Place → Bool
  | .directory => true
  | .inside name => s.kernel.procExists name.val
  | .outside file => (s.file file).isSome

/-- fopen with "w" empties a file; in procdir it does nothing. Then fputs "-1" and fclose. -/
def writeAt : Place → Act Bool
  | .directory => return false
  | .inside name => writeMinusOne env name.val
  | .outside file => do
      Prog.emit (.create file)
      writeContents env file (text "-1")

def dropPath (name : Text) : Act Bool := do
  if ← succeeds env then
    if paths.place name = .directory then
      warn (.unableToOpenForWriting name)
      return false
    else if ← writeAt env (paths.place name) then
      let s ← Prog.observe
      if pathExists s (paths.place name) then
        warn (.removalIgnored name)
        return false
      else return true
    else
      warn (.unableToClose name)
      return false
  else
    warn (.unableToOpenForWriting name)
    return false

def actDisablePath (name : Text) : Act Bool := do
  let s ← Prog.observe
  if s.kernel.mount.procdir then
    if pathExists s (paths.place name) then
      if env.test then
        answer (.disable name)
        return true
      else dropPath env paths name
    else return true
  else return true

end Source

section Plain
variable (env : Env) (paths : Paths)

theorem place_of_notMem {name : Text} (h : slash ∉ name) : paths.place name = .directory ∨
    ∃ hname, paths.place name = .inside ⟨name, hname⟩ := by
  by_cases hdir : isDirectoryName name = true
  · exact Or.inl (paths.place_directory name hdir)
  · have hname : slash ∉ name ∧ isDirectoryName name = false := ⟨h, Bool.not_eq_true _ ▸ hdir⟩
    exact Or.inr ⟨hname, paths.place_inside ⟨name, hname⟩⟩

/-- Where no name has a slash, nothing more happens than in act_disable without the paths. -/
theorem actDisablePath_eq {name : Text} (h : slash ∉ name) :
    actDisablePath env paths name = actDisableName env name := by
  cases hdir : isDirectoryName name with
  | true =>
    have hplace := paths.place_directory name hdir
    have hdrop : dropPath env paths name = dropEntry env name := by
      rw [dropPath, dropEntry, hplace]
      simp only [hdir, if_pos]
    apply Prog.ext
    intro s m
    rw [actDisablePath, actDisableName, hdrop, hplace, Prog.run_observe_bind,
      Prog.run_observe_bind]
    cases hproc : s.kernel.mount.procdir with
    | true =>
      have hex : s.kernel.procExists name = true := by simp [Kernel.procExists, hproc, hdir]
      simp only [pathExists, hex]
    | false => simp
  | false =>
    have hplace := paths.place_inside ⟨name, h, hdir⟩
    have hdrop : dropPath env paths name = dropEntry env name := by
      rw [dropPath, dropEntry, hplace]
      simp only [hdir, reduceCtorEq, if_false, Bool.false_eq_true]
      rfl
    rw [actDisablePath, actDisableName, hdrop, hplace]
    rfl

end Plain

section Emulated
variable (env : Env)

structure Mirrors (k : Kernel) (e : Emulator.State) : Prop where
  enabled : e.enabled = k.enabled
  entries : ∀ name, isControlName name = false → kvhashExists e.names name = k.hasEntry name

theorem hasEntry_dropEntry (name other : Text) (s : Store) :
    ((Effect.dropEntry name).apply s).kernel.hasEntry other =
      (decide (other ≠ name) && s.kernel.hasEntry other) := by
  rw [Bool.eq_iff_iff]
  simp only [Kernel.hasEntry, Effect.apply, List.any_eq_true, List.mem_filter, decide_eq_true_eq,
    Bool.and_eq_true]
  constructor
  · rintro ⟨e, ⟨he, hne⟩, rfl⟩
    exact ⟨hne, e, he, rfl⟩
  · rintro ⟨hne, e, he, rfl⟩
    exact ⟨e, ⟨he, hne⟩, rfl⟩

/-- What the write does to a file of procdir is what the emulator does with it. -/
theorem mirrors_writeMinusOne (name : FileName) {e : Emulator.State} {s : Store} {m : Memory}
    (h : Mirrors s.kernel e) (hex : s.kernel.procExists name.val = true)
    (hfault : env.faults m.clock = .none) :
    (∃ e', Emulator.write e (slash :: name.val) (text "-1") = .ok e' ∧
      ((writeMinusOne env name.val).run s m).outcome = .returned true ∧
      Mirrors (((writeMinusOne env name.val).run s m).state s).kernel e') ∨
    (∃ why, Emulator.write e (slash :: name.val) (text "-1") = .error why ∧
      ((writeMinusOne env name.val).run s m).outcome = .returned false ∧
      ((writeMinusOne env name.val).run s m).state s = s) := by
  have hrun := run_writeMinusOne env name.val s m
  rw [hfault] at hrun
  have hstatus : text "/status" = slash :: text "status" := by decide
  have hregister : text "/register" = slash :: text "register" := by decide
  have hshort : Emulator.register e (text "-1") = .error .einval := by
    rw [Emulator.register, if_pos (by decide)]
  have hoff : text "-1" ≠ text "1" := by decide
  have hminus : Emulator.stripped (text "-1") = text "-1" := by decide
  rw [hrun, Emulator.write, hstatus, hregister]
  simp only [List.cons.injEq, true_and, List.head?_cons, List.tail_cons, hminus, if_true]
  by_cases hreg : name.val = text "register"
  · right
    have hne : name.val ≠ text "status" := by rw [hreg]; decide
    refine ⟨.einval, ?_, ?_, ?_⟩
    · rw [if_neg hne, if_pos hreg, hshort]
    · rw [if_pos hreg]
    · rw [if_pos hreg]
      rfl
  · by_cases hst : name.val = text "status"
    · left
      refine ⟨{ e with enabled := false }, ?_, ?_, ?_⟩
      · rw [if_pos hst]
        simp [hoff]
      · rw [if_neg hreg, if_pos hst]
      · rw [if_neg hreg, if_pos hst]
        exact ⟨rfl, h.entries⟩
    · left
      have hctl : isControlName name.val = false := by simp [isControlName, hreg, hst]
      have hentry : s.kernel.hasEntry name.val = true := by
        simp only [Kernel.procExists, name.property.2, hctl, Bool.false_or, Bool.and_eq_true]
          at hex
        exact hex.2.2
      refine ⟨{ e with names := e.names.erase name.val }, ?_, ?_, ?_⟩
      · rw [if_neg hst, if_neg hreg, h.entries name.val hctl, hentry]
        simp
      · rw [if_neg hreg, if_neg hst]
      · rw [if_neg hreg, if_neg hst]
        refine ⟨h.enabled, fun other hother => ?_⟩
        change kvhashExists (e.names.erase name.val) other =
          ((Effect.dropEntry name.val).apply s).kernel.hasEntry other
        rw [hasEntry_dropEntry, ← h.entries other hother]
        simp [kvhashExists, AList.mem_erase]

end Emulated

section Runs
variable (env : Env) (paths : Paths)

def struck (name : Text) (time : ℕ) : List Effect :=
  if env.ok time = true ∧ env.faults (time + 1) = .none then
    if name = text "register" then []
    else if name = text "status" then [.status false]
    else [.dropEntry name]
  else []

/-- What the write comes to, and whether the name is gone, once the file is open. -/
theorem dropFails_and_struck {name : Text} {time : ℕ} (hdir : isDirectoryName name = false)
    (hok : env.ok time = true) : (env.faults (time + 1) ≠ .none →
      dropFails env name time = true ∧ struck env name time = []) ∧
    (env.faults (time + 1) = .none → dropFails env name time = isControlName name ∧
      struck env name time = if name = text "register" then []
        else if name = text "status" then [.status false] else [.dropEntry name]) := by
  constructor
  · intro hfault
    refine ⟨?_, if_neg (fun h => hfault h.2)⟩
    simp only [dropFails, hok, hdir, Bool.not_true, Bool.false_or]
    split
    · rfl
    · rfl
    · rename_i hnone
      exact absurd hnone hfault
  · intro hfault
    refine ⟨?_, if_pos ⟨hok, hfault⟩⟩
    simp only [dropFails, hok, hdir, hfault, Bool.not_true, Bool.false_or]

/-- An entry or a control file: it is gone afterwards or act_disable has failed. -/
theorem run_dropPath_inside {name : Text} {file : FileName} (s : Store) (m : Memory)
    (hplace : paths.place name = .inside file) (hex : s.kernel.procExists file.val = true) :
    ∃ m', (dropPath env paths name).run s m =
      ⟨.returned (!dropFails env file.val m.clock), m', struck env file.val m.clock⟩ := by
  have hdir : isDirectoryName file.val = false := file.property.2
  have hwrite := run_writeMinusOne env file.val s m.tick
  have hclock : m.tick.clock = m.clock + 1 := rfl
  rw [hclock] at hwrite
  rw [dropPath, run_succeeds_bind, hplace]
  cases hok : env.ok m.clock with
  | false =>
    have hfails : dropFails env file.val m.clock = true := by simp [dropFails, hok]
    have hstruck : struck env file.val m.clock = [] := if_neg (by simp [hok])
    rw [hfails, hstruck]
    exact ⟨m.tick.warned (.unableToOpenForWriting name), rfl⟩
  | true =>
    obtain ⟨hfaulty, hsound⟩ := dropFails_and_struck env hdir hok
    simp only [reduceCtorEq, if_false, if_true, writeAt]
    cases hfault : env.faults (m.clock + 1) with
    | none =>
      obtain ⟨hfails, hstruck⟩ := hsound hfault
      rw [hfault] at hwrite
      rw [hfails, hstruck]
      by_cases hregister : file.val = text "register"
      · have hctl : isControlName file.val = true := by simp [isControlName, hregister]
        simp only [if_pos hregister] at hwrite ⊢
        refine ⟨m.tick.tick.warned (.unableToClose name), ?_⟩
        rw [Prog.run_bind_returned hwrite, hctl]
        rfl
      · by_cases hstatus : file.val = text "status"
        · have hctl : isControlName file.val = true := by simp [isControlName, hstatus]
          have hstill : (replay [Effect.status false] s).kernel.procExists file.val = true := hex
          simp only [if_neg hregister, if_pos hstatus] at hwrite ⊢
          refine ⟨m.tick.tick.warned (.removalIgnored name), ?_⟩
          rw [Prog.run_bind_returned hwrite, if_pos rfl, Prog.run_observe_bind, pathExists,
            if_pos hstill, hctl]
          rfl
        · have hctl : isControlName file.val = false := by simp [isControlName, hregister, hstatus]
          simp only [if_neg hregister, if_neg hstatus] at hwrite ⊢
          refine ⟨m.tick.tick, ?_⟩
          rw [Prog.run_bind_returned hwrite, if_pos rfl, Prog.run_observe_bind, pathExists,
            replay_cons, replay_nil, apply_def, procExists_dropEntry file.val s hdir hctl, hctl]
          rfl
    | error written =>
      obtain ⟨hfails, hstruck⟩ := hfaulty (by simp [hfault])
      rw [hfault] at hwrite
      rw [hfails, hstruck]
      refine ⟨m.tick.tick.warned (.unableToClose name), ?_⟩
      rw [Prog.run_bind_returned hwrite]
      rfl
    | ignored =>
      obtain ⟨hfails, hstruck⟩ := hfaulty (by simp [hfault])
      rw [hfault] at hwrite
      rw [hfails, hstruck]
      refine ⟨m.tick.tick.warned (.removalIgnored name), ?_⟩
      rw [Prog.run_bind_returned hwrite, if_pos rfl, Prog.run_observe_bind, replay_nil, pathExists,
        if_pos hex]
      rfl

def overwriting (file : Text) (content : List Byte) : List Effect :=
  .create file :: content.map (Effect.append file)

theorem file_replay_overwriting (file key : Text) (content : List Byte) (s : Store) :
    (replay (overwriting file content) s).file key =
      if key = file then some content else s.file key := by
  have hfile : ((Effect.create file).apply s).file file = some [] := by
    rw [file_create, if_pos rfl]
  rw [overwriting, replay_cons, apply_def]
  split
  · subst key
    rw [file_replay_appends file content [] _ hfile, List.nil_append]
  · rename_i hkey
    rw [file_replay_of_notMem, file_create, if_neg hkey]
    intro e he
    obtain ⟨byte, -, rfl⟩ := List.mem_map.mp he
    simpa [Effect.files] using hkey

theorem kernel_replay_overwriting (file : Text) (content : List Byte) (s : Store) :
    (replay (overwriting file content) s).kernel = s.kernel := by
  apply kernel_replay_of_files
  intro e he
  rcases List.mem_cons.mp he with rfl | he
  · simp [Effect.files]
  · obtain ⟨byte, -, rfl⟩ := List.mem_map.mp he
    simp [Effect.files]

theorem run_writeAt_outside (file : Text) (s : Store) (m : Memory) :
    (writeAt env (.outside file)).run s m = ⟨.returned (env.ok m.clock), m.tick,
      overwriting file (leftOf (text "-1") (env.faults m.clock))⟩ := by
  rw [writeAt, Prog.run_emit_bind, run_writeContents]
  rfl

/-- What is outside of procdir does not go away: it is emptied and written to. -/
theorem run_dropPath_outside {name file : Text} (s : Store) (m : Memory)
    (hplace : paths.place name = .outside file) : ∃ m',
    (dropPath env paths name).run s m = ⟨.returned false, m', if env.ok m.clock = true then
      overwriting file (leftOf (text "-1") (env.faults (m.clock + 1))) else []⟩ := by
  rw [dropPath, run_succeeds_bind, hplace]
  cases hok : env.ok m.clock with
  | false => exact ⟨m.tick.warned (.unableToOpenForWriting name), rfl⟩
  | true =>
    have hwrite := run_writeAt_outside env file s m.tick
    have hclock : m.tick.clock = m.clock + 1 := rfl
    rw [hclock] at hwrite
    simp only [reduceCtorEq, if_false, if_true]
    rw [Prog.run_bind_returned hwrite]
    cases env.ok (m.clock + 1) with
    | false =>
      refine ⟨m.tick.tick.warned (.unableToClose name), ?_⟩
      rw [if_neg Bool.false_ne_true, run_warn_bind, Prog.run_pure, Ran.after_mk, List.append_nil]
    | true =>
      have hstill : pathExists (replay (overwriting file
          (leftOf (text "-1") (env.faults (m.clock + 1)))) s) (.outside file) = true := by
        rw [pathExists, file_replay_overwriting, if_pos rfl]
        rfl
      refine ⟨m.tick.tick.warned (.removalIgnored name), ?_⟩
      rw [if_pos rfl, Prog.run_observe_bind, if_pos hstill, run_warn_bind, Prog.run_pure,
        Ran.after_mk, List.append_nil]

theorem run_dropPath_directory {name : Text} (s : Store) (m : Memory)
    (hplace : paths.place name = .directory) : (dropPath env paths name).run s m =
      ⟨.returned false, m.tick.warned (.unableToOpenForWriting name), []⟩ := by
  rw [dropPath, run_succeeds_bind, hplace]
  cases env.ok m.clock <;> rfl

end Runs

structure OnlyEntry (name : Text) (s t : Store) : Prop where
  file : ∀ key, t.file key = s.file key
  mount : t.kernel.mount = s.kernel.mount
  enabled : t.kernel.enabled = s.kernel.enabled
  others : t.kernel.entries.filter (fun e => e.name ≠ name) =
    s.kernel.entries.filter (fun e => e.name ≠ name)

theorem OnlyEntry.refl (name : Text) (s : Store) : OnlyEntry name s s :=
  ⟨fun _ => rfl, rfl, rfl, rfl⟩

def Remains (s : Store) (name : Text) : Prop :=
  s.kernel.hasRegister = true ∧ s.kernel.hasEntry name = true

/-- act_disable only takes away the entry of its name, and has done so when it returns 1 in the
presence of procdir. -/
def Disables (env : Env) (paths : Paths) (name : Text) (s : Store) (m : Memory) : Prop :=
  OnlyEntry name s (((actDisablePath env paths name).run s m).state s) ∧
    (((actDisablePath env paths name).run s m).outcome = .returned true →
      s.kernel.mount.procdir = true →
      ¬ Remains (((actDisablePath env paths name).run s m).state s) name)

/-- The path can be opened and what is written to it changes something else than the entry
of this name: it switches the module off, drops an entry of another name or lands in a file
outside of procdir. -/
def Astray (env : Env) (paths : Paths) (name : Text) (s : Store) (time : ℕ) : Prop :=
  env.test = false ∧ s.kernel.mount.procdir = true ∧ env.ok time = true ∧
    match paths.place name with
    | .directory => False
    | .inside file => env.faults (time + 1) = .none ∧ s.kernel.mount.register = true ∧
        (file.val = text "status" ∧ s.kernel.enabled = true ∨
          isControlName file.val = false ∧ s.kernel.hasEntry file.val = true ∧ file.val ≠ name)
    | .outside file => ∃ content, s.file file = some content ∧
        content ≠ leftOf (text "-1") (env.faults (time + 1))

def Rehearsed (env : Env) (name : Text) (s : Store) : Prop :=
  env.test = true ∧ s.kernel.mount.procdir = true ∧ Remains s name

section Exactness
variable {env : Env} {paths : Paths} {name : Text} {s : Store} {m : Memory}

/-- A path that leads nowhere is taken for a format that is disabled already. -/
theorem run_actDisablePath_idle (env : Env) (paths : Paths) (name : Text) (s : Store) (m : Memory)
    (h : env.test = true ∨ s.kernel.mount.procdir = false ∨
      pathExists s (paths.place name) = false) :
    ∃ m', (actDisablePath env paths name).run s m = ⟨.returned true, m', []⟩ := by
  rw [actDisablePath, Prog.run_observe_bind]
  cases hproc : s.kernel.mount.procdir with
  | false => exact ⟨m, rfl⟩
  | true =>
    cases hex : pathExists s (paths.place name) with
    | false => exact ⟨m, rfl⟩
    | true =>
      have htest : env.test = true := by simpa [hproc, hex] using h
      exact ⟨{ m with answers := m.answers ++ [.disable name] }, by rw [htest]; rfl⟩

theorem run_actDisablePath (htest : env.test = false) (hproc : s.kernel.mount.procdir = true)
    (hex : pathExists s (paths.place name) = true) :
    (actDisablePath env paths name).run s m = (dropPath env paths name).run s m := by
  rw [actDisablePath, Prog.run_observe_bind, if_pos hproc, if_pos hex, htest]
  rfl

theorem not_remains_of_mem (hnames : ∀ e ∈ s.kernel.entries, slash ∉ e.name)
    (hname : slash ∈ name) : ¬ Remains s name := by
  rintro ⟨-, hentry⟩
  obtain ⟨e, he, heq⟩ := List.any_eq_true.mp hentry
  have hsame : e.name = name := by simpa using heq
  exact hnames e he (hsame ▸ hname)

/-- A path to a file of procdir under another name has a slash in this name. -/
theorem mem_of_place_inside {file : FileName} (hplace : paths.place name = .inside file)
    (hne : file.val ≠ name) : slash ∈ name := by
  by_contra hno
  rcases place_of_notMem paths hno with hdir | ⟨hname, hself⟩
  · rw [hdir] at hplace
    cases hplace
  · rw [hself] at hplace
    cases hplace
    exact hne rfl

/-- An idle act_disable has nothing to take away. -/
theorem not_remains_of_idle (hnames : ∀ e ∈ s.kernel.entries, slash ∉ e.name)
    (hex : pathExists s (paths.place name) = false) : ¬ Remains s name := by
  by_cases hname : slash ∈ name
  · exact not_remains_of_mem hnames hname
  · rcases place_of_notMem paths hname with hdir | ⟨hplain, hself⟩
    · rw [hdir] at hex
      cases hex
    · rw [hself, pathExists] at hex
      rintro ⟨hreg, hentry⟩
      simp only [Kernel.hasRegister, Bool.and_eq_true] at hreg
      simp [Kernel.procExists, hreg.1, hreg.2, hentry] at hex

theorem not_astray_of_idle (h : env.test = true ∨ s.kernel.mount.procdir = false ∨
    pathExists s (paths.place name) = false) (time : ℕ) : ¬ Astray env paths name s time := by
  rintro ⟨htest, hproc, -, hplace⟩
  have hex : pathExists s (paths.place name) = false := by simpa [htest, hproc] using h
  cases hto : paths.place name with
  | directory =>
    rw [hto] at hplace
    exact hplace
  | inside file =>
    rw [hto] at hplace hex
    obtain ⟨-, hreg, ⟨hstatus, -⟩ | ⟨-, hentry, -⟩⟩ := hplace
    · simp [pathExists, Kernel.procExists, hproc, hreg, hstatus, isControlName] at hex
    · simp [pathExists, Kernel.procExists, hproc, hreg, hentry] at hex
  | outside file =>
    rw [hto] at hplace hex
    obtain ⟨content, hcontent, -⟩ := hplace
    simp [pathExists, hcontent] at hex

theorem onlyEntry_status_iff : OnlyEntry name s ((Effect.status false).apply s) ↔
    s.kernel.enabled = false :=
  ⟨fun h => h.enabled.symm, fun h => ⟨fun _ => rfl, rfl, h.symm, rfl⟩⟩

/-- Dropping the entries of a name is felt by another name if there are any. -/
theorem onlyEntry_dropEntry_iff {other : Text} :
    OnlyEntry name s ((Effect.dropEntry other).apply s) ↔
      (other = name ∨ s.kernel.hasEntry other = false) := by
  constructor
  · intro h
    by_cases hne : other = name
    · exact Or.inl hne
    · right
      have hothers := h.others
      rw [Bool.eq_false_iff]
      intro hentry
      obtain ⟨e, he, heq⟩ := List.any_eq_true.mp hentry
      have hsame : e.name = other := by simpa using heq
      have hmem : e ∈ s.kernel.entries.filter (fun e => e.name ≠ name) :=
        List.mem_filter.mpr ⟨he, by simpa [hsame] using hne⟩
      rw [← hothers] at hmem
      have hkept := (List.mem_filter.mp (List.mem_filter.mp hmem).1).2
      simp [hsame] at hkept
  · intro h
    refine ⟨fun _ => rfl, rfl, rfl, ?_⟩
    change (s.kernel.entries.filter (fun e => e.name ≠ other)).filter (fun e => e.name ≠ name) =
      s.kernel.entries.filter (fun e => e.name ≠ name)
    rcases h with rfl | hno
    · rw [List.filter_filter]
      simp
    · have hall : s.kernel.entries.filter (fun e => e.name ≠ other) = s.kernel.entries := by
        rw [List.filter_eq_self]
        intro e he
        have hother := List.any_eq_false.mp hno e he
        simpa using hother
      rw [hall]

theorem onlyEntry_overwriting_iff {file : Text} {content left : List Byte}
    (h : s.file file = some content) :
    OnlyEntry name s (replay (overwriting file left) s) ↔ content = left := by
  have hkernel := kernel_replay_overwriting file left s
  constructor
  · intro honly
    have hfile := honly.file file
    rw [file_replay_overwriting, if_pos rfl, h] at hfile
    exact (Option.some.inj hfile).symm
  · rintro rfl
    refine ⟨fun key => ?_, by rw [hkernel], by rw [hkernel], by rw [hkernel]⟩
    rw [file_replay_overwriting]
    split
    · subst key
      exact h.symm
    · rfl

theorem register_of_procExists {file : FileName} (hex : s.kernel.procExists file.val = true) :
    s.kernel.mount.register = true := by
  simp only [Kernel.procExists, file.property.2, Bool.false_or, Bool.and_eq_true] at hex
  exact hex.2.1

theorem onlyEntry_struck_iff {file : FileName} {time : ℕ} (htest : env.test = false)
    (hproc : s.kernel.mount.procdir = true) (hplace : paths.place name = .inside file)
    (hex : s.kernel.procExists file.val = true) :
    OnlyEntry name s (replay (struck env file.val time) s) ↔ ¬ Astray env paths name s time := by
  have hreg := register_of_procExists hex
  have hastray : Astray env paths name s time ↔
      (env.ok time = true ∧ env.faults (time + 1) = .none) ∧
        (file.val = text "status" ∧ s.kernel.enabled = true ∨
          isControlName file.val = false ∧ s.kernel.hasEntry file.val = true ∧
            file.val ≠ name) := by
    simp only [Astray, htest, hproc, hplace, hreg, true_and, and_assoc]
  have hrefuses : text "register" ≠ text "status" := by decide
  rw [hastray, struck]
  by_cases hwritten : env.ok time = true ∧ env.faults (time + 1) = .none
  · rw [if_pos hwritten]
    by_cases hregister : file.val = text "register"
    · rw [if_pos hregister]
      refine iff_of_true (OnlyEntry.refl name s) ?_
      simp [hregister, hrefuses, isControlName]
    · rw [if_neg hregister]
      by_cases hstatus : file.val = text "status"
      · rw [if_pos hstatus, replay_cons, replay_nil, apply_def, onlyEntry_status_iff]
        simp [hwritten, hstatus, isControlName]
      · have hctl : isControlName file.val = false := by simp [isControlName, hregister, hstatus]
        rw [if_neg hstatus, replay_cons, replay_nil, apply_def, onlyEntry_dropEntry_iff]
        simp only [hwritten, hstatus, hctl, true_and, false_and, false_or, and_self, not_and,
          Decidable.not_not]
        cases s.kernel.hasEntry file.val <;> simp
  · rw [if_neg hwritten]
    exact iff_of_true (OnlyEntry.refl name s) (fun h => hwritten h.1)

/-- The entry that act_disable was given is gone when it returns 1. -/
theorem not_remains_struck {file : FileName} {time : ℕ}
    (hnames : ∀ e ∈ s.kernel.entries, slash ∉ e.name) (hplace : paths.place name = .inside file)
    (hworks : dropFails env file.val time = false) :
    ¬ Remains (replay (struck env file.val time) s) name := by
  obtain ⟨hdir, hctl⟩ := plain_of_dropFails env hworks
  by_cases hsame : file.val = name
  · have hstruck : struck env file.val time = [.dropEntry file.val] := by
      have hok : env.ok time = true := by
        simp only [dropFails, Bool.or_eq_false_iff, Bool.not_eq_false'] at hworks
        exact hworks.1.1
      obtain ⟨hfaulty, hsound⟩ := dropFails_and_struck env hdir hok
      by_cases hfault : env.faults (time + 1) = .none
      · simp only [isControlName, Bool.or_eq_false_iff, decide_eq_false_iff_not] at hctl
        rw [(hsound hfault).2, if_neg hctl.1, if_neg hctl.2]
      · rw [(hfaulty hfault).1] at hworks
        cases hworks
    rw [hstruck, replay_cons, replay_nil, apply_def, ← hsame]
    rintro ⟨hreg, hentry⟩
    have hgone := procExists_dropEntry file.val s hdir hctl
    simp only [Kernel.hasRegister, Bool.and_eq_true] at hreg
    simp [Kernel.procExists, hreg.1, hreg.2, hentry] at hgone
  · refine not_remains_of_mem (fun e he => ?_) (mem_of_place_inside hplace hsame)
    refine hnames e ((entries_replay_of_loss _ s (fun x hx => ?_)).mem he)
    unfold struck at hx
    split_ifs at hx <;> simp_all [Effect.isLoss]

end Exactness

/-- act_disable only takes away the entry of its name, unless the path that it makes of the
name leads it astray, and takes it away unless it is only asked to show that it would. -/
theorem disables_iff (env : Env) (paths : Paths) (name : Text) (s : Store) (m : Memory)
    (hnames : ∀ e ∈ s.kernel.entries, slash ∉ e.name) :
    Disables env paths name s m ↔
      ¬ Astray env paths name s m.clock ∧ ¬ Rehearsed env name s := by
  by_cases hidle : env.test = true ∨ s.kernel.mount.procdir = false ∨
      pathExists s (paths.place name) = false
  · obtain ⟨m', hrun⟩ := run_actDisablePath_idle env paths name s m hidle
    rw [Disables, hrun]
    constructor
    · rintro ⟨-, hgone⟩
      exact ⟨not_astray_of_idle hidle m.clock,
        fun ⟨_, hproc, hremains⟩ => hgone rfl hproc hremains⟩
    · rintro ⟨-, hreal⟩
      refine ⟨OnlyEntry.refl name s, fun _ hproc hremains => ?_⟩
      cases htest : env.test with
      | true => exact hreal ⟨htest, hproc, hremains⟩
      | false =>
        have hex : pathExists s (paths.place name) = false := by simpa [htest, hproc] using hidle
        exact not_remains_of_idle hnames hex hremains
  · simp only [not_or, Bool.not_eq_true, Bool.not_eq_false] at hidle
    obtain ⟨htest, hproc, hex⟩ := hidle
    have hreal : ¬ Rehearsed env name s := fun h => Bool.noConfusion (htest.symm.trans h.1)
    rw [Disables, run_actDisablePath htest hproc hex, and_iff_left hreal]
    cases hto : paths.place name with
    | directory =>
      rw [run_dropPath_directory env paths s m hto]
      refine iff_of_true ⟨OnlyEntry.refl name s, by simp⟩ ?_
      simp [Astray, hto]
    | inside file =>
      rw [hto] at hex
      obtain ⟨m', hrun⟩ := run_dropPath_inside env paths s m hto hex
      rw [hrun, ← onlyEntry_struck_iff htest hproc hto hex]
      refine and_iff_left (fun hreturned _ => not_remains_struck hnames hto ?_)
      simpa using hreturned
    | outside file =>
      rw [hto, pathExists] at hex
      obtain ⟨content, hcontent⟩ := Option.isSome_iff_exists.mp hex
      obtain ⟨m', hrun⟩ := run_dropPath_outside env paths s m hto
      rw [hrun]
      refine Iff.trans (and_iff_left (by simp)) ?_
      simp only [Astray, htest, hproc, hto, true_and]
      by_cases hok : env.ok m.clock = true
      · rw [if_pos hok, Ran.state, onlyEntry_overwriting_iff hcontent]
        simp [hok, hcontent]
      · rw [if_neg hok]
        exact iff_of_true (OnlyEntry.refl name s) (fun h => hok h.1)

/-- A system on which a name with slashes leads nowhere. -/
def plainPaths : Paths where
  place := fun name =>
    if hdir : isDirectoryName name = true then .directory
    else if hslash : slash ∈ name then .outside name
    else .inside ⟨name, hslash, Bool.eq_false_iff.mpr hdir⟩
  place_directory := fun _ hdir => dif_pos hdir
  place_inside := fun name => by
    rw [dif_neg (by simp [name.property.2]), dif_neg name.property.1]

def jarStore : Store :=
  { emptyStore with kernel := { emptyStore.kernel with entries :=
      [⟨text "jar", text "M", text "0", text "PK", [], text "/usr/bin/jexec", [[]]⟩,
        ⟨text "wine", text "M", text "0", text "MZ", [], text "/usr/bin/wine", [[]]⟩] } }

theorem not_astray_jar (env : Env) (time : ℕ) :
    ¬ Astray env plainPaths (text "jar") jarStore time := by
  rintro ⟨-, -, -, hplace⟩
  have hto : plainPaths.place (text "jar") = .inside ⟨text "jar", by decide, by decide⟩ := by
    decide
  rw [hto] at hplace
  obtain ⟨-, -, ⟨hstatus, -⟩ | ⟨-, -, hother⟩⟩ := hplace
  · exact absurd hstatus (by decide)
  · exact hother rfl

theorem disables_iff_jar : Disables plainEnv plainPaths (text "jar") jarStore Memory.fresh ∧
    ¬ Disables { plainEnv with test := true } plainPaths (text "jar") jarStore Memory.fresh := by
  have hnames : ∀ e ∈ jarStore.kernel.entries, slash ∉ e.name := by decide
  constructor
  · refine (disables_iff plainEnv plainPaths (text "jar") jarStore Memory.fresh hnames).mpr
      ⟨not_astray_jar plainEnv _, ?_⟩
    rintro ⟨htest, -⟩
    cases htest
  · intro h
    exact ((disables_iff { plainEnv with test := true } plainPaths (text "jar") jarStore
      Memory.fresh hnames).mp h).2 ⟨rfl, rfl, rfl, by decide⟩

/-- With the name "status" the whole module is switched off, and act_disable fails. -/
theorem disable_status_astray : (∀ e ∈ emptyStore.kernel.entries, slash ∉ e.name) ∧
    emptyStore.kernel.enabled = true ∧
    ((((actDisablePath plainEnv plainPaths (text "status")).run emptyStore
      Memory.fresh).state emptyStore).kernel.enabled = false) ∧
    ((actDisablePath plainEnv plainPaths (text "status")).run emptyStore
      Memory.fresh).outcome = .returned false ∧
    ¬ Disables plainEnv plainPaths (text "status") emptyStore Memory.fresh := by
  have hoff : (((actDisablePath plainEnv plainPaths (text "status")).run emptyStore
      Memory.fresh).state emptyStore).kernel.enabled = false := by decide +kernel
  refine ⟨by simp [emptyStore], rfl, hoff, by decide +kernel, fun h => ?_⟩
  have hon := h.1.enabled
  rw [hoff] at hon
  cases hon

end BinfmtSupport.Disabling
