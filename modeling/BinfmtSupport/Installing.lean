import BinfmtSupport.Enabling

/-!
What act_disable, act_install and act_remove do for one name. An installation drops the
entry, clears and fills the temporary file, moves it into place and enables the format,
in this order; it can stop after each of these steps and takes nothing back.
-/
namespace BinfmtSupport.Installing

open CText Kvhash Format Regstring Journal Stores Actions Loading Enabling

section Disable
variable (env : Env)

/-- Whether writing "-1" to an existing name of procdir leaves it there. -/
def dropFails (name : Text) (time : ℕ) : Bool :=
  !env.ok time || isDirectoryName name ||
    match env.faults (time + 1) with
    | .error _ => true
    | .ignored => true
    | .none => isControlName name

theorem procExists_dropEntry (name : Text) (s : Store) (hdir : isDirectoryName name = false)
    (hctl : isControlName name = false) :
    ((Effect.dropEntry name).apply s).kernel.procExists name = false := by
  simp [Effect.apply, Kernel.procExists, Kernel.hasEntry, hdir, hctl]

theorem plain_of_dropFails {name : Text} {time : ℕ} (h : dropFails env name time = false) :
    isDirectoryName name = false ∧ isControlName name = false := by
  simp only [dropFails, Bool.or_eq_false_iff] at h
  obtain ⟨⟨-, hdir⟩, hfault⟩ := h
  split at hfault
  · cases hfault
  · cases hfault
  · exact ⟨hdir, hfault⟩

theorem run_writeMinusOne (name : Text) (s : Store) (m : Memory) :
    (writeMinusOne env name).run s m =
      match env.faults m.clock with
      | .error _ => ⟨.returned false, m.tick, []⟩
      | .ignored => ⟨.returned true, m.tick, []⟩
      | .none => if name = text "register" then ⟨.returned false, m.tick, []⟩
          else if name = text "status" then ⟨.returned true, m.tick, [.status false]⟩
          else ⟨.returned true, m.tick, [.dropEntry name]⟩ := by
  rw [writeMinusOne, run_nextFault_bind]
  cases env.faults m.clock with
  | none =>
    simp only []
    split
    · rfl
    · split <;> rfl
  | error written => rfl
  | ignored => rfl

/-- dropEntry once the file of the entry is open. -/
theorem run_dropEntry (name : Text) (s : Store) (m : Memory) :
    (Actions.dropEntry env name).run s m =
      if env.ok m.clock = true ∧ isDirectoryName name = false then
        ((writeMinusOne env name >>= fun written => if written = true then do
            let s ← Prog.observe
            if s.kernel.procExists name then
              warn (.removalIgnored name)
              return false
            else return true
          else do
            warn (.unableToClose name)
            return false) : Act Bool).run s m.tick
      else ⟨.returned false, m.tick.warned (.unableToOpenForWriting name), []⟩ := by
  rw [Actions.dropEntry, run_succeeds_bind]
  cases env.ok m.clock with
  | true =>
    cases isDirectoryName name with
    | true => rfl
    | false => rfl
  | false => rfl

theorem run_dropEntry_works (name : Text) (s : Store) (m : Memory)
    (h : dropFails env name m.clock = false) :
    (Actions.dropEntry env name).run s m = ⟨.returned true, m.tick.tick, [.dropEntry name]⟩ := by
  simp only [dropFails, Bool.or_eq_false_iff, Bool.not_eq_false'] at h
  obtain ⟨⟨hok, hdir⟩, hfault⟩ := h
  have hwrite := run_writeMinusOne env name s m.tick
  have hclock : m.tick.clock = m.clock + 1 := rfl
  rw [hclock] at hwrite
  split at hfault
  · cases hfault
  · cases hfault
  · rename_i hnone
    have hctl := hfault
    simp only [isControlName, Bool.or_eq_false_iff, decide_eq_false_iff_not] at hfault
    rw [hnone] at hwrite
    simp only [hfault.1, hfault.2, if_false] at hwrite
    rw [run_dropEntry, if_pos ⟨hok, hdir⟩, Prog.run_bind_returned hwrite, if_pos rfl,
      Prog.run_observe_bind, if_neg]
    · rfl
    · rw [replay_cons, replay_nil, apply_def, procExists_dropEntry name s hdir hctl]
      simp

/-- A name that stays costs at most the switch of the whole module. -/
theorem run_dropEntry_fails (name : Text) (s : Store) (m : Memory)
    (hex : s.kernel.procExists name = true) (h : dropFails env name m.clock = true) :
    ∃ m' es, (Actions.dropEntry env name).run s m = ⟨.returned false, m', es⟩ ∧
      m'.formats = m.formats ∧ (es = [] ∨ es = [.status false]) := by
  rw [run_dropEntry]
  split
  · rename_i hopen
    have hwrite := run_writeMinusOne env name s m.tick
    have hclock : m.tick.clock = m.clock + 1 := rfl
    rw [hclock] at hwrite
    simp only [dropFails, hopen.1, hopen.2, Bool.not_true, Bool.false_or] at h
    split at h
    · rename_i written hfault
      rw [hfault] at hwrite
      refine ⟨m.tick.tick.warned (.unableToClose name), [], ?_, rfl, Or.inl rfl⟩
      rw [Prog.run_bind_returned hwrite]
      rfl
    · rename_i hfault
      rw [hfault] at hwrite
      refine ⟨m.tick.tick.warned (.removalIgnored name), [], ?_, rfl, Or.inl rfl⟩
      rw [Prog.run_bind_returned hwrite, if_pos rfl, Prog.run_observe_bind, replay_nil, if_pos hex]
      rfl
    · rename_i hfault
      rw [hfault] at hwrite
      by_cases hregister : name = text "register"
      · simp only [if_pos hregister] at hwrite
        refine ⟨m.tick.tick.warned (.unableToClose name), [], ?_, rfl, Or.inl rfl⟩
        rw [Prog.run_bind_returned hwrite]
        rfl
      · have hstatus : name = text "status" := by
          simpa [isControlName, hregister] using h
        simp only [if_neg hregister, if_pos hstatus] at hwrite
        refine ⟨m.tick.tick.warned (.removalIgnored name), [.status false], ?_, rfl, Or.inr rfl⟩
        have hstill : (replay [Effect.status false] s).kernel.procExists name = true := hex
        rw [Prog.run_bind_returned hwrite, if_pos rfl, Prog.run_observe_bind, if_pos hstill]
        rfl
  · exact ⟨_, [], rfl, rfl, Or.inl rfl⟩

/-- Under --test nothing is dropped, only shown. -/
theorem run_actDisableName_test (htest : env.test = true) (name : Text) (s : Store)
    (m : Memory) : ∃ m', (actDisableName env name).run s m = ⟨.returned true, m', []⟩ := by
  rw [actDisableName, Prog.run_observe_bind, htest]
  split
  · split
    · exact ⟨{ m with answers := m.answers ++ [.disable name] }, rfl⟩
    · exact ⟨m, rfl⟩
  · exact ⟨m, rfl⟩

theorem run_actDisableName (htest : env.test = false) (name : Text) (s : Store) (m : Memory) :
    (actDisableName env name).run s m = if s.kernel.procExists name = true then
      (Actions.dropEntry env name).run s m else ⟨.returned true, m, []⟩ := by
  rw [actDisableName, Prog.run_observe_bind]
  by_cases hproc : s.kernel.mount.procdir = true
  · rw [if_pos hproc]
    split
    · rw [if_neg (by simp [htest])]
    · rfl
  · have hno : s.kernel.procExists name = false := by simp [Kernel.procExists, hproc]
    rw [if_neg hproc, if_neg (by simp [hno])]
    rfl

structure Dropped (name : Text) (s : Store) (es : List Effect) : Prop where
  shape : es = [] ∧ s.kernel.procExists name = false ∨
    es = [.dropEntry name] ∧ s.kernel.procExists name = true
  gone : (replay es s).kernel.procExists name = false

theorem Dropped.files {name : Text} {s : Store} {es : List Effect} (h : Dropped name s es) :
    ∀ e ∈ es, e.files = [] := by
  intro e he
  rcases h.shape with ⟨rfl, -⟩ | ⟨rfl, -⟩
  · simp at he
  · rw [List.mem_singleton.mp he]
    rfl

theorem Dropped.loss {name : Text} {s : Store} {es : List Effect} (h : Dropped name s es) :
    ∀ e ∈ es, e.isLoss = true := by
  intro e he
  rcases h.shape with ⟨rfl, -⟩ | ⟨rfl, -⟩
  · simp at he
  · rw [List.mem_singleton.mp he]
    rfl

theorem Dropped.admindir {name : Text} {s : Store} {es : List Effect} (h : Dropped name s es) :
    (replay es s).admindir = s.admindir := admindir_replay_of_noFiles es s h.files

/-- Disabling drops what is in procdir, or fails and leaves it there. -/
theorem actDisableName_cases (htest : env.test = false) (name : Text) (s : Store) (m : Memory) :
    (∃ m' es, (actDisableName env name).run s m = ⟨.returned true, m', es⟩ ∧
      m'.formats = m.formats ∧ Dropped name s es ∧ (es = [] → m' = m) ∧
      (es ≠ [] → dropFails env name m.clock = false)) ∨
    (∃ m' es, (actDisableName env name).run s m = ⟨.returned false, m', es⟩ ∧
      m'.formats = m.formats ∧ (es = [] ∨ es = [.status false]) ∧
      s.kernel.procExists name = true ∧ dropFails env name m.clock = true) := by
  rw [run_actDisableName env htest]
  split
  · rename_i hex
    cases hfails : dropFails env name m.clock with
    | true =>
      right
      obtain ⟨m', es, hrun, hf, hes⟩ := run_dropEntry_fails env name s m hex hfails
      exact ⟨m', es, hrun, hf, hes, hex, rfl⟩
    | false =>
      left
      refine ⟨m.tick.tick, _, run_dropEntry_works env name s m hfails, rfl,
        ⟨Or.inr ⟨rfl, hex⟩, ?_⟩, by simp, fun _ => rfl⟩
      obtain ⟨hdir, hctl⟩ := plain_of_dropFails env hfails
      exact procExists_dropEntry name s hdir hctl
  · rename_i hex
    rw [Bool.not_eq_true] at hex
    left
    exact ⟨m, [], rfl, rfl, ⟨Or.inl ⟨rfl, hex⟩, hex⟩, fun _ => rfl, by simp⟩

theorem loss_of_status {es : List Effect} (h : es = [] ∨ es = [.status false]) :
    ∀ e ∈ es, e.isLoss = true := by
  rcases h with rfl | rfl <;> simp [Effect.isLoss]

/-- Disabling one name takes away its entry at most. -/
theorem loss_actDisableName (name : Text) (s : Store) (m : Memory) :
    ∀ e ∈ ((actDisableName env name).run s m).effects, e.isLoss = true := by
  cases htest : env.test with
  | true =>
    obtain ⟨m', hrun⟩ := run_actDisableName_test env htest name s m
    rw [hrun]
    simp
  | false =>
    rcases actDisableName_cases env htest name s m with
      ⟨m', es, hrun, -, hdrop, -⟩ | ⟨m', es, hrun, -, hes, -⟩
    · rw [hrun]
      exact hdrop.loss
    · rw [hrun]
      exact loss_of_status hes

end Disable

section Files

/-- The steps by which a file is made anew, whether or not there was one. -/
def clearing (s : Store) (file : Text) : List Effect :=
  if (s.file file).isSome = true then [.unlink file] else []

def writing (s : Store) (file : Text) (bytes : List Byte) : List Effect :=
  clearing s file ++ .create file :: bytes.map (Effect.append file)

def moving (s : Store) (name : Text) (b : Binfmt) : List Effect :=
  writing s (tmpName name) b.contents ++ [.rename (tmpName name) name]

theorem tmpName_ne (name : Text) : name ≠ tmpName name := by
  intro h
  have hlen := congrArg List.length h
  simp [tmpName, text] at hlen

theorem file_replay_clearing (s : Store) (file key : Text) :
    (replay (clearing s file) s).file key = if key = file then none else s.file key := by
  unfold clearing
  split
  · rw [replay_cons, replay_nil, apply_def, file_unlink]
  · rename_i hno
    split
    · subst key
      simpa using hno
    · rfl

theorem file_replay_writing (s : Store) (file key : Text) (bytes : List Byte) :
    (replay (writing s file bytes) s).file key =
      if key = file then some bytes else s.file key := by
  unfold writing
  rw [replay_append, replay_cons, apply_def]
  by_cases hk : key = file
  · subst hk
    rw [file_replay_appends key bytes [], if_pos rfl, List.nil_append]
    rw [file_create, if_pos rfl]
  · rw [file_replay_of_notMem, file_create, if_neg hk, file_replay_clearing, if_neg hk, if_neg hk]
    intro e he
    obtain ⟨byte, -, rfl⟩ := List.mem_map.mp he
    simpa [Effect.files] using hk

/-- A complete installation leaves the new record and no temporary file. -/
theorem file_replay_moving (s : Store) (name key : Text) (b : Binfmt) :
    (replay (moving s name b) s).file key =
      if key = name then some b.contents
      else if key = tmpName name then none else s.file key := by
  have htmp : (replay (writing s (tmpName name) b.contents) s).file (tmpName name) =
      some b.contents := by
    rw [file_replay_writing, if_pos rfl]
  unfold moving
  rw [replay_append, replay_cons, replay_nil, apply_def, file_rename _ htmp, file_replay_writing]
  split
  · rfl
  · split <;> rfl

theorem files_of_mem_clearing {s : Store} {file : Text} {e : Effect}
    (h : e ∈ clearing s file) : e.files ≠ [] := by
  unfold clearing at h
  split at h
  · rw [List.mem_singleton] at h
    subst h
    simp [Effect.files]
  · simp at h

theorem files_of_mem_writing {s : Store} {file : Text} {bytes : List Byte} {e : Effect}
    (h : e ∈ writing s file bytes) : e.files ≠ [] := by
  simp only [writing, List.mem_append, List.mem_cons, List.mem_map] at h
  rcases h with h | rfl | ⟨byte, -, rfl⟩
  · exact files_of_mem_clearing h
  · simp [Effect.files]
  · simp [Effect.files]

theorem files_of_mem_moving {s : Store} {name : Text} {b : Binfmt} {e : Effect}
    (h : e ∈ moving s name b) : e.files ≠ [] := by
  simp only [moving, List.mem_append, List.mem_singleton] at h
  rcases h with h | rfl
  · exact files_of_mem_writing h
  · simp [Effect.files]

theorem loss_clearing (s : Store) (file : Text) : ∀ e ∈ clearing s file, e.isLoss = true := by
  unfold clearing
  split <;> simp [Effect.isLoss]

theorem clearing_congr {s u : Store} (h : u.admindir = s.admindir) (file : Text) :
    clearing u file = clearing s file := by
  have hfile : u.file file = s.file file := by simp only [Store.file, h]
  unfold clearing
  rw [hfile]

theorem writing_congr {s u : Store} (h : u.admindir = s.admindir) (file : Text)
    (bytes : List Byte) : writing u file bytes = writing s file bytes := by
  unfold writing
  rw [clearing_congr h]

theorem moving_congr {s u : Store} (h : u.admindir = s.admindir) (name : Text) (b : Binfmt) :
    moving u name b = moving s name b := by
  unfold moving
  rw [writing_congr h]

/-- The files after the entry was dropped and the new file moved into place. -/
theorem file_replay_dropped_moving {name : Text} {s : Store} {drop : List Effect}
    (h : Dropped name s drop) (b : Binfmt) (key : Text) :
    (replay (drop ++ moving s name b) s).file key =
      if key = name then some b.contents
      else if key = tmpName name then none else s.file key := by
  rw [replay_append, ← moving_congr h.admindir, file_replay_moving]
  simp only [Store.file, h.admindir]

inductive Unmoved (s : Store) (name : Text) (b : Binfmt) : List Effect → Prop
  | untouched : Unmoved s name b []
  | cleared : Unmoved s name b (clearing s (tmpName name))
  | written (k : ℕ) : Unmoved s name b (writing s (tmpName name) (b.contents.take k))

theorem Unmoved.files {s : Store} {name : Text} {b : Binfmt} {es : List Effect}
    (h : Unmoved s name b es) : ∀ e ∈ es, e.files ≠ [] := by
  intro e he
  cases h with
  | untouched => simp at he
  | cleared => exact files_of_mem_clearing he
  | written k => exact files_of_mem_writing he

theorem Unmoved.congr {s u : Store} {name : Text} {b : Binfmt} {es : List Effect}
    (hadm : u.admindir = s.admindir) (h : Unmoved s name b es) : Unmoved u name b es := by
  cases h with
  | untouched => exact .untouched
  | cleared =>
    rw [← clearing_congr hadm]
    exact .cleared
  | written k =>
    rw [← writing_congr hadm]
    exact .written k

/-- Until the move only the temporary file changes. -/
theorem Unmoved.file {s : Store} {name : Text} {b : Binfmt} {es : List Effect}
    (h : Unmoved s name b es) (key : Text) (hk : key ≠ tmpName name) :
    (replay es s).file key = s.file key := by
  cases h with
  | untouched => rfl
  | cleared => rw [file_replay_clearing, if_neg hk]
  | written k => rw [file_replay_writing, if_neg hk]

end Files

section Write
variable (env : Env)

theorem run_unlinkFile (file : Text) (s : Store) (m : Memory) :
    (unlinkFile env file).run s m =
      if env.ok m.clock = true then ⟨.returned true, m.tick, clearing s file⟩
      else ⟨.returned false, m.tick, []⟩ := by
  rw [unlinkFile, run_succeeds_bind]
  split
  · rw [Prog.run_observe_bind, clearing]
    split <;> rfl
  · rfl

def leftOf (content : List Byte) : Fault → List Byte
  | .error written => content.take written
  | _ => content

theorem run_writeContents (file : Text) (content : List Byte) (s : Store) (m : Memory) :
    (writeContents env file content).run s m = ⟨.returned (env.ok m.clock), m.tick,
      (leftOf content (env.faults m.clock)).map (Effect.append file)⟩ := by
  rw [writeContents, run_nextFault_bind, Env.ok]
  cases env.faults m.clock <;>
    simp only [run_appendBytes_bind, Prog.run_pure, Ran.after_mk, List.append_nil, leftOf]

theorem writeContents_cases (file : Text) (content : List Byte) (s : Store) (m : Memory) :
    ((writeContents env file content).run s m =
      ⟨.returned true, m.tick, content.map (Effect.append file)⟩) ∨
    (∃ k, (writeContents env file content).run s m =
        ⟨.returned false, m.tick, (content.take k).map (Effect.append file)⟩ ∧
      env.ok m.clock = false) := by
  rw [run_writeContents, Env.ok]
  cases env.faults m.clock with
  | none => exact Or.inl rfl
  | ignored => exact Or.inl rfl
  | error k => exact Or.inr ⟨k, rfl, rfl⟩

/-- Until the file is open the record plays no part. -/
theorem run_binfmtWrite (binfmt : Option Binfmt) (file : Text) (s : Store) (m : Memory) :
    (binfmtWrite env binfmt file).run s m =
      if env.ok m.clock = true then
        if env.ok (m.clock + 1) = true then
          ((match binfmt with
            | none => Prog.crash
            | some b => do
              if ← writeContents env file b.contents then return true
              else
                warn (.unableToClose file)
                return false : Act Bool).run
            (replay (clearing s file ++ [.create file]) s) m.tick.tick).after
              (clearing s file ++ [.create file])
        else ⟨.returned false, m.tick.tick.warned (.unableToOpenForWriting file), clearing s file⟩
      else ⟨.returned false, m.tick.warned (.unableToEnsureNonexistent file), []⟩ := by
  have hunlink := run_unlinkFile env file s m
  split at hunlink
  · rename_i hok
    rw [binfmtWrite.eq_def, Prog.run_bind_returned hunlink, if_pos hok, if_pos rfl,
      run_succeeds_bind]
    have hclock : m.tick.clock = m.clock + 1 := rfl
    rw [hclock]
    split
    · rw [Prog.run_emit_bind, Ran.after_after, replay_append]
      rfl
    · rw [run_warn_bind, Prog.run_pure, Ran.after_mk, List.append_nil]
  · rename_i hok
    rw [binfmtWrite.eq_def, Prog.run_bind_returned hunlink, if_neg hok]
    rfl

/-- The file is written if it can be unlinked, opened and written to. -/
theorem binfmtWrite_outcome (binfmt : Option Binfmt) (file : Text) (s : Store)
    (m : Memory) : ((binfmtWrite env binfmt file).run s m).outcome =
      if env.ok m.clock = true ∧ env.ok (m.clock + 1) = true then
        if binfmt.isSome = true then .returned (env.ok (m.clock + 2)) else .crashed
      else .returned false := by
  rw [run_binfmtWrite]
  cases env.ok m.clock with
  | false => rfl
  | true =>
    cases env.ok (m.clock + 1) with
    | false => rfl
    | true =>
      simp only [if_true, and_self, Ran.outcome_after]
      cases binfmt with
      | none => rfl
      | some b =>
        simp only [Option.isSome_some, if_true]
        rw [Prog.run_bind_returned (run_writeContents env file b.contents _ m.tick.tick)]
        have hclock : m.tick.tick.clock = m.clock + 2 := rfl
        rw [hclock]
        cases env.ok (m.clock + 2) <;> rfl

theorem binfmtWrite_works_iff (b : Binfmt) (file : Text) (s : Store) (m : Memory) :
    ((binfmtWrite env (some b) file).run s m).outcome = .returned true ↔
      ∀ i < 3, env.ok (m.clock + i) = true := by
  rw [binfmtWrite_outcome]
  constructor
  · intro h i hi
    split at h
    · rename_i hopen
      obtain rfl | rfl | rfl : i = 0 ∨ i = 1 ∨ i = 2 := by omega
      · exact hopen.1
      · exact hopen.2
      · exact Outcome.returned.inj h
    · cases h
  · intro h
    rw [if_pos ⟨h 0 (by decide), h 1 (by decide)⟩, h 2 (by decide)]
    rfl

/-- The file is written completely, or the work on it stops somewhere. -/
theorem binfmtWrite_cases (b : Binfmt) (file : Text) (s : Store) (m : Memory) :
    (∃ m', (binfmtWrite env (some b) file).run s m =
        ⟨.returned true, m', writing s file b.contents⟩ ∧ m'.formats = m.formats) ∨
    (∃ m' es, (binfmtWrite env (some b) file).run s m = ⟨.returned false, m', es⟩ ∧
      m'.formats = m.formats ∧ (∃ time, env.ok time = false) ∧
      (es = [] ∨ es = clearing s file ∨ ∃ k, es = writing s file (b.contents.take k))) := by
  rw [run_binfmtWrite]
  split
  · split
    · rcases writeContents_cases env file b.contents
          (replay (clearing s file ++ [.create file]) s) m.tick.tick with hrun | ⟨k, hrun, hfail⟩
      · left
        refine ⟨m.tick.tick.tick, ?_, rfl⟩
        simp only [Prog.run_bind_returned hrun, if_true, Prog.run_pure, Ran.after_mk, writing,
          List.append_nil, List.append_assoc, List.singleton_append]
      · right
        refine ⟨m.tick.tick.tick.warned (.unableToClose file), _, ?_, rfl, ⟨_, hfail⟩,
          Or.inr (Or.inr ⟨k, rfl⟩)⟩
        simp only [Prog.run_bind_returned hrun, Bool.false_eq_true, if_false, run_warn_bind,
          Prog.run_pure, Ran.after_mk, writing, List.append_nil, List.append_assoc,
          List.singleton_append]
    · rename_i hfail
      right
      exact ⟨_, _, rfl, rfl, ⟨_, by simpa using hfail⟩, Or.inr (Or.inl rfl)⟩
  · rename_i hfail
    right
    exact ⟨_, _, rfl, rfl, ⟨_, by simpa using hfail⟩, Or.inl rfl⟩

theorem tryRename_cases (source dest : Text) (s : Store) (m : Memory) :
    ((tryRename env source dest).run s m = ⟨.returned true, m.tick, [.rename source dest]⟩ ∧
      isDirectoryName dest = false) ∨
    ((tryRename env source dest).run s m = ⟨.returned false, m.tick, []⟩ ∧
      (env.ok m.clock = false ∨ isDirectoryName dest = true)) := by
  cases hok : env.ok m.clock with
  | false =>
    right
    refine ⟨?_, Or.inl rfl⟩
    rw [tryRename, run_succeeds_bind, hok]
    rfl
  | true =>
    cases hdir : isDirectoryName dest with
    | true =>
      right
      refine ⟨?_, Or.inr rfl⟩
      rw [tryRename, run_succeeds_bind, hok, hdir]
      rfl
    | false =>
      left
      refine ⟨?_, rfl⟩
      rw [tryRename, run_succeeds_bind, hok, hdir]
      rfl

theorem renameMv_cases (source dest : Text) (s : Store) (m : Memory) :
    (∃ m', (renameMv env source dest).run s m = ⟨.returned true, m', [.rename source dest]⟩ ∧
      m'.formats = m.formats ∧ isDirectoryName dest = false) ∨
    (∃ m', (renameMv env source dest).run s m = ⟨.returned false, m', []⟩ ∧
      m'.formats = m.formats ∧ (Reliable env → isDirectoryName dest = true)) := by
  rcases tryRename_cases env source dest s m with ⟨hrun, hdir⟩ | ⟨hrun, -⟩
  · left
    refine ⟨m.tick, ?_, rfl, hdir⟩
    rw [renameMv, Prog.run_bind_returned hrun]
    rfl
  · have hstep : (renameMv env source dest).run s m =
        (tryRename env source dest).run s m.tick := by
      rw [renameMv, Prog.run_bind_returned hrun]
      rfl
    rw [hstep]
    rcases tryRename_cases env source dest s m.tick with ⟨hrun', hdir⟩ | ⟨hrun', hwhy⟩
    · left
      exact ⟨m.tick.tick, hrun', rfl, hdir⟩
    · right
      refine ⟨m.tick.tick, hrun', rfl, ?_⟩
      intro hrel
      rcases hwhy with hfail | hdir
      · rw [ok_of_reliable hrel] at hfail
        cases hfail
      · exact hdir

end Write

section Install
variable (env : Env)

/-- The end of act_install has the outcome and the effects of act_enable. -/
theorem enableInstalled_run (name : Text) (b : Binfmt) (s : Store) (m m₁ m' : Memory)
    (hm : m₁ = { m with formats := kvhashInsert m.formats name b }) (o : Outcome Bool)
    (es : List Effect) (h : (actEnableName env name).run s m₁ = ⟨o, m', es⟩) :
    ∃ m'', (enableInstalled env name b).run s m = ⟨o, m'', es⟩ ∧ m''.formats = m'.formats := by
  subst hm
  cases o with
  | returned r =>
    cases r with
    | true =>
      refine ⟨m', ?_, rfl⟩
      rw [enableInstalled, Prog.run_remember_bind, Prog.run_bind_returned h, if_pos rfl,
        Prog.run_pure, Ran.after_mk, List.append_nil]
    | false =>
      refine ⟨m'.warned (.unableToEnable name), ?_, rfl⟩
      rw [enableInstalled, Prog.run_remember_bind, Prog.run_bind_returned h,
        if_neg Bool.false_ne_true, run_warn_bind, Prog.run_pure, Ran.after_mk, List.append_nil]
  | exited status =>
    refine ⟨m', ?_, rfl⟩
    rw [enableInstalled, Prog.run_remember_bind, Prog.run_bind_exited h]
  | crashed =>
    refine ⟨m', ?_, rfl⟩
    rw [enableInstalled, Prog.run_remember_bind, Prog.run_bind_crashed h]

/-- Either the new file is not moved into place, or it is and act_enable follows. -/
theorem installFile_cases (htest : env.test = false) (name : Text) (b : Binfmt) (s : Store)
    (m : Memory) :
    (∃ m' es, (installFile env name (some b)).run s m = ⟨.returned false, m', es⟩ ∧
      Unmoved s name b es ∧ (Reliable env → isDirectoryName name = true)) ∨
    (∃ m₁, m₁.formats = m.formats ∧ isDirectoryName name = false ∧
      (installFile env name (some b)).run s m =
        ((enableInstalled env name b).run (replay (moving s name b) s) m₁).after
          (moving s name b)) := by
  have hskip : (installFile env name (some b)).run s m =
      ((binfmtWrite env (some b) (tmpName name) >>= fun ok => if ok = true then do
          if ← renameMv env (tmpName name) name then enableInstalled env name b
          else
            warn (.unableToInstall (tmpName name) name)
            return false
        else return false : Act Bool)).run s m := by
    rw [installFile.eq_def, if_neg (by simp [htest])]
  rw [hskip]
  rcases binfmtWrite_cases env b (tmpName name) s m with
    ⟨m₁, hwrite, hf₁⟩ | ⟨m₁, es, hwrite, -, ⟨time, hfail⟩, hes⟩
  · rw [Prog.run_bind_returned hwrite, if_pos rfl]
    rcases renameMv_cases env (tmpName name) name
        (replay (writing s (tmpName name) b.contents) s) m₁ with
      ⟨m₂, hmove, hf₂, hdir⟩ | ⟨m₂, hmove, -, hdir⟩
    · right
      refine ⟨m₂, hf₂.trans hf₁, hdir, ?_⟩
      rw [Prog.run_bind_returned hmove, if_pos rfl, Ran.after_after, ← replay_append]
      rfl
    · left
      refine ⟨m₂.warned (.unableToInstall (tmpName name) name),
        writing s (tmpName name) b.contents, ?_, ?_, hdir⟩
      · rw [Prog.run_bind_returned hmove, if_neg Bool.false_ne_true, run_warn_bind,
          Prog.run_pure, Ran.after_mk, Ran.after_mk, List.append_nil, List.append_nil]
      · have hfull : Unmoved s name b
            (writing s (tmpName name) (b.contents.take b.contents.length)) := .written _
        rwa [List.take_length] at hfull
  · left
    refine ⟨m₁, es, ?_, ?_, ?_⟩
    · rw [Prog.run_bind_returned hwrite, if_neg Bool.false_ne_true, Prog.run_pure, Ran.after_mk,
        List.append_nil]
    · rcases hes with rfl | rfl | ⟨k, rfl⟩
      · exact .untouched
      · exact .cleared
      · exact .written k
    · intro hrel
      rw [ok_of_reliable hrel] at hfail
      cases hfail

/-- An entry that is still in procdir is left alone, and so is the database. -/
theorem run_installUnlessManual (htest : env.test = false) (name : Text)
    (binfmt : Option Binfmt) (s : Store) (m : Memory) :
    (installUnlessManual env name binfmt).run s m = if s.kernel.procExists name = true then
      ⟨.returned true, m.warned (.manuallyCreated name), []⟩
    else (installFile env name binfmt).run s m := by
  rw [installUnlessManual, Prog.run_observe_bind]
  cases s.kernel.procExists name with
  | true =>
    rw [if_pos (by simp [htest]), if_pos rfl]
    rfl
  | false => rw [if_neg (by simp), if_neg Bool.false_ne_true]

/-- act_install once the packages agree. -/
theorem replaceFormat_cases (htest : env.test = false) (name : Text) (binfmt : Option Binfmt)
    (s : Store) (m : Memory) :
    (∃ m', (replaceFormat env name binfmt).run s m = ⟨.returned true, m', []⟩ ∧
      s.file name = none ∧ s.kernel.procExists name = true) ∨
    (∃ m' es, (replaceFormat env name binfmt).run s m = ⟨.returned false, m', es⟩ ∧
      (es = [] ∨ es = [.status false]) ∧ (s.file name).isSome = true ∧
      s.kernel.procExists name = true ∧ dropFails env name m.clock = true) ∨
    (∃ m₁ es, m₁.formats = m.formats ∧ Dropped name s es ∧
      (es ≠ [] → (s.file name).isSome = true ∧ dropFails env name m.clock = false) ∧
      (es = [] → m₁ = m) ∧
      (replaceFormat env name binfmt).run s m =
        ((installFile env name binfmt).run (replay es s) m₁).after es) := by
  have hmanual := run_installUnlessManual env htest name binfmt
  cases hfile : s.file name with
  | none =>
    have hstep : (replaceFormat env name binfmt).run s m =
        (installUnlessManual env name binfmt).run s m := by
      rw [replaceFormat, Prog.run_observe_bind, if_neg (by simp [hfile])]
    rw [hstep, hmanual]
    cases hex : s.kernel.procExists name with
    | true =>
      left
      exact ⟨_, rfl, rfl, rfl⟩
    | false =>
      right
      right
      exact ⟨m, [], rfl, ⟨Or.inl ⟨rfl, hex⟩, hex⟩, by simp, fun _ => rfl, rfl⟩
  | some content =>
    right
    rcases actDisableName_cases env htest name s m with
      ⟨m₁, es, hrun, hf, hdrop, hkeep, hworks⟩ | ⟨m₁, es, hrun, -, hes, hex, hfails⟩
    · right
      refine ⟨m₁, es, hf, hdrop, fun hne => ⟨rfl, hworks hne⟩, hkeep, ?_⟩
      rw [replaceFormat, Prog.run_observe_bind, if_pos (by simp [hfile]),
        Prog.run_bind_returned hrun, if_pos rfl, hmanual, if_neg]
      rw [hdrop.gone]
      simp
    · left
      refine ⟨m₁.warned (.unableToDisable name), es, ?_, hes, rfl, hex, hfails⟩
      rw [replaceFormat, Prog.run_observe_bind, if_pos (by simp [hfile]),
        Prog.run_bind_returned hrun, if_neg Bool.false_ne_true, run_warn_bind, Prog.run_pure,
        Ran.after_mk, List.append_nil]

/-- act_install once the old record is loaded. -/
def comparePackages (name : Text) (binfmt : Option Binfmt) : Act Bool := do
  let m ← Prog.recollect
  match kvhashLookup m.formats name with
  | none => replaceFormat env name binfmt
  | some oldBinfmt =>
      match binfmt with
      | none => Prog.crash
      | some new =>
          match new.package, oldBinfmt.package with
          | some package, some oldPackage =>
              if package = oldPackage then replaceFormat env name binfmt
              else
                warn (.installedBy (shownPackage package) (shownPackage oldPackage))
                return false
          | _, _ => Prog.crash

section Compare
variable {env} {name : Text} {s : Store} {m m₁ : Memory} {old new : Binfmt}
  {package oldPackage : Text}

theorem run_actInstall_loaded {binfmt : Option Binfmt}
    (hload : (loadFormat env name true).run s m = ⟨.returned (), m₁, []⟩) :
    (actInstall env name binfmt).run s m = (comparePackages env name binfmt).run s m₁ := by
  change (loadFormat env name true >>= fun _ => comparePackages env name binfmt).run s m = _
  rw [Prog.run_bind_returned hload, replay_nil, Ran.after_nil]

theorem run_actInstall_unloaded {binfmt : Option Binfmt} {status : ℕ}
    (hload : (loadFormat env name true).run s m = ⟨.exited status, m₁, []⟩) :
    (actInstall env name binfmt).run s m = ⟨.exited status, m₁, []⟩ :=
  Prog.run_bind_exited hload _

/-- A free name belongs to everybody. -/
theorem run_comparePackages_free {binfmt : Option Binfmt}
    (hold : kvhashLookup m.formats name = none) :
    (comparePackages env name binfmt).run s m = (replaceFormat env name binfmt).run s m := by
  rw [comparePackages, Prog.run_recollect_bind]
  simp only [hold]

theorem run_comparePackages_same (hold : kvhashLookup m.formats name = some old)
    (hp : new.package = some package) (hq : old.package = some package) :
    (comparePackages env name (some new)).run s m =
      (replaceFormat env name (some new)).run s m := by
  rw [comparePackages, Prog.run_recollect_bind]
  simp only [hold, hp, hq, if_true]

/-- Any other package is turned away. -/
theorem run_comparePackages_foreign (hold : kvhashLookup m.formats name = some old)
    (hp : new.package = some package) (hq : old.package = some oldPackage)
    (hne : package ≠ oldPackage) : (comparePackages env name (some new)).run s m =
      ⟨.returned false,
        m.warned (.installedBy (shownPackage package) (shownPackage oldPackage)), []⟩ := by
  rw [comparePackages, Prog.run_recollect_bind]
  simp only [hold, hp, hq, if_neg hne]
  rfl

/-- An absent record is used as soon as there is an old one. -/
theorem run_comparePackages_null (hold : kvhashLookup m.formats name = some old) :
    (comparePackages env name none).run s m = ⟨.crashed, m, []⟩ := by
  rw [comparePackages, Prog.run_recollect_bind]
  simp only [hold]
  rfl

theorem run_comparePackages_unpackaged (hold : kvhashLookup m.formats name = some old)
    (hno : new.package = none ∨ old.package = none) :
    (comparePackages env name (some new)).run s m = ⟨.crashed, m, []⟩ := by
  rw [comparePackages, Prog.run_recollect_bind]
  rcases hno with hp | hq
  · simp only [hold, hp]
    rfl
  · cases hp : new.package <;> simp only [hold, hp, hq] <;> rfl

end Compare

/-- The check of the packages at the start of act_install. -/
theorem actInstall_checked (name : Text) (b : Binfmt) (s : Store) (m : Memory) :
    (∃ o m', (actInstall env name (some b)).run s m = ⟨o, m', []⟩ ∧ o ≠ .returned true ∧
      (o = .returned false → ∃ old, visible s m.formats name = some old ∧
        old.package ≠ b.package)) ∨
    (∃ m₁, m₁.formats = remembered m.formats name (s.record name) ∧
      (∀ old, visible s m.formats name = some old →
        old.package = b.package ∧ b.package.isSome = true) ∧
      (actInstall env name (some b)).run s m = (replaceFormat env name (some b)).run s m₁) := by
  rcases loadFormat_cases env name true s m with ⟨m₁, hload, hf₁, -⟩ | ⟨m₁, hload, -⟩
  · have hlook : kvhashLookup m₁.formats name = visible s m.formats name := by
      rw [hf₁, lookup_remembered_self]
    rw [run_actInstall_loaded hload]
    cases hv : visible s m.formats name with
    | none =>
      right
      exact ⟨m₁, hf₁, by simp, run_comparePackages_free (hlook.trans hv)⟩
    | some old =>
      rw [hv] at hlook
      cases hp : b.package with
      | none =>
        left
        exact ⟨.crashed, m₁, run_comparePackages_unpackaged hlook (Or.inl hp), by simp, by simp⟩
      | some package =>
        cases hq : old.package with
        | none =>
          left
          exact ⟨.crashed, m₁, run_comparePackages_unpackaged hlook (Or.inr hq), by simp,
            by simp⟩
        | some oldPackage =>
          by_cases heq : package = oldPackage
          · right
            subst heq
            refine ⟨m₁, hf₁, ?_, run_comparePackages_same hlook hp hq⟩
            intro old' hold
            cases hold
            rw [hq]
            exact ⟨rfl, rfl⟩
          · left
            refine ⟨.returned false, _, run_comparePackages_foreign hlook hp hq heq, by simp,
              fun _ => ⟨old, rfl, ?_⟩⟩
            rw [hq]
            intro h
            exact heq (Option.some.inj h).symm
  · left
    exact ⟨.exited 2, m₁, run_actInstall_unloaded hload, by simp, by simp⟩

/-- Everything act_install can do: stop with both stores as they were, stop before the
file is moved, or move it and enable the format. -/
theorem actInstall_cases (htest : env.test = false) (name : Text) (b : Binfmt) (s : Store)
    (m : Memory) :
    (∃ o m' es, (actInstall env name (some b)).run s m = ⟨o, m', es⟩ ∧
      (es = [] ∨ es = [.status false]) ∧
      (o = .returned true → s.file name = none ∧ s.kernel.procExists name = true) ∧
      (o = .returned false → (s.kernel.procExists name = true ∧ (s.file name).isSome = true) ∨
        es = [] ∧ ∃ old, visible s m.formats name = some old ∧ old.package ≠ b.package)) ∨
    (∃ m' drop es, (actInstall env name (some b)).run s m = ⟨.returned false, m', drop ++ es⟩ ∧
      Dropped name s drop ∧ (drop ≠ [] → (s.file name).isSome = true) ∧ Unmoved s name b es ∧
      (Reliable env → isDirectoryName name = true)) ∨
    (∃ o m' m₁ m₂ drop es, (actInstall env name (some b)).run s m =
        ⟨o, m', drop ++ (moving s name b ++ es)⟩ ∧
      Dropped name s drop ∧ (drop ≠ [] → (s.file name).isSome = true) ∧
      isDirectoryName name = false ∧ m'.formats = m₂.formats ∧
      m₁.formats = kvhashInsert (remembered m.formats name (s.record name)) name b ∧
      (∀ old, visible s m.formats name = some old →
        old.package = b.package ∧ b.package.isSome = true) ∧
      (actEnableName env name).run (replay (drop ++ moving s name b) s) m₁ = ⟨o, m₂, es⟩) := by
  rcases actInstall_checked env name b s m with
    ⟨o, m', hrun, hne, hwhy⟩ | ⟨m₁, hf₁, howner, hrun⟩
  · left
    exact ⟨o, m', [], hrun, Or.inl rfl, fun h => absurd h hne, fun h => Or.inr ⟨rfl, hwhy h⟩⟩
  · rw [hrun]
    rcases replaceFormat_cases env htest name (some b) s m₁ with
      ⟨m', hrun', hfile, hex⟩ | ⟨m', es, hrun', hes, hfile, hex, -⟩ |
      ⟨m₂, drop, hf₂, hdrop, hworks, -, hrun'⟩
    · left
      exact ⟨_, m', [], hrun', Or.inl rfl, fun _ => ⟨hfile, hex⟩, by simp⟩
    · left
      exact ⟨_, m', es, hrun', hes, by simp, fun _ => Or.inl ⟨hex, hfile⟩⟩
    · right
      have hadm := hdrop.admindir
      have hfile : drop ≠ [] → (s.file name).isSome = true := fun hne => (hworks hne).1
      rcases installFile_cases env htest name b (replay drop s) m₂ with
        ⟨m', es, hinst, hun, hdir⟩ | ⟨m₃, hf₃, hdir, hinst⟩
      · left
        refine ⟨m', drop, es, ?_, hdrop, hfile, hun.congr hadm.symm, hdir⟩
        rw [hrun', hinst, Ran.after_mk]
      · right
        rcases hen : (actEnableName env name).run (replay (drop ++ moving s name b) s)
          { m₃ with formats := kvhashInsert m₃.formats name b } with ⟨o, m₄, es⟩
        rw [moving_congr hadm, ← replay_append] at hinst
        obtain ⟨m', hend, hf'⟩ := enableInstalled_run env name b _ m₃ _ m₄ rfl o es hen
        refine ⟨o, m', _, m₄, drop, es, ?_, hdrop, hfile, hdir, hf', ?_, howner, hen⟩
        · rw [hrun', hinst, hend, Ran.after_mk, Ran.after_mk]
        · change kvhashInsert m₃.formats name b = _
          rw [hf₃, hf₂, hf₁]

/-- Under --test installing only shows what it would do. -/
theorem silent_actInstall_test (htest : env.test = true) (name : Text)
    (binfmt : Option Binfmt) : Prog.Silent (actInstall env name binfmt) := by
  have henable : ∀ b, Prog.Silent (enableInstalled env name b) := by
    intro b
    refine (Prog.silent_remember _).bind (fun _ => ?_)
    refine (silent_actEnableName_test env htest name).bind (fun worked => ?_)
    split
    · exact Prog.silent_pure _
    · exact (silent_warn _).bind (fun _ => Prog.silent_pure _)
  have hfile : Prog.Silent (installFile env name binfmt) := by
    rw [installFile.eq_def, if_pos htest]
    cases binfmt with
    | none => exact (silent_answer _).bind (fun _ => Prog.silent_crash)
    | some b => exact (silent_answer _).bind (fun _ => henable b)
  have hmanual : Prog.Silent (installUnlessManual env name binfmt) := by
    refine Prog.silent_observe.bind (fun s => ?_)
    rw [if_neg (by simp [htest])]
    exact hfile
  have hdisable : Prog.Silent (actDisableName env name) := by
    intro s m
    obtain ⟨m', hrun⟩ := run_actDisableName_test env htest name s m
    rw [hrun]
  have hreplace : Prog.Silent (replaceFormat env name binfmt) := by
    refine Prog.silent_observe.bind (fun s => ?_)
    split
    · refine hdisable.bind (fun worked => ?_)
      split
      · exact hmanual
      · exact (silent_warn _).bind (fun _ => Prog.silent_pure _)
    · exact hmanual
  rw [actInstall.eq_def]
  refine (silent_loadFormat env name true).bind (fun _ => ?_)
  refine Prog.silent_recollect.bind (fun m => ?_)
  split
  · exact hreplace
  · split
    · exact Prog.silent_crash
    · split
      · split
        · exact hreplace
        · exact (silent_warn _).bind (fun _ => Prog.silent_pure _)
      · exact Prog.silent_crash

end Install

section Remove
variable (env : Env)

theorem run_removeFile (htest : env.test = false) (name : Text) (s : Store) (m : Memory) :
    (∃ m', (removeFile env name).run s m = ⟨.returned true, m', [.unlink name]⟩) ∨
    (∃ m', (removeFile env name).run s m = ⟨.returned false, m', []⟩ ∧
      env.ok m.clock = false) := by
  have hstep : (removeFile env name).run s m = if env.ok m.clock = true then
        ⟨.returned true, { m.tick with formats := kvhashDelete m.formats name }, [.unlink name]⟩
      else ⟨.returned false, m.tick.warned (.unableToRemove name), []⟩ := by
    rw [removeFile, if_neg (by simp [htest]), run_succeeds_bind]
    split <;> rfl
  rw [hstep]
  split
  · left
    exact ⟨_, rfl⟩
  · rename_i hfail
    right
    exact ⟨_, rfl, by simpa using hfail⟩

/-- The removal proper: the entry first, then the file. -/
theorem removeFormat_cases (htest : env.test = false) (name : Text) (s : Store) (m : Memory) :
    (∃ m' es, (removeFormat env name).run s m = ⟨.returned false, m', es⟩ ∧
      (es = [] ∨ es = [.status false]) ∧ s.kernel.procExists name = true ∧
      dropFails env name m.clock = true) ∨
    (∃ m' drop, (removeFormat env name).run s m = ⟨.returned false, m', drop⟩ ∧
      Dropped name s drop ∧ ∃ time, env.ok time = false) ∨
    (∃ m' drop, (removeFormat env name).run s m = ⟨.returned true, m', drop ++ [.unlink name]⟩ ∧
      Dropped name s drop) := by
  rcases actDisableName_cases env htest name s m with
    ⟨m₁, drop, hrun, -, hdrop, -, -⟩ | ⟨m₁, es, hrun, -, hes, hex, hfails⟩
  · right
    rcases run_removeFile env htest name (replay drop s) m₁ with ⟨m', hrem⟩ | ⟨m', hrem, hfail⟩
    · right
      refine ⟨m', drop, ?_, hdrop⟩
      rw [removeFormat, Prog.run_bind_returned hrun, if_pos rfl, hrem, Ran.after_mk]
    · left
      refine ⟨m', drop, ?_, hdrop, _, hfail⟩
      rw [removeFormat, Prog.run_bind_returned hrun, if_pos rfl, hrem, Ran.after_mk,
        List.append_nil]
  · left
    refine ⟨m₁.warned (.unableToDisable name), es, ?_, hes, hex, hfails⟩
    rw [removeFormat, Prog.run_bind_returned hrun, if_neg Bool.false_ne_true, run_warn_bind,
      Prog.run_pure, Ran.after_mk, List.append_nil]

/-- Removing a format leaves everything alone or runs the removal proper. -/
theorem actRemove_cases (name package : Text) (s : Store) (m : Memory) :
    (∃ o m', (actRemove env name package).run s m = ⟨o, m', []⟩ ∧ o ≠ .returned false) ∨
    (∃ m₁, (s.file name).isSome = true ∧
      (∀ old, visible s m.formats name = some old → old.package = some package) ∧
      (actRemove env name package).run s m = (removeFormat env name).run s m₁) := by
  by_cases hfile : (s.file name).isSome = true
  · rcases loadFormat_cases env name true s m with ⟨m₁, hload, hf₁, -⟩ | ⟨m₁, hload, -⟩
    · have hlook : kvhashLookup m₁.formats name = visible s m.formats name := by
        rw [hf₁, lookup_remembered_self]
      cases hv : visible s m.formats name with
      | none =>
        right
        rw [hv] at hlook
        refine ⟨m₁, hfile, by simp, ?_⟩
        rw [actRemove, Prog.run_observe_bind, if_pos hfile, Prog.run_bind_returned hload,
          Prog.run_recollect_bind]
        simp only [hlook]
        rfl
      | some old =>
        rw [hv] at hlook
        cases hp : old.package with
        | none =>
          left
          refine ⟨.crashed, m₁, ?_, by simp⟩
          rw [actRemove, Prog.run_observe_bind, if_pos hfile, Prog.run_bind_returned hload,
            Prog.run_recollect_bind]
          simp only [hlook, hp]
          rfl
        | some oldPackage =>
          have hstep : (actRemove env name package).run s m =
              (if package = oldPackage then removeFormat env name
                else do
                  warn (.notRemoving (shownPackage package) (shownPackage oldPackage))
                  return true : Act Bool).run s m₁ := by
            rw [actRemove, Prog.run_observe_bind, if_pos hfile, Prog.run_bind_returned hload,
              Prog.run_recollect_bind]
            simp only [hlook, hp]
            rfl
          by_cases heq : package = oldPackage
          · right
            rw [if_pos heq] at hstep
            refine ⟨m₁, hfile, ?_, hstep⟩
            intro old' hold
            cases hold
            rw [hp, heq]
          · left
            rw [if_neg heq] at hstep
            refine ⟨.returned true,
              m₁.warned (.notRemoving (shownPackage package) (shownPackage oldPackage)), ?_,
              by simp⟩
            rw [hstep]
            rfl
    · left
      refine ⟨.exited 2, m₁, ?_, by simp⟩
      rw [actRemove, Prog.run_observe_bind, if_pos hfile, Prog.run_bind_exited hload]
  · left
    refine ⟨.returned true, m.warned (.doesNotExist name), ?_, by simp⟩
    rw [actRemove, Prog.run_observe_bind, if_neg hfile]
    rfl

/-- Removing a format takes away its entry and its file at most. -/
theorem loss_actRemove (htest : env.test = false) (name package : Text) (s : Store)
    (m : Memory) : ∀ e ∈ ((actRemove env name package).run s m).effects, e.isLoss = true := by
  rcases actRemove_cases env name package s m with ⟨o, m', hrun, -⟩ | ⟨m₁, -, -, hrun⟩
  · rw [hrun]
    simp
  · rw [hrun]
    rcases removeFormat_cases env htest name s m₁ with
      ⟨m', es, hrun', hes, -⟩ | ⟨m', drop, hrun', hdrop, -⟩ | ⟨m', drop, hrun', hdrop⟩
    · rw [hrun']
      exact loss_of_status hes
    · rw [hrun']
      exact hdrop.loss
    · rw [hrun']
      intro e he
      rcases List.mem_append.mp he with he | he
      · exact hdrop.loss e he
      · rw [List.mem_singleton.mp he]
        rfl

end Remove
end BinfmtSupport.Installing
