import BinfmtSupport.Cursors
import BinfmtSupport.Isolation

/-!
The three loops over the table of formats, in which act_enable, act_disable and act_display
are called without a name. HASH_FOR_EACH asks the table for the entry behind the one that
it has just seen, and the calls in its body work on the same table: act_enable for a format
without a detector reads the whole directory again. Other processes run meanwhile; what they
have done by the time of a directory read is put before the iteration that makes it, since
an iteration makes one such read at most.
-/
namespace BinfmtSupport.Walking

open CText Kvhash Format Regstring Journal Stores Actions Loading Enabling Installing AllFormats
  Cursors

inductive Sweep
  | enable
  | disable
  | display
deriving DecidableEq

/-- What a process that sweeps has so far: the stores, its memory and `worked`. -/
structure Process where
  store : Store
  memory : Memory
  worked : Bool

def goesOn {α : Type} : Outcome α → Bool
  | .returned _ => true
  | _ => false

section Source
variable (env : Env)

def opening : Sweep → Act Bool
  | .enable => do
      if ← loadBinfmtMisc env then
        loadAllFormats env false
        return true
      else return false
  | .disable => do
      let s ← Prog.observe
      if s.kernel.mount.procdir then
        loadAllFormats env false
        return true
      else return false
  | .display => do
      loadAllFormats env false
      return true

/-- The body of the loop; what act_display returns is not looked at. -/
def body : Sweep → Text → Act Bool
  | .enable, key => do
      let s ← Prog.observe
      if s.kernel.procExists key then return true else actEnableName env key
  | .disable, key => do
      let s ← Prog.observe
      if s.kernel.procExists key then actDisableName env key else return true
  | .display, key => do
      let _ ← actDisplayName env key
      return true

def worked (before : Bool) : Outcome Bool → Bool
  | .returned r => before && r
  | _ => before

/-- HASH_FOR_EACH over `formats`. Before each iteration other processes may do anything. -/
def hashForEach (sweep : Sweep) : Loop Text (Store → Store) Process where
  order p := env.walk p.memory.formats
  body key others p :=
    let s := others p.store
    let r := (body env sweep key).run s p.memory
    (⟨replay r.effects s, r.memory, worked p.worked r.outcome⟩, goesOn r.outcome)

/-- The loop that starts in this state, after as many iterations as there are inputs. -/
def walk (sweep : Sweep) (s : Store) (m : Memory) (inputs : List (Store → Store)) :
    Position Text Process :=
  (hashForEach env sweep).run ((hashForEach env sweep).start ⟨s, m, true⟩) inputs

end Source

/-- Other processes have added files, all of which can be loaded. -/
structure Adds (s t : Store) : Prop where
  kept : ∀ name content, s.file name = some content → t.file name = some content
  loadable : ∀ name, s.file name = none → Intact t name
  kernel_eq : t.kernel = s.kernel

section Condition
variable (env : Env)

/-- act_enable for this name, started in one state, comes to load_all_formats in another. -/
structure Reads (key : Text) (s : Store) (m : Memory) (u : Store) (n : Memory) : Prop where
  absent : s.kernel.procExists key = false
  loads : ∃ m₁ es, (loadBinfmtMisc env).run s m = ⟨.returned true, m₁, es⟩ ∧ u = replay es s ∧
    (loadFormat env key false).run u m₁ = ⟨.returned (), n, []⟩
  stillAbsent : u.kernel.procExists key = false
  plain : ∃ b, kvhashLookup n.formats key = some b ∧ hasDetector b = false

/-- Files that are opened one after the other from this time on: the one of this name is
among those that can be opened, it is loadable and the table does not have the name. -/
def Fresh (u : Store) (t : Table Text Binfmt) (names : List Text) (time : ℕ) (name : Text) :
    Prop :=
  ∃ i, names[i]? = some name ∧ name ∉ t ∧ (u.record name).isSome = true ∧
    ∀ j, j ≤ i → env.ok (time + j) = true

/-- A directory read that starts here comes to a loadable file that the table lacks. -/
def Newcomer (u : Store) (n : Memory) : Prop :=
  env.ok n.clock = true ∧
    ∃ name, Fresh env u n.formats (env.readdir u.admindir) (n.clock + 1) name

/-- The iteration that comes next finds such a file. -/
def Finds (sweep : Sweep) (p : Position Text Process) (others : Store → Store) : Prop :=
  sweep = .enable ∧ ∃ key, p.place = .entry key ∧ ∃ u n,
    Reads env key (others p.state.store) p.state.memory u n ∧ Newcomer env u n

end Condition

section Table
variable (env : Env)

theorem mem_kvhashInsert {t : Table Text Binfmt} {name key : Text} (b : Binfmt) :
    key ∈ kvhashInsert t name b ↔ key = name ∨ key ∈ t := by
  unfold kvhashInsert
  split
  · rename_i hmem
    constructor
    · exact Or.inr
    · rintro (rfl | h)
      · exact hmem
      · exact h
  · exact AList.mem_insert t

/-- A record whose key is in the table is not put there again. -/
theorem formats_loadFormat_of_mem {name : Text} {m : Memory} (h : name ∈ m.formats)
    (quiet : Bool) (s : Store) :
    ((loadFormat env name quiet).run s m).memory.formats = m.formats := by
  cases hc : s.file name with
  | none => rw [run_loadFormat_missing env name quiet s m hc]
  | some content =>
    cases hok : env.ok m.clock with
    | false => simp [loadFormat, hc, hok, Memory.warned]
    | true =>
      cases hl : binfmtLoad content with
      | error field => cases quiet <;> simp [loadFormat, hc, hok, hl, Memory.warned]
      | ok format => simp [loadFormat, hc, hok, hl, kvhashInsert, h]

/-- No load takes anything out of the table. -/
theorem mem_loadFormat (name : Text) {key : Text} {m : Memory} (h : key ∈ m.formats)
    (quiet : Bool) (s : Store) : key ∈ ((loadFormat env name quiet).run s m).memory.formats := by
  cases hc : s.file name with
  | none => rwa [run_loadFormat_missing env name quiet s m hc]
  | some content =>
    cases hok : env.ok m.clock with
    | false => simpa [loadFormat, hc, hok, Memory.warned] using h
    | true =>
      cases hl : binfmtLoad content with
      | error field => cases quiet <;> simpa [loadFormat, hc, hok, hl, Memory.warned] using h
      | ok format =>
        simp only [loadFormat, Prog.run_observe_bind, hc, run_succeeds_bind, hok, if_true, hl]
        exact (mem_kvhashInsert format).mpr (Or.inr h)

theorem mem_loadFormats {key : Text} {m : Memory} (h : key ∈ m.formats) (quiet : Bool)
    (names : List Text) (s : Store) :
    key ∈ ((loadFormats env quiet names).run s m).memory.formats := by
  induction names generalizing m with
  | nil => exact h
  | cons name rest ih =>
    have hfirst := mem_loadFormat env name h quiet s
    rcases loadFormat_cases env name quiet s m with ⟨m₁, hrun, -⟩ | ⟨m₁, hrun, -⟩
    · rw [hrun] at hfirst
      rw [loadFormats, Prog.run_bind_returned hrun, Ran.memory_after]
      exact ih hfirst
    · rw [hrun] at hfirst
      rw [loadFormats, Prog.run_bind_exited hrun]
      exact hfirst

theorem fresh_cons {u : Store} {t : Table Text Binfmt} {name other : Text} {rest : List Text}
    {time : ℕ} : Fresh env u t (name :: rest) time other ↔ env.ok time = true ∧
      (other = name ∧ name ∉ t ∧ (u.record name).isSome = true ∨
        Fresh env u t rest (time + 1) other) := by
  constructor
  · rintro ⟨i, hat, hnew, hrecord, hopen⟩
    refine ⟨hopen 0 (Nat.zero_le i), ?_⟩
    cases i with
    | zero =>
      cases hat
      exact Or.inl ⟨rfl, hnew, hrecord⟩
    | succ i =>
      refine Or.inr ⟨i, hat, hnew, hrecord, fun j hj => ?_⟩
      rw [Nat.add_assoc, Nat.add_comm 1]
      exact hopen (j + 1) (Nat.succ_le_succ hj)
  · rintro ⟨hok, ⟨rfl, hnew, hrecord⟩ | ⟨i, hat, hnew, hrecord, hopen⟩⟩
    · refine ⟨0, rfl, hnew, hrecord, fun j hj => ?_⟩
      rw [Nat.le_zero.mp hj]
      exact hok
    · refine ⟨i + 1, hat, hnew, hrecord, fun j hj => ?_⟩
      cases j with
      | zero => exact hok
      | succ j =>
        rw [Nat.add_comm j, ← Nat.add_assoc]
        exact hopen j (Nat.le_of_succ_le_succ hj)

/-- Files that are there are put into the table as far as they are fresh. -/
theorem mem_loadFormats_of_fresh {names : List Text} {s : Store} {m : Memory} {name : Text}
    (hfiles : ∀ name ∈ names, (s.file name).isSome = true)
    (h : Fresh env s m.formats names m.clock name) :
    name ∈ ((loadFormats env true names).run s m).memory.formats := by
  induction names generalizing m with
  | nil =>
    obtain ⟨i, hat, -⟩ := h
    cases hat
  | cons first rest ih =>
    obtain ⟨hok, hcase⟩ := (fresh_cons env).mp h
    rw [loadFormats, Prog.run_bind_returned
      (run_loadFormat_quiet env first s m (hfiles first List.mem_cons_self) hok),
      Ran.memory_after]
    rcases hcase with ⟨rfl, -, hrecord⟩ | hrest
    · obtain ⟨b, hb⟩ := Option.isSome_iff_exists.mp hrecord
      apply mem_loadFormats
      rw [hb]
      exact (mem_kvhashInsert b).mpr (Or.inl rfl)
    · by_cases hmem : name ∈ remembered m.formats first (s.record first)
      · exact mem_loadFormats env hmem true rest _
      · refine ih (fun other hother => hfiles other (List.mem_cons_of_mem first hother)) ?_
        obtain ⟨i, hat, -, hrecord, hopen⟩ := hrest
        exact ⟨i, hat, hmem, hrecord, hopen⟩

/-- Where no file is fresh the table stays as it is. -/
theorem formats_loadFormats_of_stale {names : List Text} {s : Store} {m : Memory}
    (hfiles : ∀ name ∈ names, (s.file name).isSome = true)
    (h : ∀ name, ¬ Fresh env s m.formats names m.clock name) :
    ((loadFormats env true names).run s m).memory.formats = m.formats := by
  induction names generalizing m with
  | nil => rfl
  | cons first rest ih =>
    have hfirst := hfiles first List.mem_cons_self
    cases hok : env.ok m.clock with
    | false =>
      obtain ⟨content, hc⟩ := Option.isSome_iff_exists.mp hfirst
      have hrun : (loadFormat env first true).run s m =
          ⟨.exited 2, m.tick.warned (.unableToOpen first), []⟩ := by
        simp [loadFormat, hc, hok]
      rw [loadFormats, Prog.run_bind_exited hrun]
      rfl
    | true =>
      have hsame : remembered m.formats first (s.record first) = m.formats := by
        cases hr : s.record first with
        | none => rfl
        | some b =>
          have hmem : first ∈ m.formats := by
            by_contra hnew
            exact h first ((fresh_cons env).mpr ⟨hok, Or.inl ⟨rfl, hnew, by rw [hr]; rfl⟩⟩)
          rw [remembered, kvhashInsert, if_pos hmem]
      rw [loadFormats, Prog.run_bind_returned (run_loadFormat_quiet env first s m hfirst hok),
        Ran.memory_after, hsame]
      refine ih (fun other hother => hfiles other (List.mem_cons_of_mem first hother)) ?_
      intro other hother
      exact h other ((fresh_cons env).mpr ⟨hok, Or.inr hother⟩)

/-- A directory read inserts what is new to the table, if there is anything new. -/
theorem loadAllFormats_table (u : Store) (n : Memory) :
    (Newcomer env u n → ∃ name, name ∉ n.formats ∧
      name ∈ ((loadAllFormats env true).run u n).memory.formats) ∧
    (¬ Newcomer env u n → ((loadAllFormats env true).run u n).memory.formats = n.formats) := by
  have hfiles : ∀ name ∈ env.readdir u.admindir, (u.file name).isSome = true := by
    intro name hname
    rw [(env.readdir_perm u.admindir).mem_iff] at hname
    exact (isSome_file_iff u name).mpr hname
  cases hok : env.ok n.clock with
  | false =>
    refine ⟨fun h => absurd h.1 (by simp [hok]), fun _ => ?_⟩
    simp [loadAllFormats, hok, Memory.warned]
  | true =>
    have hrun : (loadAllFormats env true).run u n =
        (loadFormats env true (env.readdir u.admindir)).run u n.tick := by
      simp [loadAllFormats, hok]
    rw [hrun]
    constructor
    · rintro ⟨-, name, hfresh⟩
      refine ⟨name, ?_, mem_loadFormats_of_fresh env hfiles hfresh⟩
      obtain ⟨i, -, hnew, -⟩ := hfresh
      exact hnew
    · intro h
      refine formats_loadFormats_of_stale env hfiles (fun name hfresh => ?_)
      exact h ⟨hok, name, hfresh⟩

end Table

section Bodies
variable (env : Env)

theorem leaves_observe : Prog.Leaves Memory.formats (Prog.observe : Act Store) := fun _ _ => rfl

theorem leaves_answer (a : Answer) : Prog.Leaves Memory.formats (answer a) := fun _ _ => rfl

/-- Loading the module always returns and has nothing to do with the table. -/
theorem run_loadBinfmtMisc (s : Store) (m : Memory) : ∃ r m₁ es,
    (loadBinfmtMisc env).run s m = ⟨.returned r, m₁, es⟩ ∧ m₁.formats = m.formats := by
  cases htest : env.test with
  | true => exact ⟨true, { m with answers := m.answers ++ [.load] }, [], by
      rw [loadBinfmtMisc, if_pos htest]; rfl, rfl⟩
  | false =>
    obtain ⟨r, m₁, es, hrun, hformats, -⟩ := loadBinfmtMisc_cases env htest s m
    exact ⟨r, m₁, es, hrun, hformats⟩

theorem leaves_register (name : Text) (r : Registration) :
    Prog.Leaves Memory.formats (Actions.register env name r) := by
  cases htest : env.test with
  | true =>
    rw [Actions.register, if_pos htest]
    exact (leaves_answer _).bind (fun _ => Prog.leaves_pure _)
  | false =>
    intro s m
    rcases register_cases env htest name r s m with
      ⟨m', e, hrun, hformats, -⟩ | ⟨m', hrun, hformats⟩
    · rw [hrun]
      exact hformats
    · rw [hrun]
      exact hformats

/-- What comes after the directory read has nothing to do with the table any more. -/
theorem formats_needDetector (name : Text) {b : Binfmt} (h : hasDetector b = false)
    (k : Bool → Act Bool) (hk : ∀ d, Prog.Leaves Memory.formats (k d)) (u : Store) (n : Memory) :
    ((needDetector env name b >>= k).run u n).memory.formats =
      ((loadAllFormats env true).run u n).memory.formats := by
  have hscan : ∀ t keys, Prog.Leaves Memory.formats (scanFormats name b t keys) := by
    intro t keys s m
    rcases scanFormats_cases name b t keys s m with ⟨hrun, -⟩ | ⟨hrun, -⟩ | ⟨hrun, -⟩ <;> rw [hrun]
  have hrest : needDetector env name b >>= k = loadAllFormats env true >>= fun _ =>
      Prog.recollect >>= fun m => scanFormats name b m.formats (env.walk m.formats) >>= k := by
    rw [needDetector, h, if_neg Bool.false_ne_true, bind_assoc]
    simp only [bind_assoc]
  have hleaves : Prog.Leaves Memory.formats (Prog.recollect >>= fun m =>
      scanFormats name b m.formats (env.walk m.formats) >>= k : Act Bool) := by
    intro s m
    rw [Prog.run_recollect_bind]
    exact (hscan _ _).bind hk s m
  rw [hrest]
  exact Prog.view_run_bind (loadAllFormats env true) (fun _ => hleaves) u n

/-- act_enable from the stored record on, for a format that the table has. -/
theorem formats_enableFormat {key : Text} {u : Store} {m n : Memory} {b : Binfmt}
    (hload : (loadFormat env key false).run u m = ⟨.returned (), n, []⟩)
    (hb : kvhashLookup n.formats key = some b) :
    ((enableFormat env key).run u m).memory.formats =
      if hasDetector b = true then n.formats
      else ((loadAllFormats env true).run u n).memory.formats := by
  have hstep : (enableFormat env key).run u m = (needDetector env key b >>= fun detector =>
      Actions.register env key
        (registrationOf key b (chooseInterpreter env b detector))).run u n := by
    rw [enableFormat, Prog.run_bind_returned hload, Prog.run_recollect_bind]
    simp only [hb]
    rfl
  rw [hstep]
  cases hd : hasDetector b with
  | true =>
    rw [if_pos rfl]
    have hneed : (needDetector env key b).run u n = ⟨.returned true, n, []⟩ := by
      rw [needDetector, if_pos hd]
      rfl
    rw [Prog.run_bind_returned hneed, Ran.memory_after]
    exact leaves_register env key _ _ _
  | false =>
    rw [if_neg Bool.false_ne_true]
    exact formats_needDetector env key hd _ (fun d => leaves_register env key _) u n

/-- Up to the directory read nothing is inserted. -/
theorem Reads.formats_eq {key : Text} {s u : Store} {m n : Memory} (h : Reads env key s m u n)
    (hkey : key ∈ m.formats) : n.formats = m.formats := by
  obtain ⟨m₁, es, hmisc, rfl, hload⟩ := h.loads
  obtain ⟨r, m', fs, hmisc', hformats⟩ := run_loadBinfmtMisc env s m
  rw [hmisc] at hmisc'
  cases hmisc'
  have hkey₁ : key ∈ m₁.formats := by rwa [hformats]
  have hkept := formats_loadFormat_of_mem env hkey₁ false (replay es s)
  rw [hload] at hkept
  exact hkept.trans hformats

/-- An iteration that reads the directory leaves the table as this read does. -/
theorem formats_enable_of_reads {key : Text} {s u : Store} {m n : Memory}
    (h : Reads env key s m u n) : ((body env .enable key).run s m).memory.formats =
      ((loadAllFormats env true).run u n).memory.formats := by
  obtain ⟨m₁, es, hmisc, rfl, hload⟩ := h.loads
  obtain ⟨b, hb, hd⟩ := h.plain
  have hformat := formats_enableFormat env hload hb
  rw [hd, if_neg Bool.false_ne_true] at hformat
  rw [body, Prog.run_observe_bind, if_neg (by simp [h.absent]), actEnableName,
    Prog.run_bind_returned hmisc, Ran.memory_after, if_pos rfl, Prog.run_observe_bind,
    if_neg (by simp [h.stillAbsent])]
  exact hformat

/-- An iteration for a format of the table that reads no directory leaves the table alone. -/
theorem formats_enable_of_not_reads {key : Text} {s : Store} {m : Memory} (hkey : key ∈ m.formats)
    (h : ∀ u n, ¬ Reads env key s m u n) :
    ((body env .enable key).run s m).memory.formats = m.formats := by
  rw [body, Prog.run_observe_bind]
  by_cases hex : s.kernel.procExists key = true
  · rw [if_pos hex]
    rfl
  · rw [if_neg hex]
    obtain ⟨loaded, m₁, es, hmisc, hf₁⟩ := run_loadBinfmtMisc env s m
    rw [actEnableName, Prog.run_bind_returned hmisc, Ran.memory_after]
    cases loaded with
    | false => exact hf₁
    | true =>
      rw [if_pos rfl, Prog.run_observe_bind]
      by_cases hex' : (replay es s).kernel.procExists key = true
      · rw [if_pos hex']
        exact hf₁
      · rw [if_neg hex']
        have hkey₁ : key ∈ m₁.formats := by rwa [hf₁]
        have hkept := formats_loadFormat_of_mem env hkey₁ false (replay es s)
        rcases loadFormat_cases env key false (replay es s) m₁ with
          ⟨n, hload, -⟩ | ⟨n, hload, -⟩
        · rw [hload] at hkept
          have hmem : key ∈ n.formats := by
            rw [show n.formats = m₁.formats from hkept]
            exact hkey₁
          obtain ⟨b, hb⟩ := Option.isSome_iff_exists.mp (AList.lookup_isSome.mpr hmem)
          rw [formats_enableFormat env hload hb]
          cases hd : hasDetector b with
          | true => exact hkept.trans hf₁
          | false =>
            refine absurd ?_ (h (replay es s) n)
            exact ⟨by simpa using hex, ⟨m₁, es, hmisc, rfl, hload⟩, by simpa using hex',
              ⟨b, hb, hd⟩⟩
        · rw [hload] at hkept
          rw [enableFormat, Prog.run_bind_exited hload]
          exact hkept.trans hf₁

theorem leaves_actDisableName (name : Text) :
    Prog.Leaves Memory.formats (actDisableName env name) := by
  cases htest : env.test with
  | true =>
    refine leaves_observe.bind (fun s => ?_)
    split
    · split
      · exact (leaves_answer _).bind (fun _ => Prog.leaves_pure _)
      · exact Prog.leaves_pure _
    · exact Prog.leaves_pure _
  | false =>
    intro s m
    rcases actDisableName_cases env htest name s m with
      ⟨m', es, hrun, hformats, -⟩ | ⟨m', es, hrun, hformats, -⟩
    · rw [hrun]
      exact hformats
    · rw [hrun]
      exact hformats

theorem leaves_disable (key : Text) : Prog.Leaves Memory.formats (body env .disable key) := by
  refine leaves_observe.bind (fun s => ?_)
  split
  · exact leaves_actDisableName env key
  · exact Prog.leaves_pure _

/-- Showing a format of the table does not load it again. -/
theorem formats_display {key : Text} {m : Memory} (hkey : key ∈ m.formats) (s : Store) :
    ((body env .display key).run s m).memory.formats = m.formats := by
  have hkept := formats_loadFormat_of_mem env hkey false s
  have hbody : ((body env .display key).run s m).memory.formats =
      ((actDisplayName env key).run s m).memory.formats :=
    Prog.view_run_bind (actDisplayName env key) (fun _ => Prog.leaves_pure true) s m
  rw [hbody]
  rcases loadFormat_cases env key false s m with ⟨n, hload, -⟩ | ⟨n, hload, -⟩
  · rw [hload] at hkept
    rw [actDisplayName, Prog.run_bind_returned hload, Ran.memory_after, Prog.run_recollect_bind]
    cases hb : kvhashLookup n.formats key with
    | none => exact hkept
    | some b =>
      rw [Prog.run_observe_bind]
      cases hp : b.package with
      | none => exact hkept
      | some package => exact hkept
  · rw [hload] at hkept
    rw [actDisplayName, Prog.run_bind_exited hload]
    exact hkept

end Bodies

section Walk
variable {env : Env} {sweep : Sweep} {s : Store} {m : Memory}
  {inputs : List (Store → Store)} {p : Position Text Process}

def OnTable (p : Position Text Process) : Prop :=
  ∀ key, p.place = .entry key → key ∈ p.state.memory.formats

theorem mem_walk_iff (t : Table Text Binfmt) (key : Text) : key ∈ env.walk t ↔ key ∈ t := by
  rw [(env.walk_perm t).mem_iff]
  exact Iff.rfl

theorem onTable_start (s : Process) : OnTable ((hashForEach env sweep).start s) := by
  intro key hkey
  exact (mem_walk_iff _ key).mp (List.mem_of_mem_head? (Place.at_eq_entry.mp hkey))

theorem onTable_step (p : Position Text Process) (others : Store → Store) (h : OnTable p) :
    OnTable ((hashForEach env sweep).step p others) := by
  cases hplace : p.place with
  | entry key =>
    rw [Loop.step_entry hplace]
    intro next hnext
    dsimp only at hnext
    split at hnext
    · exact (mem_walk_iff _ next).mp (mem_of_behind (Place.at_eq_entry.mp hnext))
    · cases hnext
  | finished =>
    rw [Loop.step_of_not_entry (by simp [hplace])]
    exact h
  | left =>
    rw [Loop.step_of_not_entry (by simp [hplace])]
    exact h

/-- The table after an iteration is what the body has made of it. -/
theorem formats_step {key : Text} (h : p.place = .entry key) (others : Store → Store) :
    ((hashForEach env sweep).step p others).state.memory.formats =
      ((body env sweep key).run (others p.state.store) p.state.memory).memory.formats := by
  rw [Loop.step_entry h]
  rfl

/-- An iteration that finds nothing new leaves the table alone. -/
theorem formats_step_of_not_finds (h : OnTable p) {others : Store → Store}
    (hnot : ¬ Finds env sweep p others) :
    ((hashForEach env sweep).step p others).state.memory.formats = p.state.memory.formats := by
  cases hplace : p.place with
  | entry key =>
    have hkey := h key hplace
    rw [formats_step hplace]
    cases sweep with
    | enable =>
      by_cases hread : ∃ u n, Reads env key (others p.state.store) p.state.memory u n
      · obtain ⟨u, n, hread⟩ := hread
        have hstale : ¬ Newcomer env u n := by
          intro hnew
          exact hnot ⟨rfl, key, hplace, u, n, hread, hnew⟩
        rw [formats_enable_of_reads env hread, (loadAllFormats_table env u n).2 hstale]
        exact hread.formats_eq env hkey
      · exact formats_enable_of_not_reads env hkey (fun u n hr => hread ⟨u, n, hr⟩)
    | disable => exact leaves_disable env key _ _
    | display => exact formats_display env hkey _
  | finished => rw [Loop.step_of_not_entry (by simp [hplace])]
  | left => rw [Loop.step_of_not_entry (by simp [hplace])]

/-- An iteration that finds something new inserts it. -/
theorem inserted_of_finds (h : OnTable p) {others : Store → Store}
    (hfinds : Finds env sweep p others) : ∃ name, name ∉ p.state.memory.formats ∧
      name ∈ ((hashForEach env sweep).step p others).state.memory.formats := by
  obtain ⟨rfl, key, hplace, u, n, hread, hnew⟩ := hfinds
  obtain ⟨name, hnot, hmem⟩ := (loadAllFormats_table env u n).1 hnew
  refine ⟨name, ?_, ?_⟩
  · rwa [← hread.formats_eq env (h key hplace)]
  · rw [formats_step hplace, formats_enable_of_reads env hread]
    exact hmem

/-- A loop that finds nothing new comes to every format of the table once. -/
theorem onCourse_walk (h : ∀ done others, done ++ [others] <+: inputs →
    ¬ Finds env sweep (walk env sweep s m done) others) :
    Loop.OnCourse (env.walk m.formats) inputs.length (walk env sweep s m inputs) := by
  have hnodup : ((hashForEach env sweep).order ⟨s, m, true⟩).Nodup :=
    (env.walk_perm m.formats).nodup_iff.mpr m.formats.keys_nodup
  refine Loop.onCourse_run hnodup (fun done hdone => ?_)
  have hsame := Loop.view_run (fun x => x.memory.formats) onTable_step
    (fun p others hp hnot => formats_step_of_not_finds hp hnot)
    (onTable_start ⟨s, m, true⟩) h done hdone
  exact congrArg env.walk hsame

/-- At no point of the walk is there a key in the table that was not there at its start. -/
def NoneInserted (env : Env) (sweep : Sweep) (s : Store) (m : Memory)
    (inputs : List (Store → Store)) : Prop :=
  ∀ done, done <+: inputs →
    ∀ key, key ∈ (walk env sweep s m done).state.memory.formats → key ∈ m.formats

/-- After `n` iterations over a table: no format was visited twice, a loop that is through
has visited all, and it is through by then unless there are more formats than iterations or
the process has left it. -/
structure VisitsOnce (t : Table Text Binfmt) (n : ℕ) (p : Position Text Process) : Prop where
  once : p.visited.Nodup
  all : p.place = .finished → p.visited.Perm t.keys
  ends : t.keys.length ≤ n → p.place = .finished ∨ p.place = .left

theorem visitsOnce_of_onCourse {t : Table Text Binfmt} {n : ℕ}
    (h : Loop.OnCourse (env.walk t) n p) : VisitsOnce t n p where
  once := h.visited_begins.sublist.nodup ((env.walk_perm t).nodup_iff.mpr t.keys_nodup)
  all hfinished := by
    obtain ⟨hvisited, hat⟩ := h.on_time (by simp [hfinished])
    rw [hfinished] at hat
    rw [hvisited, List.take_of_length_le
      (List.getElem?_eq_none_iff.mp (Place.at_eq_finished.mp hat.symm))]
    exact env.walk_perm t
  ends hlength := by
    by_cases hleft : p.place = .left
    · exact Or.inr hleft
    · left
      rw [(h.on_time hleft).2, List.getElem?_eq_none (by rwa [(env.walk_perm t).length_eq])]
      rfl

theorem noneInserted_iff : NoneInserted env sweep s m inputs ↔
    ∀ done others, done ++ [others] <+: inputs →
      ¬ Finds env sweep (walk env sweep s m done) others := by
  have hbad : ∀ p others, OnTable p → Finds env sweep p others →
      ¬ ∀ key, key ∈ ((hashForEach env sweep).step p others).state.memory.formats →
        key ∈ p.state.memory.formats := by
    intro p others hp hfinds hfine
    obtain ⟨name, hnew, hmem⟩ := inserted_of_finds hp hfinds
    exact hnew (hfine name hmem)
  exact Loop.fine_iff (fun x => x.memory.formats) (fun t t' => ∀ key, key ∈ t → key ∈ t')
    onTable_step (fun p others hp hnot => formats_step_of_not_finds hp hnot) hbad
    (fun _ _ h => h) (onTable_start ⟨s, m, true⟩)

/-- Nothing is inserted into the table while one of the three loops walks over it, and each
format is visited once, exactly if no iteration finds a loadable file that the table lacks.
Only act_enable's can find one. -/
theorem walk_unmodified_iff (env : Env) (sweep : Sweep) (s : Store) (m : Memory)
    (inputs : List (Store → Store)) :
    (NoneInserted env sweep s m inputs ∧
        VisitsOnce m.formats inputs.length (walk env sweep s m inputs) ↔
      ∀ done others, done ++ [others] <+: inputs →
        ¬ Finds env sweep (walk env sweep s m done) others) ∧
    (sweep ≠ .enable → NoneInserted env sweep s m inputs ∧
      VisitsOnce m.formats inputs.length (walk env sweep s m inputs)) := by
  have hiff : NoneInserted env sweep s m inputs ∧
        VisitsOnce m.formats inputs.length (walk env sweep s m inputs) ↔
      ∀ done others, done ++ [others] <+: inputs →
        ¬ Finds env sweep (walk env sweep s m done) others := by
    rw [← noneInserted_iff]
    constructor
    · exact fun h => h.1
    · exact fun h => ⟨h, visitsOnce_of_onCourse (onCourse_walk (noneInserted_iff.mp h))⟩
  exact ⟨hiff, fun hne => hiff.mpr (fun _ _ _ hfinds => hne hfinds.1)⟩

end Walk

section Example

def adding (name : Text) (content : List Byte) (s : Store) : Store :=
  { s with admindir := s.admindir.insert name content }

theorem adds_adding {name : Text} {content : List Byte} {s : Store} (hnone : s.file name = none)
    (hload : (binfmtLoad content).toOption.isSome = true) : Adds s (adding name content s) where
  kept key old hold := by
    have hne : key ≠ name := by
      rintro rfl
      rw [hnone] at hold
      cases hold
    change (s.admindir.insert name content).lookup key = some old
    rw [AList.lookup_insert_ne hne]
    exact hold
  loadable key hkey hsome := by
    have hat : (adding name content s).file key = (s.admindir.insert name content).lookup key := rfl
    by_cases hne : key = name
    · subst hne
      rw [AList.lookup_insert] at hat
      rw [record_of_file hat]
      exact hload
    · rw [AList.lookup_insert_ne hne] at hat
      rw [hat, show s.admindir.lookup key = none from hkey] at hsome
      cases hsome
  kernel_eq := rfl

def plainFile (magic : String) : List Byte :=
  text (":\nmagic\n0\n" ++ magic ++ "\n\n/bin/sh\n\n\n\n")

def twoFiles : Store :=
  adding (text "two") (plainFile "CD") (adding (text "one") (plainFile "AB") emptyStore)

/-- A table that is put into another order once it holds more than two formats. The order is
made up: gnulib's hash.c does not rehash at three entries, but it does so at some number. -/
def rehashingEnv : Env :=
  { plainEnv with
    walk := fun t => if t.keys.length ≤ 2 then t.keys else t.keys.reverse
    walk_perm := fun t => by
      split
      · exact List.Perm.refl _
      · exact List.reverse_perm _ }

def opened : Ran Effect Memory Bool := (opening rehashingEnv .enable).run twoFiles Memory.fresh

def late : Store → Store := adding (text "late") (plainFile "EF")

/-- The third format is added after act_enable has read the directory. The first act_enable
that the loop calls inserts it while the loop is running, and then the loop comes to its end
without having seen one of the two formats that were loaded before. -/
theorem late_inserted :
    opened.outcome = .returned true ∧ Adds (opened.state twoFiles) (late (opened.state twoFiles)) ∧
    ¬ NoneInserted rehashingEnv .enable (opened.state twoFiles) opened.memory [late, id] ∧
    (walk rehashingEnv .enable (opened.state twoFiles) opened.memory [late, id]).place =
      .finished ∧
    text "two" ∈ opened.memory.formats ∧
    text "two" ∉
      (walk rehashingEnv .enable (opened.state twoFiles) opened.memory [late, id]).visited := by
  refine ⟨by decide +kernel, adds_adding (by decide +kernel) (by decide +kernel), fun h => ?_,
    by decide +kernel, by decide +kernel, by decide +kernel⟩
  have hbefore : text "late" ∉ opened.memory.formats := by decide +kernel
  exact hbefore (h [late] (List.prefix_append [late] [id]) (text "late") (by decide +kernel))

end Example
end BinfmtSupport.Walking
