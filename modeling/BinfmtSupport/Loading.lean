import BinfmtSupport.Actions

/-!
What reading the database does. Loading records issues no effects; it either fills the
table, where the records that are already there win, or leaves the process with status 2.
The choice between an interpreter and run-detectors depends on the table and on the
files together, in whatever order either is enumerated.
-/
namespace BinfmtSupport.Loading

open CText Kvhash Format Regstring Journal Stores Actions

/-- A file of this name, if there is one, holds a record. -/
def Intact (s : Store) (name : Text) : Prop :=
  (s.file name).isSome = true → (s.record name).isSome = true

def remembered (t : Table Text Binfmt) (name : Text) : Option Binfmt → Table Text Binfmt
  | some b => kvhashInsert t name b
  | none => t

def rememberAll (s : Store) (t : Table Text Binfmt) (names : List Text) : Table Text Binfmt :=
  names.foldl (fun t name => remembered t name (s.record name)) t

/-- The record that a run uses for a name: the one in the table, else the stored one. -/
def visible (s : Store) (t : Table Text Binfmt) (name : Text) : Option Binfmt :=
  (kvhashLookup t name).or (s.record name)

/-- Two tables that lead to the same records over one database. -/
def SameView (s : Store) (t t' : Table Text Binfmt) : Prop :=
  ∀ key, visible s t' key = visible s t key

/-- All calls succeed. -/
def Reliable (env : Env) : Prop := ∀ time, env.faults time = .none

theorem ok_of_reliable {env : Env} (h : Reliable env) (time : ℕ) : env.ok time = true := by
  simp [Env.ok, h time]

theorem plainEnv_reliable : Reliable plainEnv := fun _ => rfl

section Table

theorem record_of_file {s : Store} {name : Text} {content : List Byte}
    (h : s.file name = some content) : s.record name = (binfmtLoad content).toOption := by
  simp only [Store.record, h]

theorem record_of_missing {s : Store} {name : Text} (h : s.file name = none) :
    s.record name = none := by
  simp only [Store.record, h]

theorem record_congr {s t : Store} {name : Text} (h : s.file name = t.file name) :
    s.record name = t.record name := by
  simp only [Store.record, h]

/-- A loss makes no record. -/
theorem record_replay_of_loss {es : List Effect} {s : Store} {name : Text} {r : Binfmt}
    (h : ∀ e ∈ es, e.isLoss = true) (hr : (replay es s).record name = some r) :
    s.record name = some r := by
  rcases file_replay_of_loss es name s h with hsame | hnone | hempty
  · rw [← record_congr hsame]
    exact hr
  · rw [record_of_missing hnone] at hr
    cases hr
  · rw [record_of_file hempty] at hr
    cases hr

theorem lookup_remembered (t : Table Text Binfmt) (name key : Text) (r : Option Binfmt) :
    kvhashLookup (remembered t name r) key =
      (kvhashLookup t key).or (if key = name then r else none) := by
  cases r with
  | none => simp [remembered]
  | some b =>
    by_cases hk : key = name
    · subst hk
      simp only [remembered, kvhashLookup_insert, if_true]
      cases kvhashLookup t key <;> rfl
    · simp only [remembered, kvhashLookup_insert_ne hk, hk, if_false, Option.or_none]

/-- A record that was asked for is in the table, as far as there is one. -/
theorem lookup_remembered_self (s : Store) (t : Table Text Binfmt) (name : Text) :
    kvhashLookup (remembered t name (s.record name)) name = visible s t name := by
  rw [lookup_remembered, visible, if_pos rfl]

/-- Where nothing can be seen under an intact name there is neither a file nor a record. -/
theorem missing_of_visible {s : Store} {t : Table Text Binfmt} {name : Text}
    (hintact : Intact s name) (h : visible s t name = none) :
    s.file name = none ∧ kvhashLookup t name = none := by
  rw [visible, Option.or_eq_none_iff] at h
  refine ⟨?_, h.1⟩
  by_contra hfile
  have hrecord := hintact (Option.isSome_iff_ne_none.mpr hfile)
  rw [h.2] at hrecord
  cases hrecord

theorem lookup_rememberAll (s : Store) (names : List Text) (t : Table Text Binfmt)
    (key : Text) : kvhashLookup (rememberAll s t names) key =
      (kvhashLookup t key).or (if key ∈ names then s.record key else none) := by
  unfold rememberAll
  induction names generalizing t with
  | nil => simp
  | cons name rest ih =>
    rw [List.foldl_cons, ih, lookup_remembered, Option.or_assoc]
    congr 1
    by_cases hk : key = name
    · subst hk
      cases s.record key <;> simp
    · simp [hk]

theorem isSome_file_iff (s : Store) (name : Text) :
    (s.file name).isSome = true ↔ name ∈ s.admindir.keys := AList.lookup_isSome

/-- Reading the whole directory makes every stored record visible in the table. -/
theorem lookup_rememberAll_readdir (env : Env) (s : Store) (t : Table Text Binfmt)
    (key : Text) :
    kvhashLookup (rememberAll s t (env.readdir s.admindir)) key = visible s t key := by
  rw [lookup_rememberAll, visible]
  congr 1
  split
  · rfl
  · rename_i hk
    rw [(env.readdir_perm s.admindir).mem_iff, ← isSome_file_iff] at hk
    exact (record_of_missing (by simpa using hk)).symm

theorem sameView_remembered (s : Store) (t : Table Text Binfmt) (name : Text) :
    SameView s t (remembered t name (s.record name)) := by
  intro key
  rw [visible, visible, lookup_remembered, Option.or_assoc]
  congr 1
  by_cases hk : key = name
  · subst hk
    cases s.record key <;> simp
  · simp [hk]

/-- A table that already shows what is visible shows nothing more with the files. -/
theorem sameView_of_lookup {s : Store} {t t' : Table Text Binfmt}
    (h : ∀ key, kvhashLookup t' key = visible s t key) : SameView s t t' := by
  intro key
  rw [visible, h key, visible, Option.or_assoc, Option.or_self]

theorem visible_empty (s : Store) (key : Text) : visible s ∅ key = s.record key := by
  rw [visible, kvhashLookup_empty, Option.none_or]

theorem visible_congr {s u : Store} (h : u.admindir = s.admindir) (t : Table Text Binfmt)
    (key : Text) : visible u t key = visible s t key := by
  have hfile : u.file key = s.file key := by simp only [Store.file, h]
  rw [visible, visible, record_congr hfile]

end Table

section Records
variable (env : Env)

theorem run_loadFormat_missing (name : Text) (quiet : Bool) (s : Store) (m : Memory)
    (h : s.file name = none) : (loadFormat env name quiet).run s m = ⟨.returned (), m, []⟩ := by
  simp [loadFormat, h]

theorem run_loadFormat_unreadable (name : Text) (quiet : Bool) (s : Store) (m : Memory)
    (h : (s.file name).isSome = true) (hf : env.ok m.clock = false) :
    ∃ m', (loadFormat env name quiet).run s m = ⟨.exited 2, m', []⟩ := by
  obtain ⟨content, hc⟩ := Option.isSome_iff_exists.mp h
  simp [loadFormat, hc, hf]

theorem run_loadFormat_quiet (name : Text) (s : Store) (m : Memory)
    (h : (s.file name).isSome = true) (hok : env.ok m.clock = true) :
    (loadFormat env name true).run s m =
      ⟨.returned (), { m.tick with formats := remembered m.formats name (s.record name) }, []⟩ := by
  obtain ⟨content, hc⟩ := Option.isSome_iff_exists.mp h
  have hr := record_of_file hc
  cases hl : binfmtLoad content with
  | error field =>
    simp only [hl, Except.toOption] at hr
    simp [loadFormat, hc, hok, hl, hr, remembered, Memory.tick]
  | ok format =>
    simp only [hl, Except.toOption] at hr
    simp [loadFormat, hc, hok, hl, hr, remembered]

/-- Loading one record fills the table or ends the process, and then for a reason. -/
theorem loadFormat_cases (name : Text) (quiet : Bool) (s : Store) (m : Memory) :
    (∃ m', (loadFormat env name quiet).run s m = ⟨.returned (), m', []⟩ ∧
      m'.formats = remembered m.formats name (s.record name) ∧
      (quiet = true ∨ Intact s name)) ∨
    (∃ m', (loadFormat env name quiet).run s m = ⟨.exited 2, m', []⟩ ∧
      ((∃ time, env.ok time = false) ∨ quiet = false ∧ ¬ Intact s name)) := by
  cases hc : s.file name with
  | none =>
    left
    refine ⟨m, run_loadFormat_missing env name quiet s m hc, ?_, Or.inr ?_⟩
    · rw [record_of_missing hc]
      rfl
    · intro h
      simp [hc] at h
  | some content =>
    have hr := record_of_file hc
    have hsome : (s.file name).isSome = true := by simp [hc]
    cases hok : env.ok m.clock with
    | false =>
      right
      obtain ⟨m', hrun⟩ := run_loadFormat_unreadable env name quiet s m hsome hok
      exact ⟨m', hrun, Or.inl ⟨m.clock, hok⟩⟩
    | true =>
      cases quiet with
      | true =>
        left
        exact ⟨_, run_loadFormat_quiet env name s m hsome hok, rfl, Or.inl rfl⟩
      | false =>
        cases hl : binfmtLoad content with
        | error field =>
          right
          refine ⟨_, by simp [loadFormat, hc, hok, hl]; rfl, Or.inr ⟨rfl, ?_⟩⟩
          intro hin
          simpa [hr, hl, Except.toOption] using hin hsome
        | ok format =>
          left
          simp only [hl, Except.toOption] at hr
          refine ⟨_, by simp [loadFormat, hc, hok, hl]; rfl, ?_, Or.inr ?_⟩
          · simp [hr, remembered]
          · intro _
            simp [hr]

theorem loadFormats_cases (quiet : Bool) (names : List Text) (s : Store) (m : Memory) :
    (∃ m', (loadFormats env quiet names).run s m = ⟨.returned (), m', []⟩ ∧
      m'.formats = rememberAll s m.formats names ∧
      (quiet = true ∨ ∀ name ∈ names, Intact s name)) ∨
    (∃ m', (loadFormats env quiet names).run s m = ⟨.exited 2, m', []⟩ ∧
      ((∃ time, env.ok time = false) ∨ quiet = false ∧ ∃ name ∈ names, ¬ Intact s name)) := by
  induction names generalizing m with
  | nil =>
    left
    exact ⟨m, rfl, rfl, Or.inr (by simp)⟩
  | cons name rest ih =>
    rcases loadFormat_cases env name quiet s m with
      ⟨m₁, hrun, hformats, hintact⟩ | ⟨m₁, hrun, hwhy⟩
    · have hstep : (loadFormats env quiet (name :: rest)).run s m =
          (loadFormats env quiet rest).run s m₁ := by
        rw [loadFormats, Prog.run_bind_returned hrun]
        rfl
      rcases ih m₁ with ⟨m₂, hrest, hformats₂, hintact₂⟩ | ⟨m₂, hrest, hwhy⟩
      · left
        refine ⟨m₂, hstep.trans hrest, ?_, ?_⟩
        · rw [hformats₂, hformats]
          rfl
        · rcases hintact with hq | hname
          · exact Or.inl hq
          · rcases hintact₂ with hq | hall
            · exact Or.inl hq
            · right
              intro n hn
              rcases List.mem_cons.mp hn with rfl | hn
              · exact hname
              · exact hall n hn
      · right
        refine ⟨m₂, hstep.trans hrest, ?_⟩
        rcases hwhy with htime | ⟨hq, n, hn, hbad⟩
        · exact Or.inl htime
        · exact Or.inr ⟨hq, n, List.mem_cons_of_mem name hn, hbad⟩
    · right
      refine ⟨m₁, ?_, ?_⟩
      · rw [loadFormats, Prog.run_bind_exited hrun]
      · rcases hwhy with htime | ⟨hq, hbad⟩
        · exact Or.inl htime
        · exact Or.inr ⟨hq, name, List.mem_cons_self, hbad⟩

/-- Reading the directory makes every record visible, or ends the process because a call
failed or, unless quiet, because some file holds no record. -/
theorem loadAllFormats_cases (quiet : Bool) (s : Store) (m : Memory) :
    (∃ m', (loadAllFormats env quiet).run s m = ⟨.returned (), m', []⟩ ∧
      (∀ key, kvhashLookup m'.formats key = visible s m.formats key) ∧
      (quiet = true ∨ ∀ name, Intact s name)) ∨
    (∃ m', (loadAllFormats env quiet).run s m = ⟨.exited 2, m', []⟩ ∧
      ((∃ time, env.ok time = false) ∨ quiet = false ∧ ∃ name, ¬ Intact s name)) := by
  cases hok : env.ok m.clock with
  | false =>
    right
    refine ⟨_, by simp [loadAllFormats, hok]; rfl, Or.inl ⟨m.clock, hok⟩⟩
  | true =>
    have hstep : (loadAllFormats env quiet).run s m =
        (loadFormats env quiet (env.readdir s.admindir)).run s m.tick := by
      simp [loadAllFormats, hok]
    rcases loadFormats_cases env quiet (env.readdir s.admindir) s m.tick with
      ⟨m', hrun, hformats, hintact⟩ | ⟨m', hrun, hwhy⟩
    · left
      refine ⟨m', hstep.trans hrun, ?_, ?_⟩
      · intro key
        rw [hformats, lookup_rememberAll_readdir]
        rfl
      · rcases hintact with hq | hall
        · exact Or.inl hq
        · right
          intro name hsome
          refine hall name ?_ hsome
          rw [(env.readdir_perm s.admindir).mem_iff]
          exact (isSome_file_iff s name).mp hsome
    · right
      refine ⟨m', hstep.trans hrun, ?_⟩
      rcases hwhy with htime | ⟨hq, n, -, hbad⟩
      · exact Or.inl htime
      · exact Or.inr ⟨hq, n, hbad⟩

theorem silent_warn (w : Warning) : Prog.Silent (warn w) := fun _ _ => rfl

theorem silent_answer (a : Answer) : Prog.Silent (answer a) := fun _ _ => rfl

theorem silent_quit {α : Type} (w : Warning) : Prog.Silent (quit w : Act α) := fun _ _ => rfl

theorem silent_loadFormat (name : Text) (quiet : Bool) :
    Prog.Silent (loadFormat env name quiet) := by
  intro s m
  rcases loadFormat_cases env name quiet s m with ⟨m', hrun, -⟩ | ⟨m', hrun, -⟩ <;> rw [hrun]

theorem silent_loadAllFormats (quiet : Bool) : Prog.Silent (loadAllFormats env quiet) := by
  intro s m
  rcases loadAllFormats_cases env quiet s m with ⟨m', hrun, -⟩ | ⟨m', hrun, -⟩ <;> rw [hrun]

end Records

section Detector
variable (env : Env)

/-- Another name in the table or the database has a record that is equal to this one. -/
def Shared (s : Store) (t : Table Text Binfmt) (name : Text) (b : Binfmt) : Prop :=
  ∃ key, key ≠ name ∧ ∃ other, visible s t key = some other ∧ binfmtEquals b other = some true

/-- When the code hands the files of a format to run-detectors. -/
def NeedsDetector (s : Store) (t : Table Text Binfmt) (name : Text) (b : Binfmt) : Prop :=
  hasDetector b = true ∨ Shared s t name b

/-- The scan stops at the first equal record, and crashes where it meets a record that
cannot be compared. -/
theorem scanFormats_cases (name : Text) (b : Binfmt) (t : Table Text Binfmt)
    (keys : List Text) (s : Store) (m : Memory) :
    ((scanFormats name b t keys).run s m = ⟨.returned true, m, []⟩ ∧
      ∃ key ∈ keys, key ≠ name ∧ ∃ other, kvhashLookup t key = some other ∧
        binfmtEquals b other = some true) ∨
    ((scanFormats name b t keys).run s m = ⟨.returned false, m, []⟩ ∧
      ∀ key ∈ keys, key ≠ name → ∀ other, kvhashLookup t key = some other →
        binfmtEquals b other = some false) ∨
    ((scanFormats name b t keys).run s m = ⟨.crashed, m, []⟩ ∧
      ∃ key ∈ keys, key ≠ name ∧ ∃ other, kvhashLookup t key = some other ∧
        binfmtEquals b other = none) := by
  induction keys with
  | nil =>
    right
    left
    exact ⟨rfl, by simp⟩
  | cons key rest ih =>
    have skip : (∀ other, key ≠ name → kvhashLookup t key = some other →
          binfmtEquals b other = some false) →
        (scanFormats name b t (key :: rest)).run s m = (scanFormats name b t rest).run s m := by
      intro hno
      rw [scanFormats]
      split
      · rfl
      · rename_i hne
        split
        · rfl
        · rename_i other hl
          rw [hno other hne hl]
    by_cases hno : ∀ other, key ≠ name → kvhashLookup t key = some other →
        binfmtEquals b other = some false
    · rw [skip hno]
      rcases ih with ⟨hrun, k, hk, hkey⟩ | ⟨hrun, hall⟩ | ⟨hrun, k, hk, hkey⟩
      · exact Or.inl ⟨hrun, k, List.mem_cons_of_mem key hk, hkey⟩
      · refine Or.inr (Or.inl ⟨hrun, ?_⟩)
        intro k hk hne other hl
        rcases List.mem_cons.mp hk with rfl | hk
        · exact hno other hne hl
        · exact hall k hk hne other hl
      · exact Or.inr (Or.inr ⟨hrun, k, List.mem_cons_of_mem key hk, hkey⟩)
    · simp only [not_forall] at hno
      obtain ⟨other, hne, hl, hdiff⟩ := hno
      cases he : binfmtEquals b other with
      | none =>
        right
        right
        refine ⟨?_, key, List.mem_cons_self, hne, other, hl, he⟩
        simp only [scanFormats, hne, if_false, hl, he]
        rfl
      | some equal =>
        cases equal with
        | true =>
          left
          refine ⟨?_, key, List.mem_cons_self, hne, other, hl, he⟩
          simp only [scanFormats, hne, if_false, hl, he]
          rfl
        | false => exact absurd he hdiff

theorem mem_walk_of_lookup {t : Table Text Binfmt} {key : Text} {other : Binfmt}
    (h : kvhashLookup t key = some other) : key ∈ env.walk t := by
  rw [(env.walk_perm t).mem_iff]
  exact AList.lookup_isSome.mp (by simp [show t.lookup key = some other from h])

/-- An answer about the detector is right, however the tables are enumerated. -/
theorem needDetector_cases (name : Text) (b : Binfmt) (s : Store) (m : Memory) :
    (∃ d m', (needDetector env name b).run s m = ⟨.returned d, m', []⟩ ∧
      (d = true ↔ NeedsDetector s m.formats name b) ∧ SameView s m.formats m'.formats) ∨
    (∃ m', (needDetector env name b).run s m = ⟨.exited 2, m', []⟩ ∧
      ∃ time, env.ok time = false) ∨
    (∃ m', (needDetector env name b).run s m = ⟨.crashed, m', []⟩ ∧
      ∃ key other, visible s m.formats key = some other ∧ binfmtEquals b other = none) := by
  cases hd : hasDetector b with
  | true =>
    left
    refine ⟨true, m, by simp [needDetector, hd], ?_, fun _ => rfl⟩
    simp [NeedsDetector, hd]
  | false =>
    rcases loadAllFormats_cases env true s m with
      ⟨m', hrun, hvisible, -⟩ | ⟨m', hrun, hwhy⟩
    · have hstep : (needDetector env name b).run s m =
          (scanFormats name b m'.formats (env.walk m'.formats)).run s m' := by
        simp only [needDetector, hd, Bool.false_eq_true, if_false]
        rw [Prog.run_bind_returned hrun]
        simp
      rcases scanFormats_cases name b m'.formats (env.walk m'.formats) s m' with
        ⟨hscan, key, -, hne, other, hl, he⟩ | ⟨hscan, hall⟩ | ⟨hscan, key, -, -, other, hl, he⟩
      · left
        refine ⟨true, m', hstep.trans hscan, ?_, sameView_of_lookup hvisible⟩
        simp only [true_iff]
        right
        exact ⟨key, hne, other, (hvisible key) ▸ hl, he⟩
      · left
        refine ⟨false, m', hstep.trans hscan, ?_, sameView_of_lookup hvisible⟩
        simp only [Bool.false_eq_true, false_iff]
        rintro (h | ⟨key, hne, other, hl, he⟩)
        · simp [hd] at h
        · rw [← hvisible key] at hl
          have := hall key (mem_walk_of_lookup env hl) hne other hl
          simp [he] at this
      · right
        right
        exact ⟨m', hstep.trans hscan, key, other, (hvisible key) ▸ hl, he⟩
    · right
      left
      refine ⟨m', ?_, ?_⟩
      · simp only [needDetector, hd, Bool.false_eq_true, if_false]
        rw [Prog.run_bind_exited hrun]
      · rcases hwhy with htime | ⟨hq, -⟩
        · exact htime
        · cases hq

end Detector
end BinfmtSupport.Loading
