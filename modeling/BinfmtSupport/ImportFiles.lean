import BinfmtSupport.Diagnostics

/-!
The files that act_import comes to: the one that it is given, or in the loop over importdir one
after the other, as long as none of them ends the process. A file begins in the state and with
the memory that those before it have left.
-/
namespace BinfmtSupport.ImportFiles

open CText Kvhash Format Journal Stores Actions CommandLine

/-- is_file (importdir_name) -/
def Listed (env : Env) (name : Text) : Prop :=
  (env.files (env.importdir ++ [slash] ++ name)).isSome = true

/-- How the loop over these names comes to a file. -/
inductive Reaches (env : Env) (file : Text) (t : Store) (n : Memory) :
    List Text → Store → Memory → Prop
  | here {rest : List Text} (hfile : Listed env file) : Reaches env file t n (file :: rest) t n
  | past {name : Text} {rest : List Text} {s : Store} {m m' : Memory} {worked : Bool}
      {es : List Effect} (hfile : Listed env name)
      (hrun : (actImportName env name).run s m = ⟨.returned worked, m', es⟩)
      (h : Reaches env file t n rest (replay es s) m') : Reaches env file t n (name :: rest) s m
  | skip {name : Text} {rest : List Text} {s : Store} {m : Memory} (hfile : ¬ Listed env name)
      (h : Reaches env file t n rest s m) : Reaches env file t n (name :: rest) s m

inductive Begins (env : Env) (s : Store) (file : Text) : Option Text → Store → Memory → Prop
  | given : Begins env s file (some file) s Memory.fresh
  | listed {t : Store} {n : Memory} (hopen : env.ok 0 = true)
      (h : Reaches env file t n env.importNames s Memory.fresh.tick) :
      Begins env s file none t n

section Loop
variable {env : Env} {names : List Text} {s : Store} {m : Memory}

theorem run_importEach_skip {name : Text} {rest : List Text} (hfile : ¬ Listed env name) :
    (importEach env (name :: rest)).run s m = (importEach env rest).run s m := by
  unfold Listed at hfile
  rw [importEach, if_neg hfile]

theorem run_importEach_listed {name : Text} {rest : List Text} (hfile : Listed env name) :
    (importEach env (name :: rest)).run s m = (actImportName env name >>= fun worked =>
      importEach env rest >>= fun others => pure (worked && others)).run s m := by
  unfold Listed at hfile
  rw [importEach, if_pos hfile]

/-- Where the loop returns 1, so has every file. -/
theorem returned_of_reaches {m' : Memory} {es : List Effect}
    (hrun : (importEach env names).run s m = ⟨.returned true, m', es⟩) {file : Text} {t : Store}
    {n : Memory} (h : Reaches env file t n names s m) :
    ((actImportName env file).run t n).outcome = .returned true := by
  induction h generalizing m' es with
  | here hfile =>
    rw [run_importEach_listed hfile] at hrun
    obtain ⟨worked, m₁, fs, gs, hfirst, hothers, -⟩ := Prog.returned_of_run_bind hrun
    obtain ⟨others, m₂, fs', gs', -, hboth, -⟩ := Prog.returned_of_run_bind hothers
    rw [hfirst]
    rw [Prog.run_pure] at hboth
    cases worked with
    | true => rfl
    | false => cases hboth
  | past hfile hfirst _ ih =>
    rw [run_importEach_listed hfile, Prog.run_bind_returned hfirst] at hrun
    rename_i name rest s m m₁ worked es₁ _
    rcases hmore : (importEach env rest).run (replay es₁ s) m₁ with ⟨o, m₂, es₂⟩
    cases o with
    | returned others =>
      rw [Prog.run_bind_returned hmore, Prog.run_pure] at hrun
      cases others with
      | true => exact ih hmore
      | false =>
        rw [Bool.and_false] at hrun
        cases hrun
    | exited status =>
      rw [Prog.run_bind_exited hmore] at hrun
      cases hrun
    | crashed =>
      rw [Prog.run_bind_crashed hmore] at hrun
      cases hrun
  | skip hfile _ ih =>
    rw [run_importEach_skip hfile] at hrun
    exact ih hrun

/-- A loop that does not return ends as one of its files does. -/
theorem exists_of_left (h : ∀ worked, ((importEach env names).run s m).outcome ≠ .returned worked) :
    ∃ file t n, Reaches env file t n names s m ∧
      ((actImportName env file).run t n).outcome = ((importEach env names).run s m).outcome := by
  induction names generalizing s m with
  | nil => exact absurd rfl (h true)
  | cons name rest ih =>
    by_cases hfile : Listed env name
    · rw [run_importEach_listed hfile] at h ⊢
      rcases hrun : (actImportName env name).run s m with ⟨o, m₁, es⟩
      cases o with
      | returned worked =>
        rw [Prog.run_bind_returned hrun] at h ⊢
        have hmore : ∀ others,
            ((importEach env rest).run (replay es s) m₁).outcome ≠ .returned others := by
          intro others hothers
          rcases hr : (importEach env rest).run (replay es s) m₁ with ⟨o, m₂, fs⟩
          rw [hr] at hothers
          cases hothers
          refine h (worked && others) ?_
          rw [Prog.run_bind_returned hr]
          rfl
        obtain ⟨file, t, n, hreach, hout⟩ := ih hmore
        refine ⟨file, t, n, .past hfile hrun hreach, hout.trans ?_⟩
        rcases hr : (importEach env rest).run (replay es s) m₁ with ⟨o, m₂, fs⟩
        cases o with
        | returned others => exact absurd (by rw [hr]) (hmore others)
        | exited status =>
          rw [Prog.run_bind_exited hr]
          rfl
        | crashed =>
          rw [Prog.run_bind_crashed hr]
          rfl
      | exited status =>
        exact ⟨name, s, m, .here hfile, by rw [Prog.run_bind_exited hrun, hrun]⟩
      | crashed => exact ⟨name, s, m, .here hfile, by rw [Prog.run_bind_crashed hrun, hrun]⟩
    · rw [run_importEach_skip hfile] at h ⊢
      obtain ⟨file, t, n, hreach, hout⟩ := ih h
      exact ⟨file, t, n, .skip hfile hreach, hout⟩

end Loop

section Run
variable {env : Env} {given : Option Text} {s : Store}

/-- act_import returns 1 only if it has done so for every file. -/
theorem returned_of_begins (hrun : ((actImport env given).run s Memory.fresh).outcome =
    .returned true) {file : Text} {t : Store} {n : Memory} (h : Begins env s file given t n) :
    ((actImportName env file).run t n).outcome = .returned true := by
  cases h with
  | given => exact hrun
  | listed hopen hreach =>
    rw [actImport, run_succeeds_bind, show Memory.fresh.clock = 0 from rfl, hopen,
      if_pos rfl] at hrun
    rcases hr : (importEach env env.importNames).run s Memory.fresh.tick with ⟨o, m', es⟩
    rw [hr] at hrun
    cases hrun
    exact returned_of_reaches hr hreach

/-- What does not return is the end of a file. -/
theorem exists_begun (h : ∀ worked,
    ((actImport env given).run s Memory.fresh).outcome ≠ .returned worked) :
    ∃ file t n, Begins env s file given t n ∧ ((actImportName env file).run t n).outcome =
      ((actImport env given).run s Memory.fresh).outcome := by
  cases given with
  | some file => exact ⟨file, s, Memory.fresh, .given, rfl⟩
  | none =>
    rw [actImport, run_succeeds_bind, show Memory.fresh.clock = 0 from rfl] at h ⊢
    cases hopen : env.ok 0 with
    | true =>
      rw [hopen, if_pos rfl] at h
      rw [if_pos rfl]
      obtain ⟨file, t, n, hreach, hout⟩ := exists_of_left h
      exact ⟨file, t, n, .listed hopen hreach, hout⟩
    | false =>
      rw [hopen] at h
      exact absurd rfl (h false)

/-- The status of a run of --import: it is 0 if all files have returned 1, it is 2 if one has
returned 0 or has left, and none where a file crashes. -/
theorem main_import_cases (env : Env) {opts : List Opt} {o : Options} (hparse : parse opts = .ok o)
    (hmode : o.mode = some .import) (s : Store) :
    (((CommandLine.main env opts).run s Memory.fresh).outcome = .returned () ∧
      ∀ file t n, Begins { env with test := o.test } s file o.name t n →
        ((actImportName { env with test := o.test } file).run t n).outcome = .returned true) ∨
    ((CommandLine.main env opts).run s Memory.fresh).outcome = .exited 2 ∨
    ((CommandLine.main env opts).run s Memory.fresh).outcome = .crashed ∧
      ∃ file t n, Begins { env with test := o.test } s file o.name t n ∧
        ((actImportName { env with test := o.test } file).run t n).outcome = .crashed := by
  have hmain : CommandLine.main env opts =
      exitStatus (actImport { env with test := o.test } o.name) := by
    simp only [CommandLine.main, hparse, runMode, hmode]
  rw [hmain, exitStatus]
  rcases hrun : (actImport { env with test := o.test } o.name).run s Memory.fresh with ⟨out, m', es⟩
  cases out with
  | returned worked =>
    rw [Prog.run_bind_returned hrun]
    cases worked with
    | true => exact Or.inl ⟨rfl, fun file t n h => returned_of_begins (by rw [hrun]) h⟩
    | false =>
      rw [if_neg Bool.false_ne_true, run_quit]
      exact Or.inr (Or.inl rfl)
  | exited status =>
    obtain ⟨_, -, -, hleft⟩ :=
      Diagnostics.tells_actImport { env with test := o.test } o.name s Memory.fresh
    obtain ⟨rfl, -⟩ := hleft status (by rw [hrun])
    rw [Prog.run_bind_exited hrun]
    exact Or.inr (Or.inl rfl)
  | crashed =>
    have hnone : ∀ worked, ((actImport { env with test := o.test } o.name).run s
        Memory.fresh).outcome ≠ .returned worked := by
      intro worked hworked
      rw [hrun] at hworked
      cases hworked
    obtain ⟨file, t, n, hbegins, hout⟩ := exists_begun hnone
    rw [Prog.run_bind_crashed hrun]
    rw [hrun] at hout
    exact Or.inr (Or.inr ⟨rfl, file, t, n, hbegins, hout⟩)

end Run
end BinfmtSupport.ImportFiles
