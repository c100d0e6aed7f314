import BinfmtSupport.Journal

/-!
Programs that change nothing but their memory, and what the memory has however they end. A
rehearsal is one: all that comes of it is what the process has printed. Since the state stays,
it is fixed for the whole run, and what is known of it can be used at every step.
Nothing here depends on what the effects, the states or the memory are.
-/
namespace BinfmtSupport.Upkeep

open Journal

universe u
variable {σ ε μ α β : Type u} [Effects ε σ] {s : σ} {T T₁ T' X : μ → Prop}

/-- What is known of the memory at the end: `T` where the run returned, `X` where it did not. -/
def AtEnd (T X : μ → Prop) (r : Ran ε μ α) : Prop :=
  match r.outcome with
  | .returned _ => T r.memory
  | .exited _ => X r.memory
  | .crashed => X r.memory

/-- Started with a memory that has `T`, the program issues nothing, and the memory has `T'` where
it returns, and `X` where it leaves or crashes. -/
def Inward (s : σ) (T T' X : μ → Prop) (p : Prog σ ε μ α) : Prop :=
  ∀ m, T m → (p.run s m).effects = [] ∧ AtEnd T' X (p.run s m)

section Rules
variable {p : Prog σ ε μ α} {f : α → Prog σ ε μ β}

theorem Inward.bind (hp : Inward s T T₁ X p) (hf : ∀ a, Inward s T₁ T' X (f a)) :
    Inward s T T' X (p >>= f) := by
  intro m hT
  obtain ⟨heffects, hend⟩ := hp m hT
  rcases hrun : p.run s m with ⟨o, m', es⟩
  rw [hrun] at heffects hend
  obtain rfl : es = [] := heffects
  cases o with
  | returned a =>
    rw [Prog.run_bind_returned hrun, replay_nil, Ran.after_nil]
    exact hf a m' hend
  | exited status =>
    rw [Prog.run_bind_exited hrun]
    exact ⟨rfl, hend⟩
  | crashed =>
    rw [Prog.run_bind_crashed hrun]
    exact ⟨rfl, hend⟩

omit [Effects ε σ] in
theorem Inward.mono (hp : Inward s T T₁ X p) (hsub : ∀ m, T₁ m → T' m) : Inward s T T' X p := by
  intro m hT
  obtain ⟨heffects, hend⟩ := hp m hT
  refine ⟨heffects, ?_⟩
  revert hend
  rcases p.run s m with ⟨o, m', es⟩
  cases o with
  | returned a => exact hsub m'
  | exited status => exact id
  | crashed => exact id

omit [Effects ε σ] in
/-- However it ends. -/
theorem Inward.memory (hp : Inward s T X X p) {m : μ} (hT : T m) : X (p.run s m).memory := by
  have hend := (hp m hT).2
  revert hend
  rcases p.run s m with ⟨o, m', es⟩
  cases o <;> exact id

theorem inward_pure (a : α) : Inward s T T X (pure a : Prog σ ε μ α) := fun _ hT => ⟨rfl, hT⟩

omit [Effects ε σ] in
theorem inward_exit (status : ℕ) (h : ∀ m, T m → X m) :
    Inward s T T' X (Prog.exit status : Prog σ ε μ α) := fun m hT => ⟨rfl, h m hT⟩

omit [Effects ε σ] in
theorem inward_crash (h : ∀ m, T m → X m) : Inward s T T' X (Prog.crash : Prog σ ε μ α) :=
  fun m hT => ⟨rfl, h m hT⟩

omit [Effects ε σ] in
theorem inward_remember {g : μ → μ} (h : ∀ m, T m → T' (g m)) :
    Inward s T T' X (Prog.remember g : Prog σ ε μ PUnit) := fun m hT => ⟨rfl, h m hT⟩

theorem inward_observe_bind {f : σ → Prog σ ε μ β} (h : Inward s T T' X (f s)) :
    Inward s T T' X (Prog.observe >>= f) := fun m hT => by
  rw [Prog.run_observe_bind]
  exact h m hT

theorem inward_recollect_bind {f : μ → Prog σ ε μ β} (h : ∀ m, T m → Inward s T T' X (f m)) :
    Inward s T T' X (Prog.recollect >>= f) := fun m hT => by
  rw [Prog.run_recollect_bind]
  exact h m hT m hT

end Rules
end BinfmtSupport.Upkeep
