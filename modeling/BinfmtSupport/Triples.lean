import BinfmtSupport.Journal

/-!
A program logic for programs with a journal. A triple says what holds when a program
returns, and besides what holds wherever its journal can be cut: at every point of the
run, however the run ends. So one induction over the structure of a program covers
failures, exits and interruptions alike.
Nothing here depends on what the effects, the states or the memory are.
-/
namespace BinfmtSupport.Triples

open Journal

universe u
variable {σ ε μ α β : Type u} [Effects ε σ]

section Cuts
variable {I : σ → Prop}

def Along (I : σ → Prop) (es : List ε) (s : σ) : Prop :=
  ∀ done, done <+: es → I (replay done s)

theorem Along.final {es : List ε} {s : σ} (h : Along I es s) : I (replay es s) :=
  h es List.prefix_rfl

theorem along_nil {s : σ} : Along I ([] : List ε) s ↔ I s := by
  constructor
  · intro h
    exact h.final
  · intro h done hdone
    rw [List.prefix_nil.mp hdone]
    exact h

theorem along_append {es fs : List ε} {s : σ} :
    Along I (es ++ fs) s ↔ Along I es s ∧ Along I fs (replay es s) := by
  constructor
  · intro h
    refine ⟨fun done hdone => h done (hdone.trans (List.prefix_append es fs)), ?_⟩
    intro done hdone
    have hcut := h (es ++ done) ((List.prefix_append_right_inj es).mpr hdone)
    rwa [replay_append] at hcut
  · rintro ⟨hfirst, hsecond⟩ done hdone
    rcases cut_append hdone with hes | ⟨more, rfl, hmore⟩
    · exact hfirst done hes
    · rw [replay_append]
      exact hsecond more hmore

theorem along_singleton {e : ε} {s : σ} : Along I [e] s ↔ I s ∧ I (apply e s) := by
  constructor
  · intro h
    exact ⟨h [] List.nil_prefix, h.final⟩
  · rintro ⟨hs, he⟩ done hdone
    cases done with
    | nil => exact hs
    | cons x rest =>
      obtain ⟨rfl, hrest⟩ := List.cons_prefix_cons.mp hdone
      rw [List.prefix_nil.mp hrest]
      exact he

theorem Along.mono {J : σ → Prop} {es : List ε} {s : σ} (h : Along I es s)
    (hIJ : ∀ t, I t → J t) : Along J es s := fun done hdone => hIJ _ (h done hdone)

/-- What every effect of a journal preserves holds all along it. -/
theorem along_of_forall {es : List ε} {s : σ}
    (h : ∀ e ∈ es, ∀ t, I t → I (apply e t)) (hs : I s) : Along I es s := by
  intro done hdone
  have hmem : ∀ e ∈ done, ∀ t, I t → I (apply e t) := fun e he => h e (hdone.subset he)
  clear hdone
  induction done generalizing s with
  | nil => exact hs
  | cons e rest ih =>
    exact ih (hmem e List.mem_cons_self s hs)
      (fun x hx => hmem x (List.mem_cons_of_mem e hx))

end Cuts

/-- Started where `P` holds, the program has `I` at every point at which it can be cut,
and if it returns `Q` holds of its value, the state and the memory. -/
def Triple (I : σ → Prop) (P : σ → μ → Prop) (p : Prog σ ε μ α) (Q : α → σ → μ → Prop) : Prop :=
  ∀ s m, P s m → Along I (p.run s m).effects s ∧
    ∀ a, (p.run s m).outcome = .returned a → Q a ((p.run s m).state s) (p.run s m).memory

section Rules
variable {I : σ → Prop} {P P' : σ → μ → Prop} {Q Q' : α → σ → μ → Prop}
  {R : β → σ → μ → Prop} {p : Prog σ ε μ α} {f : α → Prog σ ε μ β}

theorem Triple.bind (hp : Triple I P p Q) (hf : ∀ a, Triple I (Q a) (f a) R) :
    Triple I P (p >>= f) R := by
  intro s m hP
  obtain ⟨hcuts, hpost⟩ := hp s m hP
  rcases Prog.run_bind_cases p f s m with ⟨a, m', es, hrun, hbind⟩ | ⟨heff, hend⟩
  · rw [hrun] at hcuts hpost
    obtain ⟨hcuts', hpost'⟩ := hf a (replay es s) m' (hpost a rfl)
    rw [hbind]
    refine ⟨along_append.mpr ⟨hcuts, hcuts'⟩, ?_⟩
    intro b hb
    have hlast := hpost' b hb
    simp only [Ran.state, Ran.effects_after, Ran.memory_after, replay_append] at hlast ⊢
    exact hlast
  · rw [heff]
    exact ⟨hcuts, fun b hb => absurd hb (hend b)⟩

theorem Triple.conseq (h : Triple I P p Q) (hpre : ∀ s m, P' s m → P s m)
    (hpost : ∀ a s m, Q a s m → Q' a s m) : Triple I P' p Q' := by
  intro s m hP
  obtain ⟨hcuts, hend⟩ := h s m (hpre s m hP)
  exact ⟨hcuts, fun a ha => hpost a _ _ (hend a ha)⟩

/-- What is known of a program's results can be added to a triple. -/
theorem Triple.and (h : Triple I P p Q) (hret : ∀ s m, P s m → ∀ a,
    (p.run s m).outcome = .returned a → Q' a ((p.run s m).state s) (p.run s m).memory) :
    Triple I P p (fun a s m => Q a s m ∧ Q' a s m) := by
  intro s m hP
  obtain ⟨hcuts, hend⟩ := h s m hP
  exact ⟨hcuts, fun a ha => ⟨hend a ha, hret s m hP a ha⟩⟩

/-- The case of a run is all that a triple needs of a program. -/
theorem triple_of_run (h : ∀ s m, P s m → ∃ o m' es, p.run s m = ⟨o, m', es⟩ ∧ Along I es s ∧
    ∀ a, o = .returned a → Q a (replay es s) m') : Triple I P p Q := by
  intro s m hP
  obtain ⟨o, m', es, hrun, hcuts, hpost⟩ := h s m hP
  rw [hrun]
  exact ⟨hcuts, hpost⟩

theorem triple_pure {a : α} (hI : ∀ s m, P s m → I s) (h : ∀ s m, P s m → Q a s m) :
    Triple I P (pure a : Prog σ ε μ α) Q := by
  refine triple_of_run (fun s m hP => ⟨_, m, [], rfl, along_nil.mpr (hI s m hP), ?_⟩)
  intro b hb
  cases hb
  exact h s m hP

theorem triple_exit {status : ℕ} (hI : ∀ s m, P s m → I s) :
    Triple I P (Prog.exit status : Prog σ ε μ α) Q :=
  triple_of_run (fun s m hP => ⟨_, m, [], rfl, along_nil.mpr (hI s m hP), fun _ hb => by cases hb⟩)

theorem triple_crash (hI : ∀ s m, P s m → I s) : Triple I P (Prog.crash : Prog σ ε μ α) Q :=
  triple_of_run (fun s m hP => ⟨_, m, [], rfl, along_nil.mpr (hI s m hP), fun _ hb => by cases hb⟩)

/-- What the program sees of the state is the state. -/
theorem triple_observe_bind {f : σ → Prog σ ε μ β}
    (h : ∀ t, Triple I (fun s m => P s m ∧ s = t) (f t) R) :
    Triple I P (Prog.observe >>= f) R := by
  intro s m hP
  rw [Prog.run_observe_bind]
  exact h s s m ⟨hP, rfl⟩

theorem triple_recollect_bind {f : μ → Prog σ ε μ β}
    (h : ∀ n, Triple I (fun s m => P s m ∧ m = n) (f n) R) :
    Triple I P (Prog.recollect >>= f) R := by
  intro s m hP
  rw [Prog.run_recollect_bind]
  exact h m s m ⟨hP, rfl⟩

end Rules

/-- An invariant of the state and one of the memory that the program keeps, the first at
every point and the second as long as the process goes on. -/
def Stays (I : σ → Prop) (T : μ → Prop) (p : Prog σ ε μ α) : Prop :=
  Triple I (fun s m => I s ∧ T m) p (fun _ s m => I s ∧ T m)

section Stays
variable {I : σ → Prop} {T : μ → Prop} {p : Prog σ ε μ α} {f : α → Prog σ ε μ β}

theorem Stays.bind (hp : Stays I T p) (hf : ∀ a, Stays I T (f a)) : Stays I T (p >>= f) :=
  Triple.bind hp hf

theorem stays_pure (a : α) : Stays I T (pure a : Prog σ ε μ α) :=
  triple_pure (fun _ _ h => h.1) (fun _ _ h => h)

theorem stays_exit (status : ℕ) : Stays I T (Prog.exit status : Prog σ ε μ α) :=
  triple_exit (fun _ _ h => h.1)

theorem stays_crash : Stays I T (Prog.crash : Prog σ ε μ α) := triple_crash (fun _ _ h => h.1)

theorem stays_observe_bind {f : σ → Prog σ ε μ β} (h : ∀ s, Stays I T (f s)) :
    Stays I T (Prog.observe >>= f) :=
  triple_observe_bind (fun t => (h t).conseq (fun _ _ hP => hP.1) (fun _ _ _ hQ => hQ))

theorem stays_recollect_bind {f : μ → Prog σ ε μ β} (h : ∀ m, Stays I T (f m)) :
    Stays I T (Prog.recollect >>= f) :=
  triple_recollect_bind (fun n => (h n).conseq (fun _ _ hP => hP.1) (fun _ _ _ hQ => hQ))

theorem stays_emit {e : ε} (h : ∀ s, I s → I (apply e s)) :
    Stays I T (Prog.emit e : Prog σ ε μ PUnit) :=
  triple_of_run (fun s m hP => ⟨_, m, [e], rfl, along_singleton.mpr ⟨hP.1, h s hP.1⟩,
    fun _ _ => ⟨h s hP.1, hP.2⟩⟩)

theorem stays_remember {g : μ → μ} (h : ∀ m, T m → T (g m)) :
    Stays I T (Prog.remember g : Prog σ ε μ PUnit) :=
  triple_of_run (fun _ m hP => ⟨_, g m, [], rfl, along_nil.mpr hP.1,
    fun _ _ => ⟨hP.1, h m hP.2⟩⟩)

/-- Everything that the run passes through, from a start where both invariants hold. -/
theorem Stays.along (h : Stays I T p) {s : σ} {m : μ} (hI : I s) (hT : T m) :
    Along I (p.run s m).effects s := (h s m ⟨hI, hT⟩).1

end Stays

/-- The program does not crash where the memory is in order, and leaves it so. -/
def Orderly (T : μ → Prop) (p : Prog σ ε μ α) : Prop :=
  ∀ s m, T m → (p.run s m).outcome ≠ .crashed ∧
    ∀ a, (p.run s m).outcome = .returned a → T (p.run s m).memory

section Orderly
variable {T : μ → Prop} {p : Prog σ ε μ α} {f : α → Prog σ ε μ β}

omit [Effects ε σ] in
/-- The case of a run is all that is needed of a program. -/
theorem orderly_of_run (h : ∀ s m, T m → ∃ o m' es, p.run s m = ⟨o, m', es⟩ ∧ o ≠ .crashed ∧
    ∀ a, o = .returned a → T m') : Orderly T p := by
  intro s m hT
  obtain ⟨o, m', es, hrun, hcrash, hpost⟩ := h s m hT
  rw [hrun]
  exact ⟨hcrash, hpost⟩

theorem Orderly.bind (hp : Orderly T p) (hf : ∀ a, Orderly T (f a)) : Orderly T (p >>= f) := by
  intro s m hT
  obtain ⟨hcrash, hpost⟩ := hp s m hT
  rcases hrun : p.run s m with ⟨o, m', es⟩
  rw [hrun] at hcrash hpost
  cases o with
  | returned a =>
    rw [Prog.run_bind_returned hrun]
    exact hf a (replay es s) m' (hpost a rfl)
  | exited status =>
    rw [Prog.run_bind_exited hrun]
    exact ⟨by simp, fun b hb => by cases hb⟩
  | crashed => exact absurd rfl hcrash

theorem orderly_pure (a : α) : Orderly T (pure a : Prog σ ε μ α) :=
  orderly_of_run (fun _ m hT => ⟨_, m, [], rfl, by simp, fun _ _ => hT⟩)

omit [Effects ε σ] in
theorem orderly_emit (e : ε) : Orderly T (Prog.emit e : Prog σ ε μ PUnit) :=
  orderly_of_run (fun _ m hT => ⟨_, m, [e], rfl, by simp, fun _ _ => hT⟩)

omit [Effects ε σ] in
theorem orderly_remember {g : μ → μ} (h : ∀ m, T m → T (g m)) :
    Orderly T (Prog.remember g : Prog σ ε μ PUnit) :=
  orderly_of_run (fun _ m hT => ⟨_, g m, [], rfl, by simp, fun _ _ => h m hT⟩)

theorem orderly_observe_bind {f : σ → Prog σ ε μ β} (h : ∀ s, Orderly T (f s)) :
    Orderly T (Prog.observe >>= f) := by
  intro s m hT
  rw [Prog.run_observe_bind]
  exact h s s m hT

/-- What the program finds in the memory is in order. -/
theorem orderly_recollect_bind {f : μ → Prog σ ε μ β} (h : ∀ m, T m → Orderly T (f m)) :
    Orderly T (Prog.recollect >>= f) := by
  intro s m hT
  rw [Prog.run_recollect_bind]
  exact h m hT s m hT

end Orderly
end BinfmtSupport.Triples
