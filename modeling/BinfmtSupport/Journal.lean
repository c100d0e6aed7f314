import Mathlib.Data.List.Basic

/-!
Programs that change the world only through a journal of atomic effects.
A run sees the persistent state and its own private memory; it returns an
outcome, the new memory and the effects it issued, in order. The state it leaves
is the replay of those effects, so the states at which the run can be cut short
are exactly the replays of the prefixes of its journal.
Nothing here depends on what the effects, the states or the memory are.
-/
namespace BinfmtSupport.Journal

universe u

/-- One atomic effect of type `ε` changes a persistent state of type `σ`. -/
class Effects (ε : Type u) (σ : Type u) where
  apply : ε → σ → σ

export Effects (apply)

section Replay
variable {ε σ : Type u} [Effects ε σ]

def replay (es : List ε) (s : σ) : σ := es.foldl (fun t e => apply e t) s

@[simp] theorem replay_nil (s : σ) : replay ([] : List ε) s = s := rfl

@[simp] theorem replay_cons (e : ε) (es : List ε) (s : σ) :
    replay (e :: es) s = replay es (apply e s) := rfl

@[simp] theorem replay_append (es fs : List ε) (s : σ) :
    replay (es ++ fs) s = replay fs (replay es s) := List.foldl_append

/-- What every effect of a class leaves alone is unchanged by the whole journal. -/
theorem replay_frame {β : Type*} (view : σ → β) (es : List ε) (s : σ)
    (h : ∀ e ∈ es, ∀ t, view (apply e t) = view t) :
    view (replay es s) = view s := by
  induction es generalizing s with
  | nil => rfl
  | cons e es ih =>
    rw [replay_cons, ih _ (fun x hx => h x (List.mem_cons_of_mem _ hx))]
    exact h e List.mem_cons_self s

/-- What the effects of a journal amount to, each in the state that it finds. -/
def observed {η : Type*} (event : ε → σ → List η) : List ε → σ → List η
  | [], _ => []
  | e :: es, s => event e s ++ observed event es (apply e s)

@[simp] theorem observed_nil {η : Type*} (event : ε → σ → List η) (s : σ) :
    observed event [] s = [] := rfl

@[simp] theorem observed_cons {η : Type*} (event : ε → σ → List η) (e : ε) (es : List ε) (s : σ) :
    observed event (e :: es) s = event e s ++ observed event es (apply e s) := rfl

@[simp] theorem observed_append {η : Type*} (event : ε → σ → List η) (es fs : List ε) (s : σ) :
    observed event (es ++ fs) s = observed event es s ++ observed event fs (replay es s) := by
  induction es generalizing s with
  | nil => rfl
  | cons e rest ih => rw [List.cons_append, observed_cons, ih, observed_cons, replay_cons,
      List.append_assoc]

theorem observed_of_forall {η : Type*} {event : ε → σ → List η} {es : List ε}
    (h : ∀ e ∈ es, ∀ s, event e s = []) (s : σ) : observed event es s = [] := by
  induction es generalizing s with
  | nil => rfl
  | cons e rest ih =>
    rw [observed_cons, h e List.mem_cons_self, ih (fun x hx => h x (List.mem_cons_of_mem e hx))]
    rfl

/-- A journal that is cut short is cut within its first or within its second part. -/
theorem cut_append {ε : Type*} {done es fs : List ε} (h : done <+: es ++ fs) :
    done <+: es ∨ ∃ more, done = es ++ more ∧ more <+: fs := by
  rcases List.prefix_or_prefix_of_prefix h (List.prefix_append es fs) with hfirst | ⟨more, rfl⟩
  · exact Or.inl hfirst
  · exact Or.inr ⟨more, rfl, (List.prefix_append_right_inj es).mp h⟩

end Replay

/-- How a run ends: with a value, by leaving the process with a status, or
without a defined result, as after the use of an absent object. -/
inductive Outcome (α : Type u) : Type u
  | returned (a : α)
  | exited (status : ℕ)
  | crashed
deriving DecidableEq

structure Ran (ε μ α : Type u) : Type u where
  outcome : Outcome α
  memory : μ
  effects : List ε

namespace Ran
variable {ε σ μ α : Type u}

/-- Prepend the effects that were issued before this part of the run. -/
def after (r : Ran ε μ α) (es : List ε) : Ran ε μ α :=
  ⟨r.outcome, r.memory, es ++ r.effects⟩

def state [Effects ε σ] (r : Ran ε μ α) (s : σ) : σ := replay r.effects s

@[simp] theorem after_nil (r : Ran ε μ α) : r.after [] = r := rfl

@[simp] theorem after_after (r : Ran ε μ α) (es fs : List ε) :
    (r.after es).after fs = r.after (fs ++ es) := by simp [after]

@[simp] theorem outcome_after (r : Ran ε μ α) (es : List ε) :
    (r.after es).outcome = r.outcome := rfl

@[simp] theorem memory_after (r : Ran ε μ α) (es : List ε) :
    (r.after es).memory = r.memory := rfl

@[simp] theorem effects_after (r : Ran ε μ α) (es : List ε) :
    (r.after es).effects = es ++ r.effects := rfl

@[simp] theorem after_mk (o : Outcome α) (m : μ) (es fs : List ε) :
    (Ran.mk o m es).after fs = ⟨o, m, fs ++ es⟩ := rfl

end Ran

structure Prog (σ ε μ α : Type u) : Type u where
  run : σ → μ → Ran ε μ α

namespace Prog
variable {σ ε μ α β : Type u}

@[ext] theorem ext {p q : Prog σ ε μ α} (h : ∀ s m, p.run s m = q.run s m) : p = q := by
  cases p
  cases q
  congr
  funext s m
  exact h s m

protected def pure (a : α) : Prog σ ε μ α := ⟨fun _ m => ⟨.returned a, m, []⟩⟩

def exit (status : ℕ) : Prog σ ε μ α := ⟨fun _ m => ⟨.exited status, m, []⟩⟩

def crash : Prog σ ε μ α := ⟨fun _ m => ⟨.crashed, m, []⟩⟩

def observe : Prog σ ε μ σ := ⟨fun s m => ⟨.returned s, m, []⟩⟩

def recollect : Prog σ ε μ μ := ⟨fun _ m => ⟨.returned m, m, []⟩⟩

def emit (e : ε) : Prog σ ε μ PUnit := ⟨fun _ m => ⟨.returned ⟨⟩, m, [e]⟩⟩

def remember (f : μ → μ) : Prog σ ε μ PUnit := ⟨fun _ m => ⟨.returned ⟨⟩, f m, []⟩⟩

variable [Effects ε σ]

/-- The second part runs in the state that the first part's effects produce. -/
protected def bind (p : Prog σ ε μ α) (f : α → Prog σ ε μ β) : Prog σ ε μ β :=
  ⟨fun s m =>
    match p.run s m with
    | ⟨.returned a, m', es⟩ => ((f a).run (replay es s) m').after es
    | ⟨.exited status, m', es⟩ => ⟨.exited status, m', es⟩
    | ⟨.crashed, m', es⟩ => ⟨.crashed, m', es⟩⟩

instance : Monad (Prog σ ε μ) where
  pure := Prog.pure
  bind := Prog.bind

@[simp] theorem run_pure (a : α) (s : σ) (m : μ) :
    (pure a : Prog σ ε μ α).run s m = ⟨.returned a, m, []⟩ := rfl

omit [Effects ε σ] in
@[simp] theorem run_exit (status : ℕ) (s : σ) (m : μ) :
    (exit status : Prog σ ε μ α).run s m = ⟨.exited status, m, []⟩ := rfl

omit [Effects ε σ] in
@[simp] theorem run_crash (s : σ) (m : μ) :
    (crash : Prog σ ε μ α).run s m = ⟨.crashed, m, []⟩ := rfl

/-- A part that returns hands over its value, its memory and its effects. -/
theorem run_bind_returned {p : Prog σ ε μ α} {s : σ} {m m' : μ} {a : α} {es : List ε}
    (h : p.run s m = ⟨.returned a, m', es⟩) (f : α → Prog σ ε μ β) :
    (p >>= f).run s m = ((f a).run (replay es s) m').after es := by
  change (Prog.bind p f).run s m = _
  simp only [Prog.bind, h]

/-- A part that leaves the process ends the whole run. -/
theorem run_bind_exited {p : Prog σ ε μ α} {s : σ} {m m' : μ} {status : ℕ} {es : List ε}
    (h : p.run s m = ⟨.exited status, m', es⟩) (f : α → Prog σ ε μ β) :
    (p >>= f).run s m = ⟨.exited status, m', es⟩ := by
  change (Prog.bind p f).run s m = _
  simp only [Prog.bind, h]

theorem run_bind_crashed {p : Prog σ ε μ α} {s : σ} {m m' : μ} {es : List ε}
    (h : p.run s m = ⟨.crashed, m', es⟩) (f : α → Prog σ ε μ β) :
    (p >>= f).run s m = ⟨.crashed, m', es⟩ := by
  change (Prog.bind p f).run s m = _
  simp only [Prog.bind, h]

instance : LawfulMonad (Prog σ ε μ) := by
  refine LawfulMonad.mk' _ ?_ ?_ ?_
  · intro α p
    apply Prog.ext
    intro s m
    change (Prog.bind p (fun a => Prog.pure (id a))).run s m = p.run s m
    simp only [Prog.bind, Prog.pure]
    rcases p.run s m with ⟨o, m', es⟩
    cases o <;> simp
  · intro α β a f
    apply Prog.ext
    intro s m
    exact run_bind_returned (run_pure a s m) f
  · intro α β γ p f g
    apply Prog.ext
    intro s m
    rcases hp : p.run s m with ⟨o, m', es⟩
    cases o with
    | returned a =>
      rw [run_bind_returned hp]
      rcases hf : (f a).run (replay es s) m' with ⟨o', m'', fs⟩
      have hpf : (p >>= f).run s m = ⟨o', m'', es ++ fs⟩ := by
        rw [run_bind_returned hp, hf, Ran.after_mk]
      cases o' with
      | returned b =>
        rw [run_bind_returned hpf, run_bind_returned hf]
        simp
      | exited status => rw [run_bind_exited hpf, run_bind_exited hf, Ran.after_mk]
      | crashed => rw [run_bind_crashed hpf, run_bind_crashed hf, Ran.after_mk]
    | exited status =>
      rw [run_bind_exited (run_bind_exited hp f), run_bind_exited hp]
    | crashed =>
      rw [run_bind_crashed (run_bind_crashed hp f), run_bind_crashed hp]

omit [Effects ε σ] in
@[simp] theorem run_observe (s : σ) (m : μ) :
    (observe : Prog σ ε μ σ).run s m = ⟨.returned s, m, []⟩ := rfl

omit [Effects ε σ] in
@[simp] theorem run_recollect (s : σ) (m : μ) :
    (recollect : Prog σ ε μ μ).run s m = ⟨.returned m, m, []⟩ := rfl

omit [Effects ε σ] in
@[simp] theorem run_emit (e : ε) (s : σ) (m : μ) :
    (emit e : Prog σ ε μ PUnit).run s m = ⟨.returned ⟨⟩, m, [e]⟩ := rfl

omit [Effects ε σ] in
@[simp] theorem run_remember (g : μ → μ) (s : σ) (m : μ) :
    (remember g : Prog σ ε μ PUnit).run s m = ⟨.returned ⟨⟩, g m, []⟩ := rfl

@[simp] theorem run_observe_bind (f : σ → Prog σ ε μ β) (s : σ) (m : μ) :
    (observe >>= f).run s m = (f s).run s m :=
  run_bind_returned (run_observe s m) f

@[simp] theorem run_recollect_bind (f : μ → Prog σ ε μ β) (s : σ) (m : μ) :
    (recollect >>= f).run s m = (f m).run s m :=
  run_bind_returned (run_recollect s m) f

@[simp] theorem run_emit_bind (e : ε) (f : PUnit → Prog σ ε μ β) (s : σ) (m : μ) :
    (emit e >>= f).run s m = ((f ⟨⟩).run (apply e s) m).after [e] :=
  run_bind_returned (run_emit e s m) f

@[simp] theorem run_remember_bind (g : μ → μ) (f : PUnit → Prog σ ε μ β) (s : σ) (m : μ) :
    (remember g >>= f).run s m = (f ⟨⟩).run s (g m) :=
  run_bind_returned (run_remember g s m) f

section Invariants

def Silent (p : Prog σ ε μ α) : Prop := ∀ s m, (p.run s m).effects = []

/-- Every effect of the program is of one kind. -/
def Issues (P : ε → Prop) (p : Prog σ ε μ α) : Prop := ∀ s m, ∀ e ∈ (p.run s m).effects, P e

/-- What the program returns and issues is up to the state alone, and a view of the memory
stays as it is. -/
def Blind {γ : Type u} (view : μ → γ) (p : Prog σ ε μ α) : Prop :=
  ∀ s, ∃ a es, ∀ m, ∃ m', p.run s m = ⟨.returned a, m', es⟩ ∧ view m' = view m

/-- However the program ends, a view of the memory stays as it is. -/
def Leaves {γ : Type u} (view : μ → γ) (p : Prog σ ε μ α) : Prop :=
  ∀ s m, view (p.run s m).memory = view m

/-- The program reads nothing of the state but a view of it. -/
def Sees {γ : Type u} (view : σ → γ) (p : Prog σ ε μ α) : Prop :=
  ∀ s t m, view t = view s → p.run t m = p.run s m

/-- However the program ends, an invariant of the state survives it. -/
def Keeps (I : σ → Prop) (p : Prog σ ε μ α) : Prop :=
  ∀ s m, I s → I ((p.run s m).state s)

/-- An invariant of the state that needs the memory to agree with the state: the first
survives however the program ends, the second as long as the process goes on. -/
def KeepsWith (I : σ → Prop) (T : σ → μ → Prop) (p : Prog σ ε μ α) : Prop :=
  ∀ s m, I s → T s m → I ((p.run s m).state s) ∧
    ∀ a, (p.run s m).outcome = .returned a → T ((p.run s m).state s) (p.run s m).memory

/-- The run of two parts, when the way in which the first one ends is not known. -/
theorem run_bind_cases (p : Prog σ ε μ α) (f : α → Prog σ ε μ β) (s : σ) (m : μ) :
    (∃ a m' es, p.run s m = ⟨.returned a, m', es⟩ ∧
      (p >>= f).run s m = ((f a).run (replay es s) m').after es) ∨
    ((p >>= f).run s m).effects = (p.run s m).effects ∧
      ∀ b, ((p >>= f).run s m).outcome ≠ .returned b := by
  rcases hp : p.run s m with ⟨o, m', es⟩
  cases o with
  | returned a => exact Or.inl ⟨a, m', es, rfl, run_bind_returned hp f⟩
  | exited status =>
    rw [run_bind_exited hp]
    exact Or.inr ⟨rfl, by simp⟩
  | crashed =>
    rw [run_bind_crashed hp]
    exact Or.inr ⟨rfl, by simp⟩

/-- When both parts together return, each of them does. -/
theorem returned_of_run_bind {p : Prog σ ε μ α} {f : α → Prog σ ε μ β} {s : σ} {m m' : μ} {b : β}
    {es : List ε} (h : (p >>= f).run s m = ⟨.returned b, m', es⟩) : ∃ a m₁ fs gs,
      p.run s m = ⟨.returned a, m₁, fs⟩ ∧
      (f a).run (replay fs s) m₁ = ⟨.returned b, m', gs⟩ ∧ es = fs ++ gs := by
  rcases run_bind_cases p f s m with ⟨a, m₁, fs, hfirst, hbind⟩ | ⟨-, hend⟩
  · rw [hbind] at h
    rcases hrest : (f a).run (replay fs s) m₁ with ⟨o, m₂, gs⟩
    rw [hrest, Ran.after_mk] at h
    cases h
    exact ⟨a, m₁, fs, gs, hfirst, hrest, rfl⟩
  · exact absurd (by rw [h]) (hend b)

theorem outcome_bind_iff {p : Prog σ ε μ α} {f : α → Prog σ ε μ β} {s : σ} {m : μ} {b : β} :
    ((p >>= f).run s m).outcome = .returned b ↔ ∃ a m' es,
      p.run s m = ⟨.returned a, m', es⟩ ∧
        ((f a).run (replay es s) m').outcome = .returned b := by
  constructor
  · intro h
    rcases run_bind_cases p f s m with ⟨a, m', es, hrun, hbind⟩ | ⟨-, hend⟩
    · rw [hbind] at h
      exact ⟨a, m', es, hrun, h⟩
    · exact absurd h (hend b)
  · rintro ⟨a, m', es, hrun, h⟩
    rw [run_bind_returned hrun]
    exact h

theorem Silent.bind {p : Prog σ ε μ α} {f : α → Prog σ ε μ β} (hp : Silent p)
    (hf : ∀ a, Silent (f a)) : Silent (p >>= f) := by
  intro s m
  have hfirst := hp s m
  rcases run_bind_cases p f s m with ⟨a, m', es, hrun, hbind⟩ | ⟨heff, -⟩
  · rw [hrun] at hfirst
    rw [hbind, Ran.effects_after, hf a]
    simpa using hfirst
  · rw [heff]
    exact hfirst

theorem Issues.bind {P : ε → Prop} {p : Prog σ ε μ α} {f : α → Prog σ ε μ β}
    (hp : Issues P p) (hf : ∀ a, Issues P (f a)) : Issues P (p >>= f) := by
  intro s m e he
  have hfirst := hp s m
  rcases run_bind_cases p f s m with ⟨a, m', es, hrun, hbind⟩ | ⟨heff, -⟩
  · rw [hrun] at hfirst
    rw [hbind, Ran.effects_after] at he
    rcases List.mem_append.mp he with he | he
    · exact hfirst e he
    · exact hf a (replay es s) m' e he
  · rw [heff] at he
    exact hfirst e he

omit [Effects ε σ] in
theorem Silent.issues {p : Prog σ ε μ α} (h : Silent p) (P : ε → Prop) : Issues P p := by
  intro s m e he
  rw [h s m] at he
  cases he

theorem silent_pure (a : α) : Silent (pure a : Prog σ ε μ α) := fun _ _ => rfl

omit [Effects ε σ] in
theorem silent_observe : Silent (observe : Prog σ ε μ σ) := fun _ _ => rfl

omit [Effects ε σ] in
theorem silent_recollect : Silent (recollect : Prog σ ε μ μ) := fun _ _ => rfl

omit [Effects ε σ] in
theorem silent_remember (f : μ → μ) : Silent (remember f : Prog σ ε μ PUnit) := fun _ _ => rfl

omit [Effects ε σ] in
theorem silent_crash : Silent (crash : Prog σ ε μ α) := fun _ _ => rfl

theorem Blind.bind {γ : Type u} {view : μ → γ} {p : Prog σ ε μ α} {f : α → Prog σ ε μ β}
    (hp : Blind view p) (hf : ∀ a, Blind view (f a)) : Blind view (p >>= f) := by
  intro s
  obtain ⟨a, es, hfirst⟩ := hp s
  obtain ⟨b, fs, hsecond⟩ := hf a (replay es s)
  refine ⟨b, es ++ fs, fun m => ?_⟩
  obtain ⟨m₁, hrun, hview⟩ := hfirst m
  obtain ⟨m₂, hrest, hview'⟩ := hsecond m₁
  refine ⟨m₂, ?_, hview'.trans hview⟩
  rw [run_bind_returned hrun, hrest, Ran.after_mk]

theorem Blind.observe_bind {γ : Type u} {view : μ → γ} {f : σ → Prog σ ε μ β}
    (hf : ∀ s, Blind view (f s)) : Blind view (observe >>= f) := by
  intro s
  obtain ⟨b, es, hrun⟩ := hf s s
  refine ⟨b, es, fun m => ?_⟩
  obtain ⟨m', hm, hview⟩ := hrun m
  exact ⟨m', (run_observe_bind f s m).trans hm, hview⟩

theorem blind_pure {γ : Type u} {view : μ → γ} (a : α) : Blind view (pure a : Prog σ ε μ α) :=
  fun _ => ⟨a, [], fun m => ⟨m, rfl, rfl⟩⟩

omit [Effects ε σ] in
theorem blind_emit {γ : Type u} {view : μ → γ} (e : ε) :
    Blind view (emit e : Prog σ ε μ PUnit) := fun _ => ⟨⟨⟩, [e], fun m => ⟨m, rfl, rfl⟩⟩

omit [Effects ε σ] in
theorem blind_remember {γ : Type u} {view : μ → γ} {g : μ → μ} (h : ∀ m, view (g m) = view m) :
    Blind view (remember g : Prog σ ε μ PUnit) := fun _ => ⟨⟨⟩, [], fun m => ⟨g m, rfl, h m⟩⟩

/-- What the second part leaves alone is as the first part has left it. -/
theorem view_run_bind {γ : Type u} {view : μ → γ} (p : Prog σ ε μ α) {f : α → Prog σ ε μ β}
    (hf : ∀ a, Leaves view (f a)) (s : σ) (m : μ) :
    view ((p >>= f).run s m).memory = view (p.run s m).memory := by
  rcases hrun : p.run s m with ⟨o, m', es⟩
  cases o with
  | returned a =>
    rw [run_bind_returned hrun, Ran.memory_after]
    exact hf a _ _
  | exited status => rw [run_bind_exited hrun]
  | crashed => rw [run_bind_crashed hrun]

theorem Leaves.bind {γ : Type u} {view : μ → γ} {p : Prog σ ε μ α} {f : α → Prog σ ε μ β}
    (hp : Leaves view p) (hf : ∀ a, Leaves view (f a)) : Leaves view (p >>= f) :=
  fun s m => (view_run_bind p hf s m).trans (hp s m)

theorem leaves_pure {γ : Type u} {view : μ → γ} (a : α) :
    Leaves view (pure a : Prog σ ε μ α) := fun _ _ => rfl

/-- Effects that change the view as it is seen are seen alike. -/
theorem Sees.bind {γ : Type u} {view : σ → γ} {p : Prog σ ε μ α} {f : α → Prog σ ε μ β}
    (happly : ∀ (e : ε) s t, view t = view s → view (apply e t) = view (apply e s))
    (hp : Sees view p) (hf : ∀ a, Sees view (f a)) : Sees view (p >>= f) := by
  intro s t m h
  have hreplay : ∀ (es : List ε) s t, view t = view s →
      view (replay es t) = view (replay es s) := by
    intro es
    induction es with
    | nil => exact fun _ _ h => h
    | cons e rest ih => exact fun s t h => ih _ _ (happly e s t h)
  have hfirst := hp s t m h
  rcases hrun : p.run s m with ⟨o, m', es⟩
  rw [hrun] at hfirst
  cases o with
  | returned a =>
    rw [run_bind_returned hrun, run_bind_returned hfirst, hf a _ _ m' (hreplay es s t h)]
  | exited status => rw [run_bind_exited hrun, run_bind_exited hfirst]
  | crashed => rw [run_bind_crashed hrun, run_bind_crashed hfirst]

/-- What is made of the state is made of the view of it. -/
theorem Sees.observe_bind {γ : Type u} {view : σ → γ} {f : σ → Prog σ ε μ β}
    (hsame : ∀ s t, view t = view s → f t = f s) (hf : ∀ s, Sees view (f s)) :
    Sees view (observe >>= f) := by
  intro s t m h
  rw [run_observe_bind, run_observe_bind, hsame s t h]
  exact hf s s t m h

theorem sees_pure {γ : Type u} {view : σ → γ} (a : α) : Sees view (pure a : Prog σ ε μ α) :=
  fun _ _ _ _ => rfl

omit [Effects ε σ] in
theorem sees_emit {γ : Type u} {view : σ → γ} (e : ε) :
    Sees view (emit e : Prog σ ε μ PUnit) := fun _ _ _ _ => rfl

omit [Effects ε σ] in
theorem sees_remember {γ : Type u} {view : σ → γ} (g : μ → μ) :
    Sees view (remember g : Prog σ ε μ PUnit) := fun _ _ _ _ => rfl

theorem Keeps.bind {I : σ → Prop} {p : Prog σ ε μ α} {f : α → Prog σ ε μ β}
    (hp : Keeps I p) (hf : ∀ a, Keeps I (f a)) : Keeps I (p >>= f) := by
  intro s m hI
  have hfirst := hp s m hI
  rcases run_bind_cases p f s m with ⟨a, m', es, hrun, hbind⟩ | ⟨heff, -⟩
  · rw [hrun] at hfirst
    have hsecond := hf a (replay es s) m' hfirst
    rw [hbind]
    simpa only [Ran.state, Ran.effects_after, replay_append] using hsecond
  · rw [Ran.state, heff]
    exact hfirst

/-- A program without effects keeps whatever holds of the state. -/
theorem Silent.keeps {I : σ → Prop} {p : Prog σ ε μ α} (h : Silent p) : Keeps I p := by
  intro s m hI
  simpa only [Ran.state, h s m, replay_nil] using hI

theorem KeepsWith.bind {I : σ → Prop} {T : σ → μ → Prop} {p : Prog σ ε μ α}
    {f : α → Prog σ ε μ β} (hp : KeepsWith I T p) (hf : ∀ a, KeepsWith I T (f a)) :
    KeepsWith I T (p >>= f) := by
  intro s m hI hT
  obtain ⟨hfirst, hagree⟩ := hp s m hI hT
  rcases run_bind_cases p f s m with ⟨a, m', es, hrun, hbind⟩ | ⟨heff, hend⟩
  · rw [hrun] at hfirst hagree
    obtain ⟨hsecond, hview⟩ := hf a (replay es s) m' hfirst (hagree a rfl)
    rw [hbind]
    simp only [Ran.state, Ran.effects_after, Ran.outcome_after, Ran.memory_after,
      replay_append] at hsecond hview ⊢
    exact ⟨hsecond, hview⟩
  · rw [Ran.state, heff]
    exact ⟨hfirst, fun b hb => absurd hb (hend b)⟩

theorem keepsWith_pure {I : σ → Prop} {T : σ → μ → Prop} (a : α) :
    KeepsWith I T (pure a : Prog σ ε μ α) := fun _ _ hI hT => ⟨hI, fun _ _ => hT⟩

theorem keepsWith_observe {I : σ → Prop} {T : σ → μ → Prop} :
    KeepsWith I T (observe : Prog σ ε μ σ) := fun _ _ hI hT => ⟨hI, fun _ _ => hT⟩

end Invariants

end Prog
end BinfmtSupport.Journal
