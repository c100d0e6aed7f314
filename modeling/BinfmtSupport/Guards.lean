import BinfmtSupport.Journal

/-!
Guards. A guard says which effects are in place in which states, and a journal is guarded if
each of its effects is in place in the state that it finds. Another machine that can follow
every effect that is in place follows the whole journal.
Nothing here depends on what the effects, the states or the memory are.
-/
namespace BinfmtSupport.Guards

open Journal

universe u
variable {σ ε μ α β : Type u} [Effects ε σ] {G : σ → ε → Prop}

section Journals

def Guarded (G : σ → ε → Prop) : List ε → σ → Prop
  | [], _ => True
  | e :: es, s => G s e ∧ Guarded G es (apply e s)

theorem guarded_append {es fs : List ε} {s : σ} :
    Guarded G (es ++ fs) s ↔ Guarded G es s ∧ Guarded G fs (replay es s) := by
  induction es generalizing s with
  | nil => exact (iff_of_eq (true_and _)).symm
  | cons e rest ih =>
    rw [List.cons_append, Guarded, Guarded, ih, replay_cons, and_assoc]

theorem Guarded.initial {done es : List ε} {s : σ} (h : Guarded G es s) (hdone : done <+: es) :
    Guarded G done s := by
  obtain ⟨more, rfl⟩ := hdone
  exact (guarded_append.mp h).1

/-- A relation to the states of another machine, which can make the step of every effect that
is in place: it can make all of them. -/
theorem Guarded.followed {τ κ : Type u} {R : σ → τ → Prop} {follow : τ → ε → Except κ τ}
    {es : List ε} (hstep : ∀ e ∈ es, ∀ s t, R s t → G s e →
      ∃ t', follow t e = .ok t' ∧ R (apply e s) t') {s : σ} {t : τ} (h : Guarded G es s)
    (hR : R s t) : ∃ t', es.foldlM follow t = .ok t' ∧ R (replay es s) t' := by
  induction es generalizing s t with
  | nil => exact ⟨t, rfl, hR⟩
  | cons e rest ih =>
    obtain ⟨t', hfollow, hR'⟩ := hstep e List.mem_cons_self s t hR h.1
    obtain ⟨t'', hrest, hR''⟩ := ih (fun x hx => hstep x (List.mem_cons_of_mem e hx)) h.2 hR'
    refine ⟨t'', ?_, hR''⟩
    rw [List.foldlM_cons, hfollow]
    exact hrest

end Journals

section Programs
variable {p : Prog σ ε μ α} {f : α → Prog σ ε μ β} {s : σ}

def GuardedFrom (G : σ → ε → Prop) (s : σ) (p : Prog σ ε μ α) : Prop :=
  ∀ m, Guarded G (p.run s m).effects s

theorem GuardedFrom.bind (hp : GuardedFrom G s p) (hf : ∀ a m m' es,
    p.run s m = ⟨.returned a, m', es⟩ → GuardedFrom G (replay es s) (f a)) :
    GuardedFrom G s (p >>= f) := by
  intro m
  have hfirst := hp m
  rcases Prog.run_bind_cases p f s m with ⟨a, m', es, hrun, hbind⟩ | ⟨heff, -⟩
  · rw [hrun] at hfirst
    rw [hbind, Ran.effects_after]
    exact guarded_append.mpr ⟨hfirst, hf a m m' es hrun m'⟩
  · rw [heff]
    exact hfirst

theorem GuardedFrom.then (hp : GuardedFrom G s p) (hf : ∀ a t, GuardedFrom G t (f a)) :
    GuardedFrom G s (p >>= f) :=
  hp.bind (fun a _ _ es _ => hf a (replay es s))

omit [Effects ε σ] in
theorem silent_guarded [Effects ε σ] (h : Prog.Silent p) : GuardedFrom G s p := by
  intro m
  rw [h s m]
  exact trivial

/-- Behind a part that only reads the state is still the same. -/
theorem guarded_silent_bind (hp : Prog.Silent p) (hf : ∀ a, GuardedFrom G s (f a)) :
    GuardedFrom G s (p >>= f) := by
  refine GuardedFrom.bind (silent_guarded hp) (fun a m m' es hrun => ?_)
  have hnone := hp s m
  rw [hrun] at hnone
  rw [show es = [] from hnone, replay_nil]
  exact hf a

theorem guarded_observe_bind {f : σ → Prog σ ε μ β} (h : GuardedFrom G s (f s)) :
    GuardedFrom G s (Prog.observe >>= f) := fun m => by
  rw [Prog.run_observe_bind]
  exact h m

theorem guarded_pure (a : α) : GuardedFrom G s (pure a : Prog σ ε μ α) := fun _ => trivial

theorem guarded_emit {e : ε} (h : G s e) : GuardedFrom G s (Prog.emit e : Prog σ ε μ PUnit) :=
  fun _ => ⟨h, trivial⟩

theorem guarded_emit_pure {e : ε} (h : G s e) (a : α) :
    GuardedFrom G s (Prog.emit e >>= fun _ => pure a : Prog σ ε μ α) :=
  (guarded_emit h).then (fun _ _ => guarded_pure a)

end Programs
end BinfmtSupport.Guards
