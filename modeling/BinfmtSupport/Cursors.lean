import Mathlib.Data.List.Basic
import Mathlib.Data.List.Infix

/-!
Loops over an enumeration that their own bodies may change. The loop remembers nothing but
the key at which it stands, and goes on to the key that stands behind it in the enumeration
as it is by then; before each iteration something can come in from outside. As long as the
enumeration stays as it was the loop visits its keys one after the other, each of them once.
Nothing here depends on what is enumerated and what the bodies do.
-/
namespace BinfmtSupport.Cursors

section Enumeration
variable {κ : Type} [DecidableEq κ]

def behind (order : List κ) (key : κ) : Option κ := (order.dropWhile (· ≠ key)).tail.head?

theorem mem_of_behind {order : List κ} {key next : κ} (h : behind order key = some next) :
    next ∈ order := by
  have hmem : next ∈ (order.dropWhile (· ≠ key)).tail := List.mem_of_mem_head? h
  exact (List.dropWhile_suffix _).subset (List.mem_of_mem_tail hmem)

theorem behind_append {front back : List κ} {key : κ} (h : key ∉ front) :
    behind (front ++ key :: back) key = back.head? := by
  have hfront : ∀ other ∈ front, decide (other ≠ key) = true := by
    intro other hother
    rw [decide_eq_true_eq]
    rintro rfl
    exact h hother
  rw [behind, List.dropWhile_append_of_pos hfront, List.dropWhile_cons_of_neg (by simp)]
  rfl

/-- Behind the key at one place of a list without duplicates is the key at the next. -/
theorem behind_getElem {order : List κ} (hnodup : order.Nodup) {n : ℕ} {key : κ}
    (h : order[n]? = some key) : behind order key = order[n + 1]? := by
  obtain ⟨hn, rfl⟩ := List.getElem?_eq_some_iff.mp h
  have hsplit : order.take n ++ order[n] :: order.drop (n + 1) = order := by
    rw [← List.drop_eq_getElem_cons hn, List.take_append_drop]
  have hfresh : order[n] ∉ order.take n := by
    rw [← hsplit, List.nodup_append] at hnodup
    intro hmem
    exact hnodup.2.2 _ hmem _ List.mem_cons_self rfl
  have hbehind : behind (order.take n ++ order[n] :: order.drop (n + 1)) order[n] =
      (order.drop (n + 1)).head? := behind_append hfresh
  rw [hsplit, List.head?_drop] at hbehind
  exact hbehind

end Enumeration

/-- Where a loop is: at a key, past the last one, or left from within an iteration. -/
inductive Place (κ : Type)
  | entry (key : κ)
  | finished
  | left
deriving DecidableEq

def Place.at {κ : Type} : Option κ → Place κ
  | some key => .entry key
  | none => .finished

theorem Place.at_eq_entry {κ : Type} {next : Option κ} {key : κ} :
    Place.at next = .entry key ↔ next = some key := by
  cases next <;> simp [Place.at]

theorem Place.at_eq_finished {κ : Type} {next : Option κ} :
    Place.at next = .finished ↔ next = none := by
  cases next <;> simp [Place.at]

structure Position (κ σ : Type) where
  place : Place κ
  visited : List κ
  state : σ

/-- What an iteration makes of the state and of what comes in, and whether the loop goes on. -/
structure Loop (κ ι σ : Type) where
  order : σ → List κ
  body : κ → ι → σ → σ × Bool

namespace Loop
variable {κ ι σ : Type} [DecidableEq κ] (loop : Loop κ ι σ)

def start (s : σ) : Position κ σ := ⟨.at (loop.order s).head?, [], s⟩

def step (p : Position κ σ) (i : ι) : Position κ σ :=
  match p.place with
  | .entry key =>
      let after := loop.body key i p.state
      ⟨if after.2 then .at (behind (loop.order after.1) key) else .left, p.visited ++ [key],
        after.1⟩
  | _ => p

def run (p : Position κ σ) (inputs : List ι) : Position κ σ := inputs.foldl loop.step p

variable {loop}

theorem run_cons (p : Position κ σ) (i : ι) (inputs : List ι) :
    loop.run p (i :: inputs) = loop.run (loop.step p i) inputs := rfl

theorem run_append_singleton (p : Position κ σ) (inputs : List ι) (i : ι) :
    loop.run p (inputs ++ [i]) = loop.step (loop.run p inputs) i := by
  rw [run, run, List.foldl_append]
  rfl

theorem step_entry {p : Position κ σ} {key : κ} (h : p.place = .entry key) (i : ι) :
    loop.step p i = ⟨if (loop.body key i p.state).2 then
        .at (behind (loop.order (loop.body key i p.state).1) key) else .left,
      p.visited ++ [key], (loop.body key i p.state).1⟩ := by
  simp only [step, h]

theorem step_of_not_entry {p : Position κ σ} (h : ∀ key, p.place ≠ .entry key) (i : ι) :
    loop.step p i = p := by
  cases hplace : p.place with
  | entry key => exact absurd hplace (h key)
  | finished => simp only [step, hplace]
  | left => simp only [step, hplace]

/-- A loop that is over stays as it is. -/
theorem run_of_not_entry {p : Position κ σ} (h : ∀ key, p.place ≠ .entry key)
    (inputs : List ι) : loop.run p inputs = p := by
  induction inputs with
  | nil => rfl
  | cons i inputs ih => rw [run_cons, step_of_not_entry h, ih]

/-- What one iteration keeps, all of them keep. -/
theorem run_keeps {I : Position κ σ → Prop} (hstep : ∀ p i, I p → I (loop.step p i))
    {p : Position κ σ} (hp : I p) (inputs : List ι) : I (loop.run p inputs) := by
  induction inputs using List.reverseRecOn with
  | nil => exact hp
  | append_singleton inputs i ih =>
    rw [run_append_singleton]
    exact hstep _ i ih

section Disturbance
variable {γ : Type} (view : σ → γ) (Fine : γ → γ → Prop) {I : Position κ σ → Prop}
  {Bad : Position κ σ → ι → Prop} {p : Position κ σ} {inputs : List ι}

/-- As long as no iteration is a bad one, the view of the state stays as it is. -/
theorem view_run (hkeeps : ∀ p i, I p → I (loop.step p i))
    (hquiet : ∀ p i, I p → ¬ Bad p i → view (loop.step p i).state = view p.state) (hp : I p)
    (h : ∀ done i, done ++ [i] <+: inputs → ¬ Bad (loop.run p done) i) :
    ∀ done, done <+: inputs → view (loop.run p done).state = view p.state := by
  intro done
  induction done using List.reverseRecOn with
  | nil => exact fun _ => rfl
  | append_singleton done i ih =>
    intro hdone
    rw [run_append_singleton, hquiet _ i (run_keeps hkeeps hp done) (h done i hdone)]
    exact ih ((List.prefix_append done [i]).trans hdone)

/-- Where a bad iteration is always to be seen, the state is fine at every point exactly if
there is no such iteration. -/
theorem fine_iff (hkeeps : ∀ p i, I p → I (loop.step p i))
    (hquiet : ∀ p i, I p → ¬ Bad p i → view (loop.step p i).state = view p.state)
    (hbad : ∀ p i, I p → Bad p i → ¬ Fine (view (loop.step p i).state) (view p.state))
    (hrefl : ∀ v, Fine v v) (hp : I p) :
    (∀ done, done <+: inputs → Fine (view (loop.run p done).state) (view p.state)) ↔
      ∀ done i, done ++ [i] <+: inputs → ¬ Bad (loop.run p done) i := by
  constructor
  · intro hfine
    -- up to a first bad iteration the view is the one of the start
    have hsame : ∀ done, done <+: inputs →
        view (loop.run p done).state = view p.state ∧
          ∀ i, done ++ [i] <+: inputs → ¬ Bad (loop.run p done) i := by
      intro done
      induction done using List.reverseRecOn with
      | nil =>
        refine fun _ => ⟨rfl, fun i hi hb => hbad p i hp hb ?_⟩
        exact hfine [i] hi
      | append_singleton done i ih =>
        intro hdone
        obtain ⟨hview, hnot⟩ := ih ((List.prefix_append done [i]).trans hdone)
        have hview' : view (loop.run p (done ++ [i])).state = view p.state := by
          rw [run_append_singleton, hquiet _ i (run_keeps hkeeps hp done) (hnot i hdone)]
          exact hview
        refine ⟨hview', fun j hj hb => ?_⟩
        refine hbad _ j (run_keeps hkeeps hp (done ++ [i])) hb ?_
        rw [← run_append_singleton, hview']
        exact hfine _ hj
    exact fun done i hdone => (hsame done ((List.prefix_append done [i]).trans hdone)).2 i hdone
  · intro h done hdone
    rw [view_run view hkeeps hquiet hp h done hdone]
    exact hrefl _

end Disturbance

section Course

/-- Unless the loop was left, it has visited the first `n` keys and stands at the next. -/
structure OnCourse (order : List κ) (n : ℕ) (p : Position κ σ) : Prop where
  visited_begins : p.visited <+: order
  on_time : p.place ≠ .left → p.visited = order.take n ∧ p.place = .at order[n]?

omit [DecidableEq κ] in
theorem onCourse_start (s : σ) : OnCourse (loop.order s) 0 (loop.start s) where
  visited_begins := List.nil_prefix
  on_time _ := ⟨rfl, by rw [start, List.head?_eq_getElem?]⟩

theorem OnCourse.step {order : List κ} {n : ℕ} {p : Position κ σ} (h : OnCourse order n p)
    (hnodup : order.Nodup) {i : ι} (horder : loop.order (loop.step p i).state = order) :
    OnCourse order (n + 1) (loop.step p i) := by
  cases hplace : p.place with
  | entry key =>
    obtain ⟨hvisited, hat⟩ := h.on_time (by simp [hplace])
    have hkey : order[n]? = some key := Place.at_eq_entry.mp (hat ▸ hplace)
    have htaken : p.visited ++ [key] = order.take (n + 1) := by
      rw [hvisited, List.take_add_one, hkey]
      rfl
    rw [step_entry hplace] at horder ⊢
    refine ⟨htaken ▸ List.take_prefix _ _, fun hstays => ⟨htaken, ?_⟩⟩
    cases hon : (loop.body key i p.state).2 with
    | true =>
      rw [if_pos rfl, show loop.order (loop.body key i p.state).1 = order from horder,
        behind_getElem hnodup hkey]
    | false =>
      rw [hon] at hstays
      exact absurd rfl hstays
  | finished =>
    obtain ⟨hvisited, hat⟩ := h.on_time (by simp [hplace])
    have hend : order.length ≤ n :=
      List.getElem?_eq_none_iff.mp (Place.at_eq_finished.mp (hat ▸ hplace))
    rw [step_of_not_entry (by simp [hplace])]
    refine ⟨h.visited_begins, fun _ => ⟨?_, ?_⟩⟩
    · rw [hvisited, List.take_of_length_le hend, List.take_of_length_le (Nat.le_succ_of_le hend)]
    · rw [hat, List.getElem?_eq_none hend, List.getElem?_eq_none (Nat.le_succ_of_le hend)]
  | left =>
    rw [step_of_not_entry (by simp [hplace])]
    exact ⟨h.visited_begins, fun hstays => absurd hplace hstays⟩

/-- An enumeration that never changes is visited key by key. -/
theorem onCourse_run {s : σ} {inputs : List ι} (hnodup : (loop.order s).Nodup)
    (horder : ∀ done, done <+: inputs →
      loop.order (loop.run (loop.start s) done).state = loop.order s) :
    OnCourse (loop.order s) inputs.length (loop.run (loop.start s) inputs) := by
  induction inputs using List.reverseRecOn with
  | nil => exact onCourse_start s
  | append_singleton inputs i ih =>
    have hbefore := ih (fun done hdone => horder done (hdone.trans (List.prefix_append inputs [i])))
    have hlast := horder (inputs ++ [i]) List.prefix_rfl
    rw [run_append_singleton] at hlast ⊢
    rw [List.length_append, List.length_singleton]
    exact hbefore.step hnodup hlast

end Course
end Loop
end BinfmtSupport.Cursors
