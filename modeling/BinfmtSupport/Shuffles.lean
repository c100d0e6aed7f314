import Mathlib.Data.List.Basic

/-!
Lists whose elements fall into classes. Two lists are shuffles of each other if they have the
same elements of each class in the same order, however the classes are mixed. Where steps of
different classes commute, a fold does not see the difference.
Nothing here depends on what the elements or the steps are.
-/
namespace BinfmtSupport.Shuffles

variable {α β κ : Type*} {cls : α → κ}

section Folds

/-- The first element of its class comes to the front of a fold. -/
theorem foldl_first {f : β → α → β}
    (hcomm : ∀ b x y, cls x ≠ cls y → f (f b x) y = f (f b y) x) {before after : List α} {x : α}
    (hother : ∀ u ∈ before, cls u ≠ cls x) (b : β) :
    (before ++ x :: after).foldl f b = (x :: (before ++ after)).foldl f b := by
  induction before generalizing b with
  | nil => rfl
  | cons u rest ih =>
    have hrest := ih (fun v hv => hother v (List.mem_cons_of_mem u hv)) (f b u)
    rw [List.cons_append, List.foldl_cons, hrest, List.foldl_cons, List.foldl_cons,
      List.cons_append, List.foldl_cons, hcomm b u x (hother u List.mem_cons_self)]

end Folds

variable [DecidableEq κ]

def ofClass (cls : α → κ) (k : κ) (xs : List α) : List α := xs.filter (fun x => cls x = k)

/-- The lists differ only in how the classes are mixed. -/
def Shuffled (cls : α → κ) (xs ys : List α) : Prop := ∀ k, ofClass cls k xs = ofClass cls k ys

theorem mem_ofClass {k : κ} {xs : List α} {x : α} : x ∈ ofClass cls k xs ↔ x ∈ xs ∧ cls x = k := by
  rw [ofClass, List.mem_filter, decide_eq_true_eq]

/-- The elements of a class that has one element at most are in no order. -/
theorem ofClass_eq_of_perm {xs ys : List α} (h : xs.Perm ys) {k : κ}
    (hone : (ofClass cls k xs).length ≤ 1) : ofClass cls k xs = ofClass cls k ys := by
  have hperm : (ofClass cls k xs).Perm (ofClass cls k ys) := h.filter _
  rcases hx : ofClass cls k xs with _ | ⟨x, _ | ⟨x', rest⟩⟩
  · rw [hx] at hperm
    exact hperm.nil_eq
  · rw [hx] at hperm
    exact hperm.singleton_eq
  · rw [hx] at hone
    simp at hone

/-- A fold depends only on the order within each class. -/
theorem Shuffled.foldl_eq {f : β → α → β}
    (hcomm : ∀ b x y, cls x ≠ cls y → f (f b x) y = f (f b y) x) {xs ys : List α}
    (h : Shuffled cls xs ys) (b : β) : xs.foldl f b = ys.foldl f b := by
  induction xs generalizing ys b with
  | nil =>
    cases ys with
    | nil => rfl
    | cons y ys =>
      have hy : y ∈ ofClass cls (cls y) [] := h (cls y) ▸ mem_ofClass.mpr ⟨List.mem_cons_self, rfl⟩
      cases hy
  | cons x xs ih =>
    -- the first of its class in the other list is the same element
    have hfirst : ofClass cls (cls x) ys = x :: ofClass cls (cls x) xs := by
      rw [← h (cls x)]
      exact List.filter_cons_of_pos (decide_eq_true rfl)
    obtain ⟨before, after, rfl, hbefore, -, hafter⟩ := List.filter_eq_cons_iff.mp hfirst
    have hother : ∀ u ∈ before, cls u ≠ cls x := fun u hu => by simpa using hbefore u hu
    have hrest : Shuffled cls xs (before ++ after) := by
      intro k
      have hk := h k
      simp only [ofClass, List.filter_append, List.filter_cons] at hk ⊢
      by_cases hx : cls x = k
      · have hnone : before.filter (fun u => cls u = k) = [] := by
          rw [List.filter_eq_nil_iff]
          intro u hu
          rw [decide_eq_true_eq, ← hx]
          exact hother u hu
        simp only [hx, hnone, decide_true, if_true, List.nil_append] at hk ⊢
        exact (List.cons.inj hk).2
      · simpa only [hx, decide_false, Bool.false_eq_true, if_false] using hk
    rw [foldl_first hcomm hother, List.foldl_cons, List.foldl_cons, ih hrest]

end BinfmtSupport.Shuffles
