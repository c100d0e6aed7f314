import Mathlib.Data.List.Infix

/-!
Reading a text with escapes of four characters: two that introduce an escape, and two
whose value it may stand for. What has no value is copied. A table of values that extends
another one reads a text in the same way exactly when the text has no escape that only the
larger table knows, because no escape begins inside another.
-/
namespace BinfmtSupport.Unescape

variable {α : Type*}

/-- Which pairs of characters an escape can stand for; `a` begins an escape and is not one
of them. -/
structure Escapes (a : α) where
  value : α → α → Option α
  plain : ∀ high low, (value high low).isSome = true → high ≠ a ∧ low ≠ a

namespace Escapes
variable {a : α}

def empty (a : α) : Escapes a := ⟨fun _ _ => none, by simp⟩

def Extends (v w : Escapes a) : Prop :=
  ∀ high low c, v.value high low = some c → w.value high low = some c

theorem empty_extends (w : Escapes a) : (empty a).Extends w := by
  intro high low c h
  cases h

end Escapes

section Agreement
variable {a x : α}

/-- The two tables have the same value for every escape of the text. -/
def Agree (x : α) (v w : Escapes a) (t : List α) : Prop :=
  ∀ high low, [a, x, high, low] <:+: t → v.value high low = w.value high low

theorem agree_nil (v w : Escapes a) : Agree x v w [] := by
  intro high low h
  simp at h

theorem agree_cons {v w : Escapes a} {c : α} {t : List α} : Agree x v w (c :: t) ↔
    (∀ high low, [a, x, high, low] <+: c :: t → v.value high low = w.value high low) ∧
      Agree x v w t := by
  simp only [Agree, List.infix_cons_iff, or_imp, forall_and]

theorem agree_cons_ne {v w : Escapes a} {c : α} (hc : c ≠ a) (t : List α) :
    Agree x v w (c :: t) ↔ Agree x v w t := by
  rw [agree_cons, and_iff_right]
  intro high low hbegin
  rw [List.cons_prefix_cons] at hbegin
  exact absurd hbegin.1.symm hc

/-- No escape begins inside another one. -/
theorem agree_escape (hx : x ≠ a) {v w : Escapes a} {high low : α}
    (h : (w.value high low).isSome = true)
    (rest : List α) : Agree x v w (a :: x :: high :: low :: rest) ↔
      v.value high low = w.value high low ∧ Agree x v w rest := by
  obtain ⟨hhigh, hlow⟩ := w.plain high low h
  rw [agree_cons, agree_cons_ne hx, agree_cons_ne hhigh, agree_cons_ne hlow]
  refine and_congr_left' ⟨fun hall => hall high low (List.prefix_append _ rest), ?_⟩
  intro heq high' low' hbegin
  simp only [List.cons_prefix_cons, List.nil_prefix, true_and, and_true] at hbegin
  obtain ⟨rfl, rfl⟩ := hbegin
  exact heq

end Agreement

section Scan
variable [DecidableEq α] {a : α} (x : α) (v : Escapes a)

/-- From left to right; an escape with a value is passed over as a whole. -/
def scan : List α → List α
  | b :: y :: high :: low :: rest =>
      if b = a ∧ y = x then
        match v.value high low with
        | some c => c :: scan rest
        | none => b :: scan (y :: high :: low :: rest)
      else b :: scan (y :: high :: low :: rest)
  | c :: rest => c :: scan rest
  | [] => []

theorem scan_nil : scan x v [] = [] := by rw [scan]

theorem scan_escape {high low c : α} (h : v.value high low = some c) (rest : List α) :
    scan x v (a :: x :: high :: low :: rest) = c :: scan x v rest := by
  rw [scan, if_pos ⟨rfl, rfl⟩, h]

/-- Where no escape with a value begins, one character is copied. -/
theorem scan_cons {c : α} {t : List α}
    (h : ∀ high low, [a, x, high, low] <+: c :: t → v.value high low = none) :
    scan x v (c :: t) = c :: scan x v t := by
  rcases t with _ | ⟨y, _ | ⟨high, _ | ⟨low, rest⟩⟩⟩
  · rw [scan]
    simp
  · rw [scan]
    simp
  · rw [scan]
    simp
  · by_cases hbegin : c = a ∧ y = x
    · obtain ⟨rfl, rfl⟩ := hbegin
      rw [scan, if_pos ⟨rfl, rfl⟩, h high low (List.prefix_append _ rest)]
    · rw [scan, if_neg hbegin]

theorem scan_cons_ne {c : α} (hc : c ≠ a) (t : List α) :
    scan x v (c :: t) = c :: scan x v t := by
  refine scan_cons x v (fun high low hbegin => ?_)
  rw [List.cons_prefix_cons] at hbegin
  exact absurd hbegin.1.symm hc

end Scan

section Compare
variable [DecidableEq α] {a x : α}

/-- What is copied under the larger table is copied under the smaller one. -/
theorem compare_cons {v w : Escapes a} (hvw : v.Extends w) {c : α} {t : List α}
    (hnone : ∀ high low, [a, x, high, low] <+: c :: t → w.value high low = none)
    (h : (Agree x v w t ∧ scan x v t = scan x w t) ∨
      (¬ Agree x v w t ∧ (scan x w t).length < (scan x v t).length)) :
    (Agree x v w (c :: t) ∧ scan x v (c :: t) = c :: scan x w t) ∨
      (¬ Agree x v w (c :: t) ∧ (c :: scan x w t).length < (scan x v (c :: t)).length) := by
  have hnone' : ∀ high low, [a, x, high, low] <+: c :: t → v.value high low = none := by
    intro high low hpre
    cases hv : v.value high low with
    | none => rfl
    | some d =>
      have hlarge := hvw high low d hv
      rw [hnone high low hpre] at hlarge
      cases hlarge
  have hagree : Agree x v w (c :: t) ↔ Agree x v w t := by
    rw [agree_cons, and_iff_right]
    intro high low hpre
    rw [hnone high low hpre, hnone' high low hpre]
  rw [hagree, scan_cons x v hnone']
  simpa using h

/-- Either the tables agree on the text and read the same, or the larger one reads less. -/
theorem scan_compare (hx : x ≠ a) {v w : Escapes a} (hvw : v.Extends w) (t : List α) :
    (Agree x v w t ∧ scan x v t = scan x w t) ∨
      (¬ Agree x v w t ∧ (scan x w t).length < (scan x v t).length) := by
  -- the induction follows the larger table, which passes over the longer steps
  fun_induction scan x w t with
  | case1 b y high low rest hbegin c hc ih =>
    obtain ⟨rfl, rfl⟩ := hbegin
    rw [agree_escape hx (by rw [hc]; rfl), hc]
    cases hv : v.value high low with
    | some d =>
      have hd : d = c := by
        have hlarge := hvw high low d hv
        rw [hc] at hlarge
        exact (Option.some.inj hlarge).symm
      subst hd
      rw [scan_escape y v hv]
      simpa using ih
    | none =>
      obtain ⟨hhigh, hlow⟩ := w.plain high low (by rw [hc]; rfl)
      have hcopy : scan y v (b :: y :: high :: low :: rest) =
          b :: y :: high :: low :: scan y v rest := by
        rw [scan_cons y v, scan_cons_ne y v hx, scan_cons_ne y v hhigh, scan_cons_ne y v hlow]
        intro high' low' hbegin
        simp only [List.cons_prefix_cons, List.nil_prefix, true_and, and_true] at hbegin
        obtain ⟨rfl, rfl⟩ := hbegin
        exact hv
      right
      refine ⟨by simp, ?_⟩
      rw [hcopy]
      rcases ih with ⟨-, heq⟩ | ⟨-, hlt⟩
      · rw [← heq]
        simp only [List.length_cons]
        omega
      · simp only [List.length_cons]
        omega
  | case2 b y high low rest hbegin hnone ih =>
    obtain ⟨rfl, rfl⟩ := hbegin
    refine compare_cons hvw (fun high' low' hpre => ?_) ih
    simp only [List.cons_prefix_cons, List.nil_prefix, true_and, and_true] at hpre
    obtain ⟨rfl, rfl⟩ := hpre
    exact hnone
  | case3 b y high low rest hbegin ih =>
    refine compare_cons hvw (fun high' low' hpre => ?_) ih
    simp only [List.cons_prefix_cons] at hpre
    exact absurd ⟨hpre.1.symm, hpre.2.1.symm⟩ hbegin
  | case4 c rest hshort ih =>
    refine compare_cons hvw (fun high low hpre => ?_) ih
    obtain ⟨more, hmore⟩ := hpre
    simp only [List.cons_append, List.nil_append, List.cons.injEq] at hmore
    exact absurd hmore.2.symm (hshort x high low more)
  | case5 => exact Or.inl ⟨agree_nil v w, scan_nil x v⟩

theorem scan_eq_scan_iff (hx : x ≠ a) {v w : Escapes a} (hvw : v.Extends w) (t : List α) :
    scan x v t = scan x w t ↔ Agree x v w t := by
  rcases scan_compare hx hvw t with ⟨hagree, heq⟩ | ⟨hnot, hlt⟩
  · exact iff_of_true heq hagree
  · refine iff_of_false (fun heq => ?_) hnot
    rw [heq] at hlt
    exact lt_irrefl _ hlt

theorem scan_empty (t : List α) : scan x (Escapes.empty a) t = t := by
  induction t with
  | nil => exact scan_nil x _
  | cons c t ih => rw [scan_cons x _ (fun _ _ _ => rfl), ih]

/-- A text reads as itself exactly when it has no escape with a value. -/
theorem scan_eq_self_iff (hx : x ≠ a) (w : Escapes a) (t : List α) :
    scan x w t = t ↔ ∀ high low, [a, x, high, low] <:+: t → w.value high low = none := by
  have hiff := scan_eq_scan_iff hx (Escapes.empty_extends w) t
  rw [scan_empty, eq_comm] at hiff
  rw [hiff]
  exact forall₂_congr (fun high low => imp_congr_right (fun _ => eq_comm))

theorem length_scan_le (hx : x ≠ a) (w : Escapes a) (t : List α) :
    (scan x w t).length ≤ t.length := by
  have hcompare := scan_compare hx (Escapes.empty_extends w) t
  rw [scan_empty] at hcompare
  rcases hcompare with ⟨-, heq⟩ | ⟨-, hlt⟩
  · exact le_of_eq (congrArg List.length heq.symm)
  · exact le_of_lt hlt

end Compare
end BinfmtSupport.Unescape
