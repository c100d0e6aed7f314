import Mathlib.Data.List.Pairwise

/-!
A registry that is searched newest first, where an arbiter decides between items that
claim the same thing. Names are known elsewhere with the key that they stand for, and
names become known and forgotten while items come and go. An item is registered with a
handler of its own unless another known name has the same key at that moment.
-/
namespace BinfmtSupport.Registry

structure Registered (ν σ τ : Type*) where
  name : ν
  spec : σ
  handler : τ

section Guard
variable {ν κ σ τ : Type*}

/-- Where both names are known with one key, the later item belongs to the arbiter and is
registered with that key, as it is shown in the registry. -/
def Yields (arbiter : τ) (shown : κ → σ) (known : ν → Option κ)
    (earlier later : Registered ν σ τ) : Prop :=
  earlier.name ≠ later.name → ∀ k, known earlier.name = some k → known later.name = some k →
    later.spec = shown k ∧ later.handler = arbiter

def Guarded (arbiter : τ) (shown : κ → σ) (known : ν → Option κ)
    (items : List (Registered ν σ τ)) : Prop :=
  items.Pairwise (Yields arbiter shown known)

variable {arbiter : τ} {shown : κ → σ} {known : ν → Option κ}
  {items : List (Registered ν σ τ)}

/-- Dropping items and forgetting names does no harm, nor does learning a name that no
item has. -/
theorem Guarded.fewer (h : Guarded arbiter shown known items) {known' : ν → Option κ}
    {items' : List (Registered ν σ τ)} (hitems : items'.Sublist items)
    (hknown : ∀ i ∈ items', ∀ k, known' i.name = some k → known i.name = some k) :
    Guarded arbiter shown known' items' := by
  have hsub := h.sublist hitems
  refine hsub.imp_of_mem ?_
  intro earlier later he hl hpair hne k hk hk'
  exact hpair hne k (hknown earlier he k hk) (hknown later hl k hk')

/-- As long as all known items have one name there is nothing to decide. -/
theorem guarded_of_single (n : ν) (h : ∀ i ∈ items, i.name ≠ n → known i.name = none) :
    Guarded arbiter shown known items := by
  have hall : ∀ i ∈ items, ∀ k, known i.name = some k → i.name = n := by
    intro i hi k hk
    by_contra hne
    rw [h i hi hne] at hk
    cases hk
  refine List.Pairwise.imp_of_mem ?_ (List.pairwise_of_forall (fun _ _ => trivial))
  intro earlier later he hl _ hne k hk hk'
  exact absurd ((hall earlier he k hk).trans (hall later hl k hk').symm) hne

/-- A new item is compared with the older ones only. -/
theorem Guarded.add (h : Guarded arbiter shown known items) (e : Registered ν σ τ)
    (hspec : ∀ k, known e.name = some k → e.spec = shown k)
    (hhandler : ∀ i ∈ items, i.name ≠ e.name → ∀ k, known i.name = some k →
      known e.name = some k → e.handler = arbiter) :
    Guarded arbiter shown known (items ++ [e]) := by
  unfold Guarded
  rw [List.pairwise_append]
  refine ⟨h, List.pairwise_singleton _ e, ?_⟩
  intro i hi e' he' hne k hk hk'
  rw [List.mem_singleton] at he'
  subst he'
  exact ⟨hspec k hk', hhandler i hi hne k hk hk'⟩

end Guard

section Search
variable {ν κ σ τ : Type*}

def newestFirst (items : List (Registered ν σ τ)) (fits : σ → Bool) :
    Option (Registered ν σ τ) :=
  items.reverse.find? (fun i => fits i.spec)

/-- Every other element that passes the test of a search from the end is older than the
one found. -/
theorem older_of_find {α : Type*} {R : α → α → Prop} {p : α → Bool} {l : List α} {a b : α}
    (hpair : l.Pairwise R) (hfind : l.reverse.find? p = some b) (ha : a ∈ l)
    (hp : p a = true) : a = b ∨ R a b := by
  obtain ⟨-, newer, older, hsplit, hnewer⟩ := List.find?_eq_some_iff_append.mp hfind
  have hl : l = older.reverse ++ b :: newer.reverse := by
    rw [← List.reverse_reverse l, hsplit]
    simp
  rw [hl, List.pairwise_append] at hpair
  rw [hl, List.mem_append, List.mem_cons] at ha
  rcases ha with hold | rfl | hnew
  · exact Or.inr (hpair.2.2 a hold b List.mem_cons_self)
  · exact Or.inl rfl
  · have hfalse := hnewer a (List.mem_reverse.mp hnew)
    simp [hp] at hfalse

/-- What fits a key that two known items share never goes straight to one of the two: if
the search ends at an item with that key, its handler is the arbiter. -/
theorem Guarded.handler_newestFirst {arbiter : τ} {shown : κ → σ} {known : ν → Option κ}
    {items : List (Registered ν σ τ)} (h : Guarded arbiter shown known items)
    {fits : σ → Bool} {e i : Registered ν σ τ} {k : κ}
    (hfirst : newestFirst items fits = some e) (he : known e.name = some k) (hi : i ∈ items)
    (hne : i.name ≠ e.name) (hk : known i.name = some k) (hfits : fits (shown k) = true) :
    e.handler = arbiter := by
  have hmem : e ∈ items := List.mem_reverse.mp (List.mem_of_find?_eq_some hfirst)
  have hie : i ≠ e := fun heq => hne (heq ▸ rfl)
  have hsym : Std.Symm (fun x y : Registered ν σ τ =>
      Yields arbiter shown known x y ∨ Yields arbiter shown known y x) :=
    ⟨fun _ _ hor => hor.symm⟩
  have hany : items.Pairwise (fun x y =>
      Yields arbiter shown known x y ∨ Yields arbiter shown known y x) :=
    h.imp (fun hpair => Or.inl hpair)
  rcases hany.forall hi hmem hie with holder | hnewer
  · exact (holder hne k hk he).2
  · -- the other item is newer, so that it fits and would have been found first
    have hspec := (hnewer hne.symm k he hk).1
    rcases older_of_find h hfirst hi (by rw [hspec, hfits]) with heq | holder
    · exact absurd heq hie
    · exact (holder hne k hk he).2

end Search
end BinfmtSupport.Registry
