import BinfmtSupport.HashTable
import Mathlib.Data.Finset.Card
import Mathlib.Data.List.Perm.Basic

/-!
Rehashing. A transfer moves entries from one arrangement of buckets to another, and while it
does so nothing is lost: the entries of both tables together stay the same, and so do the
nodes, unless malloc provides more of them. A transfer that runs out of memory can therefore
be undone: what the old table needs as overflow it has had before.
-/
namespace BinfmtSupport.Rehash

open HashTable

variable {α : Type}

/-- What hash.c asks of the functions: a slot that is in the table, an equivalence, and one
slot for equivalent entries. -/
structure Lawful (h : Methods α) : Prop where
  hasher_lt : ∀ x n, 0 < n → h.hasher x n < n
  hasher_congr : ∀ x y, h.comparator x y = true → ∀ n, h.hasher x n = h.hasher y n
  refl : ∀ x, h.comparator x x = true
  symm : ∀ x y, h.comparator x y = true → h.comparator y x = true
  trans : ∀ x y z, h.comparator x y = true → h.comparator y z = true → h.comparator x z = true

/-- Every entry is in the bucket that the hasher names, and the buckets in use are counted. -/
structure Arranged (h : Methods α) (t : Table α) : Prop where
  size_pos : 0 < t.nBuckets
  placed : ∀ slot, ∀ x ∈ t.chain slot, h.hasher x t.nBuckets = slot
  counted : t.nBucketsUsed = used t.bucket

theorem safeHasher_ok {h : Methods α} (hl : Lawful h) {n : ℕ} (hn : 0 < n) (key : α) :
    safeHasher h n key = .ok (h.hasher key n) := if_pos (hl.hasher_lt key n hn)

theorem ok_bind {ε β γ : Type} (a : β) (f : β → Except ε γ) : (Except.ok a >>= f) = f a := rfl

theorem ok_of_bind {ε β γ : Type} {x : Except ε β} {f : β → Except ε γ} {c : γ}
    (h : (x >>= f) = .ok c) : ∃ a, x = .ok a ∧ f a = .ok c := by
  cases x with
  | error e => cases h
  | ok a => exact ⟨a, rfl, h⟩

def Refused (granted : ℕ → Bool) (first last : ℕ) : Prop :=
  ∃ time, first ≤ time ∧ time < last ∧ granted time = false

theorem Refused.widen {granted : ℕ → Bool} {first last first' last' : ℕ}
    (h : Refused granted first last) (hfirst : first' ≤ first) (hlast : last ≤ last') :
    Refused granted first' last' := by
  obtain ⟨time, hge, hlt, hno⟩ := h
  exact ⟨time, hfirst.trans hge, hlt.trans_le hlast, hno⟩

section Buckets

/-- One bucket is replaced and the others stay. -/
theorem exists_split {t : Table α} {slot : ℕ} (hslot : slot < t.nBuckets) :
    ∃ front back, front.length = slot ∧ t.bucket = front ++ t.chain slot :: back ∧
      ∀ chain, t.bucket.set slot chain = front ++ chain :: back := by
  have hlt : slot < t.bucket.length := hslot
  refine ⟨t.bucket.take slot, t.bucket.drop (slot + 1), List.length_take_of_le hlt.le, ?_, ?_⟩
  · have hchain : t.chain slot = t.bucket[slot] := List.getD_eq_getElem t.bucket [] hlt
    rw [hchain, ← List.drop_eq_getElem_cons hlt, List.take_append_drop]
  · intro chain
    exact List.set_eq_take_append_cons_drop.trans (if_pos hlt)

theorem chain_setChain {t : Table α} {slot : ℕ} (hslot : slot < t.nBuckets) (chain : List α)
    (i : ℕ) : (t.setChain slot chain).chain i = if i = slot then chain else t.chain i := by
  unfold Table.chain Table.setChain
  rw [List.getD_eq_getElem?_getD, List.getElem?_set, List.getD_eq_getElem?_getD]
  by_cases hi : slot = i
  · subst hi
    have hlt : slot < t.bucket.length := hslot
    simp [hlt]
  · rw [if_neg hi, if_neg (Ne.symm hi)]

theorem nBuckets_setChain (t : Table α) (slot : ℕ) (chain : List α) :
    (t.setChain slot chain).nBuckets = t.nBuckets := List.length_set

theorem used_append (front back : List (List α)) : used (front ++ back) = used front + used back :=
  List.countP_append

theorem used_cons_nil (rest : List (List α)) : used ([] :: rest) = used rest := by
  simp [used]

theorem used_cons_cons (x : α) (chain : List α) (rest : List (List α)) :
    used ((x :: chain) :: rest) = used rest + 1 := by simp [used]

theorem used_replicate (n : ℕ) : used (List.replicate n ([] : List α)) = 0 := by
  simp [used, List.countP_replicate]

/-- The entries of the other buckets have other slots. -/
theorem Arranged.elsewhere {h : Methods α} {t : Table α} (ha : Arranged h t) {slot : ℕ}
    {front back : List (List α)} (hlength : front.length = slot)
    (hsplit : t.bucket = front ++ t.chain slot :: back) :
    ∀ x, x ∈ front.flatten ∨ x ∈ back.flatten → h.hasher x t.nBuckets ≠ slot := by
  intro x hx heq
  rcases hx with hx | hx <;> obtain ⟨chain, hchain, hmem⟩ := List.mem_flatten.mp hx <;>
    obtain ⟨i, hi, rfl⟩ := List.getElem_of_mem hchain
  · have hplaced := ha.placed i x (by
      rw [Table.chain, hsplit, List.getD_append _ _ _ _ hi, List.getD_eq_getElem _ _ hi]
      exact hmem)
    omega
  · have hplaced := ha.placed (slot + 1 + i) x (by
      rw [Table.chain, hsplit, List.getD_append_right _ _ _ _ (by omega), hlength,
        show slot + 1 + i - slot = i + 1 by omega, List.getD_cons_succ,
        List.getD_eq_getElem _ _ hi]
      exact hmem)
    omega

/-- An entry goes behind the head of its bucket. -/
theorem Arranged.behind {h : Methods α} {t : Table α} (ha : Arranged h t) (hl : Lawful h)
    {x head : α} {more : List α} (hchain : t.chain (h.hasher x t.nBuckets) = head :: more) :
    Arranged h (t.setChain (h.hasher x t.nBuckets) (head :: x :: more)) ∧
      (t.setChain (h.hasher x t.nBuckets) (head :: x :: more)).entries.Perm (x :: t.entries) ∧
      used (t.setChain (h.hasher x t.nBuckets) (head :: x :: more)).bucket = used t.bucket := by
  have hslot := hl.hasher_lt x t.nBuckets ha.size_pos
  obtain ⟨front, back, -, hsplit, hset⟩ := exists_split hslot
  rw [hchain] at hsplit
  have hused : used (t.setChain (h.hasher x t.nBuckets) (head :: x :: more)).bucket =
      used t.bucket := by
    rw [Table.setChain, hset, hsplit]
    simp only [used_append, used_cons_cons]
  refine ⟨⟨?_, ?_, ?_⟩, ?_, hused⟩
  · rw [nBuckets_setChain]
    exact ha.size_pos
  · intro slot y hy
    rw [nBuckets_setChain]
    rw [chain_setChain hslot] at hy
    split at hy
    · rename_i heq
      rw [heq]
      rcases List.mem_cons.mp hy with rfl | hy
      · exact ha.placed _ _ (hchain ▸ List.mem_cons_self)
      · rcases List.mem_cons.mp hy with rfl | hy
        · rfl
        · exact ha.placed _ _ (hchain ▸ List.mem_cons_of_mem head hy)
    · exact ha.placed slot y hy
  · rw [hused]
    exact ha.counted
  · rw [Table.entries, Table.entries, Table.setChain, hset, hsplit]
    simp only [List.flatten_append, List.flatten_cons, List.cons_append]
    exact (List.perm_middle.trans
      ((List.perm_middle.cons head).trans (List.Perm.swap x head _))).trans
        (List.perm_middle.symm.cons x)

/-- An entry becomes the head of its bucket. -/
theorem Arranged.asHead {h : Methods α} {t : Table α} (ha : Arranged h t) (hl : Lawful h)
    {x : α} (hchain : t.chain (h.hasher x t.nBuckets) = []) :
    Arranged h { t.setChain (h.hasher x t.nBuckets) [x] with
        nBucketsUsed := t.nBucketsUsed + 1 } ∧
      (t.setChain (h.hasher x t.nBuckets) [x]).entries.Perm (x :: t.entries) ∧
      used (t.setChain (h.hasher x t.nBuckets) [x]).bucket = used t.bucket + 1 := by
  have hslot := hl.hasher_lt x t.nBuckets ha.size_pos
  obtain ⟨front, back, -, hsplit, hset⟩ := exists_split hslot
  rw [hchain] at hsplit
  have hused : used (t.setChain (h.hasher x t.nBuckets) [x]).bucket = used t.bucket + 1 := by
    rw [Table.setChain, hset, hsplit]
    simp only [used_append, used_cons_cons, used_cons_nil]
    omega
  refine ⟨⟨?_, ?_, ?_⟩, ?_, hused⟩
  · exact (nBuckets_setChain t _ _).symm ▸ ha.size_pos
  · intro slot y hy
    change y ∈ (t.setChain _ [x]).chain slot at hy
    change h.hasher y (t.setChain _ [x]).nBuckets = slot
    rw [nBuckets_setChain]
    rw [chain_setChain hslot] at hy
    split at hy
    · rename_i heq
      rw [List.mem_singleton.mp hy, heq]
    · exact ha.placed slot y hy
  · change t.nBucketsUsed + 1 = used (t.setChain _ [x]).bucket
    rw [hused, ha.counted]
  · rw [Table.entries, Table.entries, Table.setChain, hset, hsplit]
    simp only [List.flatten_append, List.flatten_cons, List.nil_append, List.cons_append]
    exact List.perm_middle

end Buckets

section Transfer
variable {h : Methods α} (hl : Lawful h) (granted : ℕ → Bool)
include hl

omit granted in
/-- The nodes of an overflow are enough for its entries, and each head that arises from them
leaves a free one. -/
theorem transferOverflow_spec (overflow : List α) {dst : Table α} (ha : Arranged h dst) :
    ∃ dst', transferOverflow h dst overflow = .ok dst' ∧ Arranged h dst' ∧
      dst'.nBuckets = dst.nBuckets ∧ dst'.entries.Perm (overflow ++ dst.entries) ∧
      dst'.freeEntries + used dst.bucket = dst.freeEntries + used dst'.bucket ∧
      dst'.nEntries = dst.nEntries := by
  induction overflow generalizing dst with
  | nil => exact ⟨dst, rfl, ha, rfl, List.Perm.refl _, rfl, rfl⟩
  | cons data rest ih =>
    rw [transferOverflow, safeHasher_ok hl ha.size_pos, ok_bind]
    cases hchain : dst.chain (h.hasher data dst.nBuckets) with
    | cons head more =>
      obtain ⟨hput, hentries, hused⟩ := ha.behind hl hchain
      obtain ⟨dst', hrun, ha', hsize, hperm, hfree, hcount⟩ := ih hput
      refine ⟨dst', hrun, ha', hsize.trans (nBuckets_setChain dst _ _), ?_, ?_, hcount⟩
      · exact hperm.trans ((hentries.append_left rest).trans List.perm_middle)
      · rw [hused] at hfree
        exact hfree
    | nil =>
      obtain ⟨hput, hentries, hused⟩ := ha.asHead hl hchain
      have hput' : Arranged h { freeEntry (dst.setChain (h.hasher data dst.nBuckets) [data]) with
          nBucketsUsed := dst.nBucketsUsed + 1 } := ⟨hput.size_pos, hput.placed, hput.counted⟩
      obtain ⟨dst', hrun, ha', hsize, hperm, hfree, hcount⟩ := ih hput'
      refine ⟨dst', hrun, ha', hsize.trans (nBuckets_setChain dst _ _), ?_, ?_, hcount⟩
      · exact hperm.trans ((hentries.append_left rest).trans List.perm_middle)
      · change dst'.freeEntries + used (dst.setChain _ [data]).bucket =
          dst.freeEntries + 1 + used dst'.bucket at hfree
        omega

/-- A head takes a node at most, and only a lack of nodes can stop it. -/
theorem transferHead_spec (data : α) {dst : Table α} (ha : Arranged h dst) :
    ∃ ok dst', transferHead h granted dst data = .ok (ok, dst') ∧ Arranged h dst' ∧
      dst'.nBuckets = dst.nBuckets ∧ dst'.nEntries = dst.nEntries ∧
      (ok = true → dst'.entries.Perm (data :: dst.entries) ∧
        dst.freeEntries + used dst'.bucket ≤ dst'.freeEntries + used dst.bucket + 1) ∧
      (ok = false → dst'.bucket = dst.bucket ∧ dst.freeEntries = 0 ∧
        dst.chain (h.hasher data dst.nBuckets) ≠ []) := by
  rw [transferHead, safeHasher_ok hl ha.size_pos, ok_bind]
  cases hchain : dst.chain (h.hasher data dst.nBuckets) with
  | cons head more =>
    obtain ⟨hput, hentries, hused⟩ := ha.behind hl hchain
    cases hfree : dst.freeEntries with
    | zero =>
      cases hgrant : granted dst.requests with
      | true =>
        refine ⟨true, { dst.setChain (h.hasher data dst.nBuckets) (head :: data :: more) with
          freeEntries := 0, requests := dst.requests + 1 }, ?_,
          ⟨hput.size_pos, hput.placed, hput.counted⟩,
          nBuckets_setChain dst _ _, rfl, ?_, nofun⟩
        · simp only [allocateEntry, hfree, hgrant]
          rfl
        · intro _
          refine ⟨hentries, ?_⟩
          change 0 + used (dst.setChain _ (head :: data :: more)).bucket ≤ 0 + used dst.bucket + 1
          omega
      | false =>
        refine ⟨false, { dst with requests := dst.requests + 1 }, ?_,
          ⟨ha.size_pos, ha.placed, ha.counted⟩, rfl, rfl, nofun, ?_⟩
        · simp only [allocateEntry, hfree, hgrant]
          rfl
        · intro _
          exact ⟨rfl, rfl, List.cons_ne_nil head more⟩
    | succ free =>
      refine ⟨true, { dst.setChain (h.hasher data dst.nBuckets) (head :: data :: more) with
        freeEntries := free }, ?_, ⟨hput.size_pos, hput.placed, hput.counted⟩,
        nBuckets_setChain dst _ _, rfl, ?_, nofun⟩
      · simp only [allocateEntry, hfree]
        rfl
      · intro _
        refine ⟨hentries, ?_⟩
        change free + 1 + used (dst.setChain _ (head :: data :: more)).bucket ≤
          free + used dst.bucket + 1
        omega
  | nil =>
    obtain ⟨hput, hentries, hused⟩ := ha.asHead hl hchain
    refine ⟨true, _, rfl, hput, nBuckets_setChain dst _ _, rfl, ?_, nofun⟩
    intro _
    refine ⟨hentries, ?_⟩
    change dst.freeEntries + used (dst.setChain _ [data]).bucket ≤
      dst.freeEntries + used dst.bucket + 1
    omega

omit hl granted in
/-- What a transfer from one list of buckets does, however far it gets. -/
structure Moves (h : Methods α) (safe : Bool) (dst : Table α) (src : List (List α))
    (done : Transferred α) : Prop where
  arranged : Arranged h done.dst
  size : done.dst.nBuckets = dst.nBuckets
  nEntries : done.dst.nEntries = dst.nEntries
  entries : (done.dst.entries ++ done.left.flatten).Perm (dst.entries ++ src.flatten)
  left : List.Forall₂ List.Sublist done.left src
  moved : used done.left + done.moved = used src
  nodes : dst.freeEntries + used done.dst.bucket + used done.left ≤
    done.dst.freeEntries + used dst.bucket + used src
  all : done.ok = true → safe = false → done.left.flatten = []
  safely : safe = true → done.ok = true ∧ ∀ chain ∈ done.left, chain.length ≤ 1

omit hl granted in
theorem Moves.skip {safe : Bool} {dst : Table α} {rest : List (List α)} {done : Transferred α}
    (hdone : Moves h safe dst rest done) :
    Moves h safe dst ([] :: rest) { done with left := [] :: done.left } := by
  refine ⟨hdone.arranged, hdone.size, hdone.nEntries, hdone.entries,
    List.Forall₂.cons (List.Sublist.refl _) hdone.left, ?_, ?_, hdone.all, ?_⟩
  · rw [used_cons_nil, used_cons_nil]
    exact hdone.moved
  · rw [used_cons_nil, used_cons_nil]
    exact hdone.nodes
  · intro hsafe
    refine ⟨(hdone.safely hsafe).1, ?_⟩
    intro chain hchain
    rcases List.mem_cons.mp hchain with rfl | hchain
    · exact Nat.zero_le 1
    · exact (hdone.safely hsafe).2 chain hchain

omit hl granted in
/-- The overflow has gone over and the head stays. -/
theorem Moves.keepHead {dst dst₁ : Table α} {head : α} {overflow : List α}
    {rest : List (List α)} {done : Transferred α} (hsize : dst₁.nBuckets = dst.nBuckets)
    (hperm : dst₁.entries.Perm (overflow ++ dst.entries))
    (hfree : dst₁.freeEntries + used dst.bucket = dst.freeEntries + used dst₁.bucket)
    (hcount : dst₁.nEntries = dst.nEntries) (hdone : Moves h true dst₁ rest done) :
    Moves h true dst ((head :: overflow) :: rest) { done with left := [head] :: done.left } := by
  classical
  refine ⟨hdone.arranged, hdone.size.trans hsize, hdone.nEntries.trans hcount, ?_,
    List.Forall₂.cons (List.singleton_sublist.mpr List.mem_cons_self) hdone.left, ?_, ?_,
    nofun, ?_⟩
  · rw [List.perm_iff_count]
    intro x
    have h₁ := hperm.count_eq x
    have h₂ := hdone.entries.count_eq x
    simp only [List.count_append, List.flatten_cons, List.count_cons, List.count_nil] at h₁ h₂ ⊢
    omega
  · rw [used_cons_cons, used_cons_cons]
    have := hdone.moved
    change used done.left + 1 + done.moved = _
    omega
  · rw [used_cons_cons, used_cons_cons]
    have := hdone.nodes
    change dst.freeEntries + used done.dst.bucket + _ ≤ done.dst.freeEntries + _ + _
    omega
  · intro _
    refine ⟨(hdone.safely rfl).1, ?_⟩
    intro chain hchain
    rcases List.mem_cons.mp hchain with rfl | hchain
    · exact le_rfl
    · exact (hdone.safely rfl).2 chain hchain

omit hl granted in
/-- The overflow has gone over and the head after it. -/
theorem Moves.moveHead {dst dst₁ dst₂ : Table α} {head : α} {overflow : List α}
    {rest : List (List α)} {done : Transferred α} (hsize : dst₂.nBuckets = dst.nBuckets)
    (hperm₁ : dst₁.entries.Perm (overflow ++ dst.entries))
    (hfree₁ : dst₁.freeEntries + used dst.bucket = dst.freeEntries + used dst₁.bucket)
    (hperm₂ : dst₂.entries.Perm (head :: dst₁.entries))
    (hfree₂ : dst₁.freeEntries + used dst₂.bucket ≤ dst₂.freeEntries + used dst₁.bucket + 1)
    (hcount : dst₂.nEntries = dst.nEntries) (hdone : Moves h false dst₂ rest done) :
    Moves h false dst ((head :: overflow) :: rest)
      { done with left := [] :: done.left, moved := done.moved + 1 } := by
  classical
  refine ⟨hdone.arranged, hdone.size.trans hsize, hdone.nEntries.trans hcount, ?_,
    List.Forall₂.cons (List.nil_sublist _) hdone.left, ?_, ?_, hdone.all, nofun⟩
  · rw [List.perm_iff_count]
    intro x
    have h₁ := hperm₁.count_eq x
    have h₂ := hperm₂.count_eq x
    have h₃ := hdone.entries.count_eq x
    simp only [List.count_append, List.flatten_cons, List.count_cons,
      List.nil_append] at h₁ h₂ h₃ ⊢
    omega
  · rw [used_cons_nil, used_cons_cons]
    have := hdone.moved
    change used done.left + (done.moved + 1) = _
    omega
  · rw [used_cons_nil, used_cons_cons]
    have := hdone.nodes
    change dst.freeEntries + used done.dst.bucket + _ ≤ done.dst.freeEntries + _ + _
    omega

omit hl granted in
/-- The overflow has gone over, and for the head there is no node. -/
theorem moves_stopped {dst dst₁ dst₂ : Table α} {head : α} {overflow : List α}
    (rest : List (List α)) (ha : Arranged h dst₂) (hsize : dst₂.nBuckets = dst.nBuckets)
    (hperm : dst₁.entries.Perm (overflow ++ dst.entries))
    (hfree : dst₁.freeEntries + used dst.bucket = dst.freeEntries + used dst₁.bucket)
    (hbucket : dst₂.bucket = dst₁.bucket) (hzero : dst₁.freeEntries = 0)
    (hcount : dst₂.nEntries = dst.nEntries) :
    Moves h false dst ((head :: overflow) :: rest) ⟨false, dst₂, [head] :: rest, 0⟩ := by
  classical
  refine ⟨ha, hsize, hcount, ?_,
    List.Forall₂.cons (List.singleton_sublist.mpr List.mem_cons_self)
      (List.forall₂_same.mpr (fun _ _ => List.Sublist.refl _)), ?_, ?_, nofun, nofun⟩
  · rw [List.perm_iff_count]
    intro x
    have h₁ := hperm.count_eq x
    simp only [Table.entries, hbucket, List.count_append, List.flatten_cons, List.count_cons,
      List.count_nil] at h₁ ⊢
    omega
  · rw [used_cons_cons, used_cons_cons]
    rfl
  · rw [used_cons_cons, used_cons_cons]
    change dst.freeEntries + used dst₂.bucket + _ ≤ dst₂.freeEntries + _ + _
    rw [hbucket]
    omega

theorem transferEntries_spec (safe : Bool) (src : List (List α)) {dst : Table α}
    (ha : Arranged h dst) :
    ∃ done, transferEntries h granted safe dst src = .ok done ∧ Moves h safe dst src done := by
  induction src generalizing dst with
  | nil =>
    exact ⟨⟨true, dst, [], 0⟩, rfl, ⟨ha, rfl, rfl, List.Perm.refl _, List.Forall₂.nil, rfl,
      le_rfl, fun _ _ => rfl, fun _ => ⟨rfl, nofun⟩⟩⟩
  | cons chain rest ih =>
    cases chain with
    | nil =>
      obtain ⟨done, hrun, hdone⟩ := ih ha
      refine ⟨_, ?_, hdone.skip⟩
      rw [transferEntries, hrun]
      rfl
    | cons head overflow =>
      obtain ⟨dst₁, hover, ha₁, hsize₁, hperm₁, hfree₁, hcount₁⟩ :=
        transferOverflow_spec hl overflow ha
      rw [transferEntries, hover, ok_bind]
      cases safe with
      | true =>
        obtain ⟨done, hrun, hdone⟩ := ih ha₁
        refine ⟨_, ?_, hdone.keepHead hsize₁ hperm₁ hfree₁ hcount₁⟩
        rw [if_pos rfl, hrun]
        rfl
      | false =>
        obtain ⟨ok, dst₂, hhead, ha₂, hsize₂, hcount₂, hok, hfail⟩ :=
          transferHead_spec hl granted head ha₁
        rw [if_neg Bool.false_ne_true, hhead, ok_bind]
        cases ok with
        | true =>
          obtain ⟨hperm₂, hfree₂⟩ := hok rfl
          obtain ⟨done, hrun, hdone⟩ := ih ha₂
          refine ⟨_, ?_, hdone.moveHead (hsize₂.trans hsize₁) hperm₁ hfree₁ hperm₂ hfree₂
            (hcount₂.trans hcount₁)⟩
          simp only [hrun]
          rfl
        | false =>
          obtain ⟨hbucket, hzero, -⟩ := hfail rfl
          exact ⟨_, rfl, moves_stopped rest ha₂ (hsize₂.trans hsize₁) hperm₁ hfree₁ hbucket hzero
            (hcount₂.trans hcount₁)⟩

end Transfer

section Slots

def slots (h : Methods α) (n : ℕ) (xs : List α) : Finset ℕ :=
  (xs.map (fun x => h.hasher x n)).toFinset

theorem slots_perm (h : Methods α) (n : ℕ) {xs ys : List α} (hperm : xs.Perm ys) :
    slots h n xs = slots h n ys := List.toFinset_eq_of_perm _ _ (hperm.map _)

theorem slots_append (h : Methods α) (n : ℕ) (xs ys : List α) :
    slots h n (xs ++ ys) = slots h n xs ∪ slots h n ys := by
  rw [slots, List.map_append, List.toFinset_append]
  rfl

theorem card_slots_le (h : Methods α) (n : ℕ) (xs : List α) : (slots h n xs).card ≤ xs.length :=
  (List.toFinset_card_le _).trans (List.length_map _).le

/-- Buckets in use and slots correspond, whatever the numbering starts with. -/
theorem card_slots (f : α → ℕ) (bucket : List (List α)) (k : ℕ)
    (hplaced : ∀ i, ∀ x ∈ bucket.getD i [], f x = k + i) :
    (bucket.flatten.map f).toFinset.card = used bucket := by
  induction bucket generalizing k with
  | nil => rfl
  | cons chain rest ih =>
    have hrest : ∀ i, ∀ x ∈ rest.getD i [], f x = k + 1 + i := by
      intro i x hx
      have := hplaced (i + 1) x hx
      omega
    have hcard := ih (k + 1) hrest
    cases chain with
    | nil =>
      rw [used_cons_nil, List.flatten_cons, List.nil_append, hcard]
    | cons head overflow =>
      have hchain : ((head :: overflow).map f).toFinset = {k} := by
        ext i
        rw [List.mem_toFinset, List.mem_map, Finset.mem_singleton]
        constructor
        · rintro ⟨x, hx, rfl⟩
          exact hplaced 0 x hx
        · rintro rfl
          exact ⟨head, List.mem_cons_self, hplaced 0 head List.mem_cons_self⟩
      have hdisjoint : Disjoint {k} (rest.flatten.map f).toFinset := by
        rw [Finset.disjoint_singleton_left, List.mem_toFinset, List.mem_map]
        rintro ⟨x, hx, heq⟩
        obtain ⟨other, hother, hmem⟩ := List.mem_flatten.mp hx
        obtain ⟨i, hi, rfl⟩ := List.getElem_of_mem hother
        have := hrest i x (by rwa [List.getD_eq_getElem rest [] hi])
        omega
      rw [used_cons_cons, List.flatten_cons, List.map_append, List.toFinset_append, hchain,
        Finset.card_union_of_disjoint hdisjoint, Finset.card_singleton, hcard, Nat.add_comm]

theorem Arranged.used_eq {h : Methods α} {t : Table α} (ha : Arranged h t) :
    used t.bucket = (slots h t.nBuckets t.entries).card := by
  refine (card_slots (fun x => h.hasher x t.nBuckets) t.bucket 0 ?_).symm
  intro i x hx
  rw [Nat.zero_add]
  exact ha.placed i x hx

end Slots

section Undo
variable {h : Methods α} (hl : Lawful h) (granted : ℕ → Bool)
include hl

omit granted in
/-- A head whose slot is in use already does not count once more. -/
theorem slots_of_used {dst : Table α} (ha : Arranged h dst) {head : α}
    (hchain : dst.chain (h.hasher head dst.nBuckets) ≠ []) (rest : List α) :
    slots h dst.nBuckets (dst.entries ++ head :: rest) =
      slots h dst.nBuckets (dst.entries ++ rest) := by
  obtain ⟨x, hx⟩ := List.exists_mem_of_ne_nil _ hchain
  have hmem : h.hasher head dst.nBuckets ∈ slots h dst.nBuckets dst.entries := by
    rw [slots, List.mem_toFinset, List.mem_map]
    refine ⟨x, ?_, ha.placed _ x hx⟩
    obtain ⟨front, back, -, hsplit, -⟩ :=
      exists_split (t := dst) (hl.hasher_lt head dst.nBuckets ha.size_pos)
    rw [Table.entries, hsplit, List.flatten_append, List.flatten_cons]
    exact List.mem_append_right _ (List.mem_append_left _ hx)
  rw [slots_append, slots_append]
  change _ ∪ (h.hasher head dst.nBuckets :: rest.map _).toFinset = _
  rw [List.toFinset_cons, Finset.union_insert, Finset.insert_eq_of_mem]
  · rfl
  · exact Finset.mem_union_left _ hmem

/-- Heads alone find room as long as there are as many nodes as the table needs in the end. -/
theorem transferHeads_ok (src : List (List α)) (hheads : ∀ chain ∈ src, chain.length ≤ 1)
    {dst : Table α} (ha : Arranged h dst)
    (hnodes : src.flatten.length + used dst.bucket ≤
      dst.freeEntries + (slots h dst.nBuckets (dst.entries ++ src.flatten)).card)
    {done : Transferred α} (hrun : transferEntries h granted false dst src = .ok done) :
    done.ok = true := by
  induction src generalizing dst done with
  | nil =>
    cases hrun
    rfl
  | cons chain rest ih =>
    have hrest : ∀ chain ∈ rest, chain.length ≤ 1 :=
      fun chain hchain => hheads chain (List.mem_cons_of_mem _ hchain)
    cases chain with
    | nil =>
      obtain ⟨next, hnext, -⟩ := transferEntries_spec hl granted false rest ha
      rw [transferEntries, hnext, ok_bind] at hrun
      cases hrun
      have hok : next.ok = true := ih hrest ha hnodes hnext
      exact hok
    | cons head overflow =>
      have hnone : overflow = [] := by
        have := hheads _ List.mem_cons_self
        rw [List.length_cons] at this
        exact List.length_eq_zero_iff.mp (by omega)
      subst hnone
      rw [List.flatten_cons, List.singleton_append] at hnodes
      rw [List.length_cons] at hnodes
      rw [transferEntries, transferOverflow] at hrun
      obtain ⟨ok, dst₂, hhead, ha₂, hsize₂, -, hok, hfail⟩ := transferHead_spec hl granted head ha
      change (transferHead h granted dst head >>= _) = _ at hrun
      rw [hhead, ok_bind] at hrun
      cases ok with
      | true =>
        obtain ⟨hperm, hfree⟩ := hok rfl
        obtain ⟨next, hnext, -⟩ := transferEntries_spec hl granted false rest ha₂
        simp only [hnext] at hrun
        cases hrun
        have hsame : slots h dst₂.nBuckets (dst₂.entries ++ rest.flatten) =
            slots h dst.nBuckets (dst.entries ++ head :: rest.flatten) := by
          rw [hsize₂]
          exact slots_perm h _ ((hperm.append_right _).trans List.perm_middle.symm)
        have hok' : next.ok = true := ih hrest ha₂ (by rw [hsame]; omega) hnext
        exact hok'
      | false =>
        obtain ⟨-, hzero, hchain⟩ := hfail rfl
        have hslot := slots_of_used hl ha hchain rest.flatten
        have hcard := Finset.card_union_le (slots h dst.nBuckets dst.entries)
          (slots h dst.nBuckets rest.flatten)
        have hle := card_slots_le h dst.nBuckets rest.flatten
        have hused := ha.used_eq
        rw [hslot, slots_append] at hnodes
        omega

omit granted hl in
/-- What a transfer has left behind is still arranged. -/
theorem Moves.arrangedLeft {safe : Bool} {dst t : Table α} {done : Transferred α}
    (hdone : Moves h safe dst t.bucket done) (ha : Arranged h t) (nEntries free requests : ℕ) :
    Arranged h ⟨done.left, t.nBucketsUsed - done.moved, nEntries, free, requests⟩ := by
  have hlength : done.left.length = t.bucket.length := hdone.left.length_eq
  refine ⟨?_, ?_, ?_⟩
  · change 0 < done.left.length
    rw [hlength]
    exact ha.size_pos
  · intro slot x hx
    change x ∈ done.left.getD slot [] at hx
    change h.hasher x done.left.length = slot
    rw [hlength]
    rcases Nat.lt_or_ge slot done.left.length with hlt | hge
    · rw [List.getD_eq_getElem _ _ hlt] at hx
      have hsub := hdone.left.get hlt (hlength ▸ hlt)
      refine ha.placed slot x ?_
      rw [Table.chain, List.getD_eq_getElem _ _ (hlength ▸ hlt)]
      exact hsub.subset hx
    · rw [List.getD_eq_default _ _ hge] at hx
      cases hx
  · change t.nBucketsUsed - done.moved = used done.left
    have := hdone.moved
    have := ha.counted
    omega

/-- Whatever a transfer has done when it runs out of memory can be undone. -/
theorem undoTransfer_spec {t dst : Table α} (ha : Arranged h t) (hempty : dst.entries = [])
    (hunused : used dst.bucket = 0) {done : Transferred α}
    (hdone : Moves h false dst t.bucket done) :
    ∃ t', undoTransfer h granted t done = .ok (false, t') ∧ Arranged h t' ∧
      t'.nBuckets = t.nBuckets ∧ t'.nEntries = t.nEntries ∧ t'.entries.Perm t.entries := by
  have ha₁ := hdone.arrangedLeft ha t.nEntries done.dst.freeEntries done.dst.requests
  obtain ⟨first, hfirst, hback⟩ := transferEntries_spec hl granted true done.dst.bucket ha₁
  obtain ⟨hok₁, hheads⟩ := hback.safely rfl
  obtain ⟨second, hsecond, hlast⟩ :=
    transferEntries_spec hl granted false first.left hback.arranged
  have hsize₁ : first.dst.nBuckets = t.nBuckets := hback.size.trans hdone.left.length_eq
  have hall : (first.dst.entries ++ first.left.flatten).Perm t.entries := by
    have h₁ := hdone.entries
    rw [hempty, List.nil_append] at h₁
    exact hback.entries.trans (List.perm_append_comm.trans h₁)
  have hlength : first.left.flatten.length = used first.left := by
    generalize first.left = left at hheads
    induction left with
    | nil => rfl
    | cons chain rest ih =>
      have hrest := ih (fun chain hchain => hheads chain (List.mem_cons_of_mem _ hchain))
      have hone := hheads chain List.mem_cons_self
      rw [List.flatten_cons, List.length_append, hrest]
      cases chain with
      | nil => rw [used_cons_nil, List.length_nil, Nat.zero_add]
      | cons head overflow =>
        rw [used_cons_cons]
        rw [List.length_cons] at hone ⊢
        omega
  have hok₂ : second.ok = true := by
    refine transferHeads_ok hl granted first.left hheads hback.arranged ?_ hsecond
    rw [hsize₁, slots_perm h _ hall, ← ha.used_eq, hlength]
    have h₁ := hdone.nodes
    have h₂ := hback.nodes
    change done.dst.freeEntries + used first.dst.bucket + used first.left ≤
      first.dst.freeEntries + used done.left + used done.dst.bucket at h₂
    omega
  refine ⟨second.dst, ?_, hlast.arranged, hlast.size.trans hsize₁,
    hlast.nEntries.trans hback.nEntries, ?_⟩
  · simp only [undoTransfer, hfirst, ok_bind, hok₁, if_true, hsecond, hok₂]
    rfl
  · have h₂ := hlast.entries
    rw [hlast.all hok₂ rfl, List.append_nil] at h₂
    exact h₂.trans hall

end Undo

section Requests
variable {h : Methods α} {granted : ℕ → Bool}

/-- The overflow brings its own nodes. -/
theorem requests_transferOverflow {overflow : List α} {dst dst' : Table α}
    (hrun : transferOverflow h dst overflow = .ok dst') : dst'.requests = dst.requests := by
  induction overflow generalizing dst with
  | nil =>
    cases hrun
    rfl
  | cons data rest ih =>
    rw [transferOverflow] at hrun
    obtain ⟨slot, -, hrest⟩ := ok_of_bind hrun
    split at hrest
    · have hsame := ih hrest
      exact hsame
    · have hsame := ih hrest
      exact hsame

theorem requests_allocateEntry (granted : ℕ → Bool) (t : Table α) :
    t.requests ≤ (allocateEntry granted t).2.requests ∧
      ((allocateEntry granted t).1 = false →
        Refused granted t.requests (allocateEntry granted t).2.requests) := by
  rw [allocateEntry]
  split
  · exact ⟨le_rfl, fun hno => by cases hno⟩
  · exact ⟨Nat.le_succ _, fun hno => ⟨t.requests, le_rfl, Nat.lt_succ_self _, hno⟩⟩

theorem requests_transferHead {data : α} {dst dst' : Table α} {ok : Bool}
    (hrun : transferHead h granted dst data = .ok (ok, dst')) : dst.requests ≤ dst'.requests ∧
      (ok = false → Refused granted dst.requests dst'.requests) := by
  rw [transferHead] at hrun
  obtain ⟨slot, -, hrest⟩ := ok_of_bind hrun
  have hnode := requests_allocateEntry granted dst
  split at hrest
  · rcases halloc : allocateEntry granted dst with ⟨had, node⟩
    rw [halloc] at hrest hnode
    cases had with
    | true =>
      cases hrest
      exact ⟨hnode.1, fun hno => by cases hno⟩
    | false =>
      cases hrest
      exact hnode
  · cases hrest
    exact ⟨le_rfl, fun hno => by cases hno⟩

/-- A transfer that stops was refused a node. -/
theorem requests_transferEntries {safe : Bool} {src : List (List α)} {dst : Table α}
    {done : Transferred α} (hrun : transferEntries h granted safe dst src = .ok done) :
    dst.requests ≤ done.dst.requests ∧
      (done.ok = false → Refused granted dst.requests done.dst.requests) := by
  induction src generalizing dst done with
  | nil =>
    cases hrun
    exact ⟨le_rfl, fun hno => by cases hno⟩
  | cons chain rest ih =>
    cases chain with
    | nil =>
      rw [transferEntries] at hrun
      obtain ⟨next, hnext, hdone⟩ := ok_of_bind hrun
      cases hdone
      have hmore := ih hnext
      exact hmore
    | cons head overflow =>
      rw [transferEntries] at hrun
      obtain ⟨dst₁, hover, hrest⟩ := ok_of_bind hrun
      have hsame := requests_transferOverflow hover
      split at hrest
      · obtain ⟨next, hnext, hdone⟩ := ok_of_bind hrest
        cases hdone
        have hmore := ih hnext
        rw [hsame] at hmore
        exact hmore
      · obtain ⟨⟨ok, dst₂⟩, hhead, hmore⟩ := ok_of_bind hrest
        obtain ⟨hle, hstop⟩ := requests_transferHead hhead
        rw [hsame] at hle hstop
        cases ok with
        | true =>
          obtain ⟨next, hnext, hdone⟩ := ok_of_bind hmore
          cases hdone
          obtain ⟨hle', hstop'⟩ := ih hnext
          exact ⟨hle.trans hle', fun hno => (hstop' hno).widen hle le_rfl⟩
        | false =>
          cases hmore
          exact ⟨hle, fun _ => hstop rfl⟩

theorem requests_undoTransfer {t t' : Table α} {done : Transferred α} {ok : Bool}
    (hrun : undoTransfer h granted t done = .ok (ok, t')) : done.dst.requests ≤ t'.requests := by
  rw [undoTransfer] at hrun
  obtain ⟨first, hfirst, hrest⟩ := ok_of_bind hrun
  split at hrest
  · obtain ⟨second, hsecond, hlast⟩ := ok_of_bind hrest
    split at hlast
    · cases hlast
      exact (requests_transferEntries hfirst).1.trans (requests_transferEntries hsecond).1
    · cases hlast
  · cases hrest

/-- A rehash that fails for want of memory was refused some. -/
theorem requests_hashRehash {tuning : Tuning} {t t' : Table α} {candidate : ℕ} {ok : Bool}
    (hrun : hashRehash h tuning granted t candidate = .ok (ok, t')) :
    t.requests ≤ t'.requests ∧ (ok = false →
      computeBucketSize tuning candidate = none ∨ Refused granted t.requests t'.requests) := by
  unfold hashRehash at hrun
  split at hrun
  · rename_i hsize
    cases hrun
    exact ⟨le_rfl, fun _ => Or.inl hsize⟩
  · split at hrun
    · cases hrun
      exact ⟨le_rfl, fun hno => by cases hno⟩
    · split at hrun
      · obtain ⟨done, hdone, hrest⟩ := ok_of_bind hrun
        obtain ⟨hle, hstop⟩ := requests_transferEntries hdone
        have hbefore : t.requests ≤ done.dst.requests := (Nat.le_succ _).trans hle
        split at hrest
        · cases hrest
          exact ⟨hbefore, fun hno => by cases hno⟩
        · rename_i hno
          have hafter := requests_undoTransfer hrest
          refine ⟨hbefore.trans hafter, fun _ => Or.inr ?_⟩
          exact (hstop (Bool.not_eq_true _ ▸ hno)).widen (Nat.le_succ _) hafter
      · rename_i hno
        cases hrun
        exact ⟨Nat.le_succ _, fun _ => Or.inr
          ⟨t.requests, le_rfl, Nat.lt_succ_self _, Bool.not_eq_true _ ▸ hno⟩⟩

end Requests

/-- Besides, no two entries are equivalent, and they are counted. -/
structure WellFormed (h : Methods α) (t : Table α) : Prop extends Arranged h t where
  distinct : t.entries.Pairwise (fun x y => h.comparator x y = false)
  nEntries : t.nEntries = t.entries.length

section Rehash
variable {h : Methods α} (hl : Lawful h)
include hl

theorem distinct_symm {x y : α} (hxy : h.comparator x y = false) : h.comparator y x = false := by
  rw [Bool.eq_false_iff] at hxy ⊢
  exact fun hyx => hxy (hl.symm y x hyx)

/-- Another arrangement of the same entries. -/
theorem WellFormed.rearranged {t t' : Table α} (hw : WellFormed h t) (ha : Arranged h t')
    (hperm : t'.entries.Perm t.entries) (hcount : t'.nEntries = t.nEntries) : WellFormed h t' :=
  ⟨ha, (hperm.pairwise_iff (fun hxy => distinct_symm hl hxy)).mpr hw.distinct,
    hcount.trans (hw.nEntries.trans hperm.length_eq.symm)⟩

omit hl in
theorem arranged_empty {n : ℕ} (hn : 0 < n) (nEntries free requests : ℕ) :
    Arranged h ⟨List.replicate n [], 0, nEntries, free, requests⟩ := by
  refine ⟨?_, ?_, (used_replicate n).symm⟩
  · change 0 < (List.replicate n []).length
    rw [List.length_replicate]
    exact hn
  · intro slot x hx
    change x ∈ (List.replicate n []).getD slot [] at hx
    rw [List.getD_eq_getElem?_getD, List.getElem?_getD_replicate_default_eq] at hx
    cases hx

omit hl in
theorem computeBucketSize_pos {tuning : Tuning} {candidate n : ℕ}
    (hn : computeBucketSize tuning candidate = some n) : 0 < n := by
  unfold computeBucketSize at hn
  split at hn
  · cases hn
  · rename_i scaled _
    split at hn
    · cases hn
    · cases hn
      have := (Primes.nextPrime_ge scaled).1
      omega

/-- Rehashing keeps every entry, also where memory runs out in the middle of it, and then the
table has its old size again. The code never has to give up. -/
theorem hashRehash_spec (tuning : Tuning) (granted : ℕ → Bool) {t : Table α}
    (hw : WellFormed h t) (candidate : ℕ) :
    ∃ ok t', hashRehash h tuning granted t candidate = .ok (ok, t') ∧ WellFormed h t' ∧
      t'.entries.Perm t.entries ∧
      (ok = true → computeBucketSize tuning candidate = some t'.nBuckets) ∧
      (ok = false → t'.nBuckets = t.nBuckets) := by
  unfold hashRehash
  cases hsize : computeBucketSize tuning candidate with
  | none => exact ⟨false, t, rfl, hw, List.Perm.refl _, nofun, fun _ => rfl⟩
  | some newSize =>
    have ha := arranged_empty (h := h) (computeBucketSize_pos hsize) 0 t.freeEntries
      (t.requests + 1)
    obtain ⟨done, hrun, hdone⟩ := transferEntries_spec hl granted false t.bucket ha
    dsimp only
    by_cases hsame : newSize = t.nBuckets
    · rw [if_pos hsame]
      exact ⟨true, t, rfl, hw, List.Perm.refl _, fun _ => congrArg some hsame, nofun⟩
    · rw [if_neg hsame]
      have hempty : (⟨List.replicate newSize [], 0, 0, t.freeEntries, t.requests + 1⟩ :
          Table α).entries = [] := List.flatten_replicate_nil
      by_cases hgrant : granted t.requests = true
      · rw [if_pos hgrant, hrun, ok_bind]
        cases hok : done.ok with
        | true =>
          have hperm := hdone.entries
          rw [hdone.all hok rfl, List.append_nil] at hperm
          rw [hempty, List.nil_append] at hperm
          have ha' : Arranged h { done.dst with nEntries := t.nEntries } :=
            ⟨hdone.arranged.size_pos, hdone.arranged.placed, hdone.arranged.counted⟩
          refine ⟨true, _, rfl, hw.rearranged hl ha' hperm rfl, hperm, ?_, nofun⟩
          intro _
          exact congrArg some ((hdone.size.trans List.length_replicate).symm)
        | false =>
          obtain ⟨t', hundo, ha', hsize', hcount, hperm⟩ :=
            undoTransfer_spec hl granted hw.toArranged hempty (used_replicate newSize) hdone
          exact ⟨false, t', hundo, hw.rearranged hl ha' hperm hcount, hperm, nofun,
            fun _ => hsize'⟩
      · rw [if_neg hgrant]
        exact ⟨false, _, rfl, hw.rearranged hl ⟨hw.size_pos, hw.placed, hw.counted⟩
          (List.Perm.refl _) rfl, List.Perm.refl _, nofun, fun _ => rfl⟩

end Rehash
end BinfmtSupport.Rehash
