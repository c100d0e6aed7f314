import BinfmtSupport.Rehash
import BinfmtSupport.Cursors

/-!
The operations on a hash table, as they are seen from outside: each of them is an operation
on the collection of the entries. A walk yields the entries bucket after bucket, and each
entry leads to the one behind it.
-/
namespace BinfmtSupport.Hashing

open HashTable Rehash Cursors

variable {α : Type} [DecidableEq α] {h : Methods α} (hl : Lawful h)
include hl

section Search

/-- A match is equivalent, also one by address. -/
theorem hits_eq (x y : α) : hits h x y = h.comparator x y := by
  unfold hits
  by_cases hxy : x = y
  · subst hxy
    simp [hl.refl x]
  · simp [hxy]

/-- All matches are in one bucket. -/
theorem find?_entries {t : Table α} (ha : Arranged h t) (entry : α) :
    t.entries.find? (hits h entry) =
      (t.chain (h.hasher entry t.nBuckets)).find? (hits h entry) := by
  obtain ⟨front, back, hlength, hsplit, -⟩ :=
    exists_split (hl.hasher_lt entry t.nBuckets ha.size_pos)
  have helsewhere : ∀ x, x ∈ front.flatten ∨ x ∈ back.flatten → ¬ hits h entry x = true := by
    intro x hx hmatch
    rw [hits_eq hl] at hmatch
    exact ha.elsewhere hlength hsplit x hx (hl.hasher_congr _ _ hmatch _).symm
  have hfront : front.flatten.find? (hits h entry) = none :=
    List.find?_eq_none.mpr (fun x hx => helsewhere x (Or.inl hx))
  have hback : back.flatten.find? (hits h entry) = none :=
    List.find?_eq_none.mpr (fun x hx => helsewhere x (Or.inr hx))
  have hentries : t.entries =
      front.flatten ++ (t.chain (h.hasher entry t.nBuckets) ++ back.flatten) := by
    rw [Table.entries, congrArg List.flatten hsplit, List.flatten_append, List.flatten_cons]
  rw [hentries, List.find?_append, List.find?_append, hfront, hback, Option.none_or,
    Option.or_none]

theorem hashLookup_spec {t : Table α} (ha : Arranged h t) (entry : α) :
    hashLookup h t entry = .ok (t.entries.find? (hits h entry)) := by
  rw [hashLookup, safeHasher_ok hl ha.size_pos, ok_bind, find?_entries hl ha]
  rfl

omit hl in
theorem scanOverflow_cases (entry : α) (overflow : List α) :
    (scanOverflow h entry overflow = none ∧ overflow.find? (hits h entry) = none) ∨
      ∃ data rest, scanOverflow h entry overflow = some (data, rest) ∧
        overflow.find? (hits h entry) = some data ∧ (data :: rest).Perm overflow ∧
        rest.Sublist overflow := by
  induction overflow with
  | nil => exact Or.inl ⟨rfl, rfl⟩
  | cons x overflow ih =>
    rw [scanOverflow, List.find?_cons]
    cases hx : hits h entry x with
    | true => exact Or.inr ⟨x, overflow, rfl, rfl, List.Perm.refl _, List.sublist_cons_self x _⟩
    | false =>
      rw [if_neg Bool.false_ne_true]
      rcases ih with ⟨hscan, hfind⟩ | ⟨data, rest, hscan, hfind, hperm, hsub⟩
      · exact Or.inl ⟨by rw [hscan]; rfl, hfind⟩
      · refine Or.inr ⟨data, x :: rest, by rw [hscan]; rfl, hfind, ?_, hsub.cons_cons x⟩
        exact (List.Perm.swap x data rest).trans (hperm.cons x)

theorem hashFindEntry_spec {t : Table α} (ha : Arranged h t) (entry : α) :
    hashFindEntry h t entry false =
      .ok (t.entries.find? (hits h entry), h.hasher entry t.nBuckets, t) := by
  rw [hashFindEntry, safeHasher_ok hl ha.size_pos, ok_bind, find?_entries hl ha]
  cases hchain : t.chain (h.hasher entry t.nBuckets) with
  | nil => rfl
  | cons head overflow =>
    dsimp only
    rw [List.find?_cons]
    cases hhead : hits h entry head with
    | true => rfl
    | false =>
      rw [if_neg Bool.false_ne_true]
      rcases scanOverflow_cases (h := h) entry overflow with
        ⟨hscan, hfind⟩ | ⟨data, rest, hscan, hfind, -⟩
      · rw [hscan, hfind]
        rfl
      · rw [hscan, hfind]
        rfl

end Search

section Insert
variable (tuning : Tuning) (granted : ℕ → Bool)

/-- On the way from one table to the other a request for memory was refused, or the first one
has to grow and there is no size for it. -/
def Exhausted (tuning : Tuning) (granted : ℕ → Bool) (t t' : Table α) : Prop :=
  Refused granted t.requests t'.requests ∨
    tuning.overGrowth t.nBucketsUsed t.nBuckets = true ∧
      (tuning.grown t.nBuckets).bind (computeBucketSize tuning) = none

/-- What an insertion can come to: a match, a new entry, or the same entries in a table that
has perhaps grown. -/
inductive Inserts (h : Methods α) (tuning : Tuning) (granted : ℕ → Bool) (t : Table α)
    (entry : α) : Inserted α → Table α → Prop
  | present {data : α} (hfind : t.entries.find? (hits h entry) = some data) :
      Inserts h tuning granted t entry (.present data) t
  | inserted {t' : Table α} (hfind : t.entries.find? (hits h entry) = none)
      (hperm : t'.entries.Perm (entry :: t.entries)) :
      Inserts h tuning granted t entry .inserted t'
  | failed {t' : Table α} (hfind : t.entries.find? (hits h entry) = none)
      (hperm : t'.entries.Perm t.entries) (hwhy : Exhausted tuning granted t t') :
      Inserts h tuning granted t entry .failed t'

def Resized (tuning : Tuning) (t t' : Table α) : Prop :=
  t'.nBuckets = t.nBuckets ∨ ∃ candidate, computeBucketSize tuning candidate = some t'.nBuckets

/-- An entry without a match comes to the others. -/
theorem WellFormed.add {t t' : Table α} (hw : WellFormed h t) {entry : α}
    (hfind : t.entries.find? (hits h entry) = none) (ha : Arranged h t')
    (hperm : t'.entries.Perm (entry :: t.entries)) (hcount : t'.nEntries = t.nEntries + 1) :
    WellFormed h t' := by
  refine ⟨ha, ?_, ?_⟩
  · rw [hperm.pairwise_iff (fun hxy => distinct_symm hl hxy), List.pairwise_cons]
    refine ⟨?_, hw.distinct⟩
    intro x hx
    rw [← hits_eq hl]
    exact Bool.eq_false_iff.mpr (List.find?_eq_none.mp hfind x hx)
  · rw [hcount, hw.nEntries, hperm.length_eq, List.length_cons]

theorem placeEntry_spec (tuning : Tuning) {t : Table α} (hw : WellFormed h t) {entry : α}
    (hfind : t.entries.find? (hits h entry) = none) :
    ∃ result t', placeEntry granted t entry (h.hasher entry t.nBuckets) = (result, t') ∧
      WellFormed h t' ∧ Inserts h tuning granted t entry result t' ∧ t'.nBuckets = t.nBuckets ∧
      (result = .failed → Refused granted t.requests t'.requests) := by
  have hfailed : ∀ requests free, WellFormed h { t with
      freeEntries := free, requests := requests } :=
    fun _ _ => hw.rearranged hl ⟨hw.size_pos, hw.placed, hw.counted⟩ (List.Perm.refl _) rfl
  rw [placeEntry]
  cases hchain : t.chain (h.hasher entry t.nBuckets) with
  | nil =>
    obtain ⟨ha, hperm, -⟩ := hw.toArranged.asHead hl hchain
    exact ⟨.inserted, _, rfl, WellFormed.add hl hw hfind ⟨ha.size_pos, ha.placed, ha.counted⟩
      hperm rfl, .inserted hfind hperm, nBuckets_setChain t _ _, nofun⟩
  | cons head more =>
    obtain ⟨ha, hperm, -⟩ := hw.toArranged.behind hl hchain
    have hadd : ∀ requests free, WellFormed h
        { t.setChain (h.hasher entry t.nBuckets) (head :: entry :: more) with
          nEntries := t.nEntries + 1, freeEntries := free, requests := requests } :=
      fun _ _ => WellFormed.add hl hw hfind ⟨ha.size_pos, ha.placed, ha.counted⟩ hperm rfl
    dsimp only
    cases hfree : t.freeEntries with
    | succ free =>
      simp only [allocateEntry, hfree, if_true]
      exact ⟨_, _, rfl, hadd t.requests free, .inserted hfind hperm, nBuckets_setChain t _ _,
        nofun⟩
    | zero =>
      cases hgrant : granted t.requests with
      | true =>
        simp only [allocateEntry, hfree, hgrant, if_true]
        exact ⟨_, _, rfl, hadd (t.requests + 1) 0, .inserted hfind hperm,
          nBuckets_setChain t _ _, nofun⟩
      | false =>
        have hrefused : Refused granted t.requests (t.requests + 1) :=
          ⟨t.requests, le_rfl, Nat.lt_succ_self _, hgrant⟩
        simp only [allocateEntry, hfree, hgrant, Bool.false_eq_true, if_false]
        exact ⟨_, _, rfl, hfailed (t.requests + 1) 0,
          .failed hfind (List.Perm.refl _) (Or.inl hrefused), rfl, fun _ => hrefused⟩

omit hl in
/-- Another arrangement of the entries has the same matches. -/
theorem find?_perm {t t' : Table α} (hperm : t'.entries.Perm t.entries) {entry : α}
    (hfind : t.entries.find? (hits h entry) = none) :
    t'.entries.find? (hits h entry) = none := by
  rw [List.find?_eq_none] at hfind ⊢
  exact fun x hx => hfind x (hperm.subset hx)

theorem hashInsertIfAbsent_spec {t : Table α} (hw : WellFormed h t) (entry : α) :
    ∃ result t', hashInsertIfAbsent h tuning granted t entry = .ok (result, t') ∧
      WellFormed h t' ∧ Inserts h tuning granted t entry result t' ∧ Resized tuning t t' := by
  rw [hashInsertIfAbsent, hashFindEntry_spec hl hw.toArranged, ok_bind]
  cases hfind : t.entries.find? (hits h entry) with
  | some data => exact ⟨_, t, rfl, hw, .present hfind, Or.inl rfl⟩
  | none =>
    dsimp only
    by_cases hgrow : tuning.overGrowth t.nBucketsUsed t.nBuckets = true
    · rw [if_pos hgrow]
      cases hgrown : tuning.grown t.nBuckets with
      | none =>
        exact ⟨_, t, rfl, hw, .failed hfind (List.Perm.refl _)
          (Or.inr ⟨hgrow, by rw [hgrown]; rfl⟩), Or.inl rfl⟩
      | some candidate =>
        obtain ⟨ok, t₁, hrun, hw₁, hperm₁, hnew, hold⟩ :=
          hashRehash_spec hl tuning granted hw candidate
        obtain ⟨hbefore, hwhy⟩ := requests_hashRehash hrun
        dsimp only
        rw [hrun, ok_bind]
        cases ok with
        | false =>
          refine ⟨_, t₁, rfl, hw₁, .failed hfind hperm₁ ?_, Or.inl (hold rfl)⟩
          rcases hwhy rfl with hnone | hrefused
          · exact Or.inr ⟨hgrow, by rw [hgrown]; exact hnone⟩
          · exact Or.inl hrefused
        | true =>
          have hfind₁ := find?_perm hperm₁ hfind
          obtain ⟨result, t', hplace, hw', hins, hsize, hstop⟩ :=
            placeEntry_spec hl granted tuning hw₁ hfind₁
          refine ⟨result, t', ?_, hw', ?_, Or.inr ⟨candidate, by rw [hsize]; exact hnew rfl⟩⟩
          · simp only [if_true, hashFindEntry_spec hl hw₁.toArranged, ok_bind, hfind₁, hplace]
            rfl
          · cases hins with
            | present h₁ =>
              rw [hfind₁] at h₁
              cases h₁
            | inserted _ hperm => exact .inserted hfind (hperm.trans (hperm₁.cons entry))
            | failed _ hperm _ =>
              exact .failed hfind (hperm.trans hperm₁) (Or.inl ((hstop rfl).widen hbefore le_rfl))
    · rw [if_neg hgrow]
      obtain ⟨result, t', hplace, hw', hins, hsize, -⟩ := placeEntry_spec hl granted tuning hw hfind
      exact ⟨result, t', congrArg Except.ok hplace, hw', hins, Or.inl hsize⟩

end Insert

section Delete
variable (tuning : Tuning) (granted : ℕ → Bool)

omit hl [DecidableEq α] in
/-- One entry is taken out of its bucket. -/
theorem shortened {t : Table α} (ha : Arranged h t) {slot : ℕ} (hslot : slot < t.nBuckets)
    {data : α} {rest : List α} (hperm : (data :: rest).Perm (t.chain slot)) :
    (∀ i, ∀ x ∈ (t.setChain slot rest).chain i, h.hasher x t.nBuckets = i) ∧
      (data :: (t.setChain slot rest).entries).Perm t.entries ∧
      used (t.setChain slot rest).bucket + (if rest = [] then 1 else 0) = used t.bucket := by
  obtain ⟨front, back, -, hsplit, hset⟩ := exists_split hslot
  refine ⟨?_, ?_, ?_⟩
  · intro i x hx
    rw [chain_setChain hslot] at hx
    split at hx
    · rename_i heq
      rw [heq]
      exact ha.placed slot x (hperm.subset (List.mem_cons_of_mem data hx))
    · exact ha.placed i x hx
  · rw [Table.entries, Table.entries, Table.setChain, hset, congrArg List.flatten hsplit]
    simp only [List.flatten_append, List.flatten_cons]
    exact (List.perm_middle.symm).trans (((hperm.append_right _)).append_left _)
  · rw [Table.setChain, hset, congrArg used hsplit, used_append, used_append]
    cases hchain : t.chain slot with
    | nil =>
      rw [hchain] at hperm
      have := hperm.length_eq
      rw [List.length_cons, List.length_nil] at this
      omega
    | cons head more =>
      rw [used_cons_cons]
      cases rest with
      | nil =>
        rw [used_cons_nil, if_pos rfl]
        omega
      | cons x rest =>
        rw [used_cons_cons, if_neg (List.cons_ne_nil x rest)]
        omega

/-- A match is unlinked from its bucket. -/
theorem hashFindEntry_delete {t : Table α} (ha : Arranged h t) (entry : α) :
    (t.entries.find? (hits h entry) = none ∧
      hashFindEntry h t entry true = .ok (none, h.hasher entry t.nBuckets, t)) ∨
    ∃ data rest free, t.entries.find? (hits h entry) = some data ∧
      hashFindEntry h t entry true = .ok (some data, h.hasher entry t.nBuckets,
        { t.setChain (h.hasher entry t.nBuckets) rest with freeEntries := free }) ∧
      (data :: rest).Perm (t.chain (h.hasher entry t.nBuckets)) := by
  rw [hashFindEntry, safeHasher_ok hl ha.size_pos, ok_bind, find?_entries hl ha]
  cases hchain : t.chain (h.hasher entry t.nBuckets) with
  | nil => exact Or.inl ⟨rfl, rfl⟩
  | cons head overflow =>
    dsimp only
    rw [List.find?_cons]
    cases hhead : hits h entry head with
    | true =>
      rw [if_pos rfl, if_pos rfl]
      cases overflow with
      | nil => exact Or.inr ⟨head, [], t.freeEntries, rfl, rfl, List.Perm.refl _⟩
      | cons x more =>
        exact Or.inr ⟨head, x :: more, t.freeEntries + 1, rfl, rfl, List.Perm.refl _⟩
    | false =>
      rw [if_neg Bool.false_ne_true]
      rcases scanOverflow_cases (h := h) entry overflow with
        ⟨hscan, hfind⟩ | ⟨data, rest, hscan, hfind, hperm, -⟩
      · rw [hscan]
        exact Or.inl ⟨hfind, rfl⟩
      · rw [hscan]
        refine Or.inr ⟨data, head :: rest, t.freeEntries + 1, hfind, rfl, ?_⟩
        exact (List.Perm.swap head data rest).trans (hperm.cons head)

omit [DecidableEq α] in
/-- The table without an entry of one bucket, where the buckets in use are counted anew. -/
theorem wellFormed_shortened {t : Table α} (hw : WellFormed h t) {slot : ℕ}
    (hslot : slot < t.nBuckets) {data : α} {rest : List α}
    (hperm : (data :: rest).Perm (t.chain slot)) {count free requests : ℕ}
    (hcount : count = used (t.setChain slot rest).bucket) :
    WellFormed h ⟨(t.setChain slot rest).bucket, count, t.nEntries - 1, free, requests⟩ := by
  obtain ⟨hplaced, hentries, -⟩ := shortened hw.toArranged hslot hperm
  have hsize : (t.setChain slot rest).bucket.length = t.nBuckets := nBuckets_setChain t _ _
  refine ⟨⟨?_, ?_, hcount⟩, ?_, ?_⟩
  · exact Nat.lt_of_lt_of_eq hw.size_pos hsize.symm
  · intro i x hx
    exact (congrArg (h.hasher x) hsize).trans (hplaced i x hx)
  · have hall := (hentries.pairwise_iff (fun hxy => distinct_symm hl hxy)).mpr hw.distinct
    exact (List.pairwise_cons.mp hall).2
  · have hlength := hentries.length_eq
    rw [List.length_cons] at hlength
    change t.nEntries - 1 = (t.setChain slot rest).entries.length
    rw [hw.nEntries]
    omega

omit [DecidableEq α] in
/-- Where shrinking fails the table stays, and gives its spare nodes back. -/
theorem shrink_spec {t : Table α} (hw : WellFormed h t) : ∃ ok t',
    hashRehash h tuning granted t (tuning.shrunk t.nBuckets) = .ok (ok, t') ∧
      ∀ t'', t'' = (if ok then t' else { t' with freeEntries := 0 }) →
        WellFormed h t'' ∧ Resized tuning t t'' ∧ t''.entries.Perm t.entries := by
  obtain ⟨ok, t', hrehash, hw', hperm, hnew, hold⟩ :=
    hashRehash_spec hl tuning granted hw (tuning.shrunk t.nBuckets)
  refine ⟨ok, t', hrehash, ?_⟩
  rintro _ rfl
  cases ok with
  | true => exact ⟨hw', Or.inr ⟨_, hnew rfl⟩, hperm⟩
  | false =>
    refine ⟨?_, Or.inl (hold rfl), hperm⟩
    exact hw'.rearranged hl ⟨hw'.size_pos, hw'.placed, hw'.counted⟩ (List.Perm.refl _) rfl

/-- The match goes and the other entries stay, whether or not the table shrinks. -/
theorem hashDelete_spec {t : Table α} (hw : WellFormed h t) (entry : α) :
    ∃ t', hashDelete h tuning granted t entry = .ok (t.entries.find? (hits h entry), t') ∧
      WellFormed h t' ∧ Resized tuning t t' ∧
      (t.entries.find? (hits h entry) = none → t' = t) ∧
      ∀ data, t.entries.find? (hits h entry) = some data →
        (data :: t'.entries).Perm t.entries := by
  rw [hashDelete]
  rcases hashFindEntry_delete hl hw.toArranged entry with
    ⟨hfind, hrun⟩ | ⟨data, rest, free, hfind, hrun, hperm⟩
  · rw [hrun, ok_bind, hfind]
    exact ⟨t, rfl, hw, Or.inl rfl, fun _ => rfl, nofun⟩
  · have hslot := hl.hasher_lt entry t.nBuckets hw.size_pos
    obtain ⟨-, hentries, hused⟩ := shortened hw.toArranged hslot hperm
    have hcounted := hw.counted
    have hsize := nBuckets_setChain t (h.hasher entry t.nBuckets) rest
    rw [hrun, ok_bind, hfind]
    have hchain : (t.setChain (h.hasher entry t.nBuckets) rest).chain
        (h.hasher entry t.nBuckets) = rest := by
      rw [chain_setChain hslot, if_pos rfl]
    dsimp only
    split
    · rename_i x more heq
      have hrest : rest = x :: more := hchain.symm.trans heq
      rw [if_neg (by rw [hrest]; exact List.cons_ne_nil x more)] at hused
      have hcount : t.nBucketsUsed =
          used (t.setChain (h.hasher entry t.nBuckets) rest).bucket := by omega
      refine ⟨_, rfl, wellFormed_shortened hl hw hslot hperm hcount, Or.inl hsize, nofun, ?_⟩
      intro data' hdata
      cases hdata
      exact hentries
    · rename_i heq
      have hrest : rest = [] := hchain.symm.trans heq
      rw [if_pos hrest] at hused
      have hcount : t.nBucketsUsed - 1 =
          used (t.setChain (h.hasher entry t.nBuckets) rest).bucket := by omega
      have hw' : WellFormed h ⟨(t.setChain (h.hasher entry t.nBuckets) rest).bucket,
          t.nBucketsUsed - 1, t.nEntries - 1, free, t.requests⟩ :=
        wellFormed_shortened hl hw hslot hperm hcount
      split
      · obtain ⟨ok, t', hrehash, hgiven⟩ := shrink_spec hl tuning granted hw'
        obtain ⟨hw'', hresized, hperm'⟩ := hgiven _ rfl
        refine ⟨if ok then t' else { t' with freeEntries := 0 }, ?_, hw'', ?_, nofun, ?_⟩
        · exact (congrArg (fun ran => ran >>= _) hrehash).trans rfl
        · exact hresized.imp_left (fun hsame => hsame.trans hsize)
        · intro data' hdata
          cases hdata
          exact (hperm'.cons data).trans hentries
      · refine ⟨_, rfl, hw', Or.inl hsize, nofun, ?_⟩
        intro data' hdata
        cases hdata
        exact hentries

end Delete

section Walk

omit [DecidableEq α] in
theorem entries_nodup {t : Table α} (hw : WellFormed h t) : t.entries.Nodup := by
  refine hw.distinct.imp ?_
  rintro x y hxy rfl
  rw [hl.refl x] at hxy
  cases hxy

omit hl [DecidableEq α] in
theorem firstHead_eq (bucket : List (List α)) : firstHead bucket = bucket.flatten.head? := by
  induction bucket with
  | nil => rfl
  | cons chain rest ih =>
    cases chain with
    | nil => exact ih
    | cons data overflow => rfl

omit hl in
theorem nextInChain_eq {entry : α} {front back : List α} (hnew : entry ∉ front) :
    nextInChain entry (front ++ entry :: back) = back.head? := by
  induction front with
  | nil =>
    cases back with
    | nil => rfl
    | cons next rest =>
      rw [List.nil_append, nextInChain, if_pos rfl]
      rfl
  | cons x front ih =>
    rw [List.mem_cons, not_or] at hnew
    have hnext := ih hnew.2
    cases front with
    | nil =>
      rw [List.cons_append, List.nil_append, nextInChain, if_neg (Ne.symm hnew.1)]
      exact hnext
    | cons y front =>
      rw [List.cons_append, List.cons_append, nextInChain, if_neg (Ne.symm hnew.1)]
      exact hnext

omit hl [DecidableEq α] in
theorem hashGetFirst_spec {t : Table α} (hw : WellFormed h t) :
    hashGetFirst t = .ok t.entries.head? := by
  unfold hashGetFirst
  rw [firstHead_eq, hw.nEntries, ← Table.entries]
  cases t.entries with
  | nil => rfl
  | cons data rest => rfl

/-- The next entry is the one behind, also where another bucket begins. -/
theorem hashGetNext_spec {t : Table α} (hw : WellFormed h t) {entry : α}
    (hmem : entry ∈ t.entries) : hashGetNext h t entry = .ok (behind t.entries entry) := by
  obtain ⟨front, back, hlength, hsplit, -⟩ :=
    exists_split (hl.hasher_lt entry t.nBuckets hw.size_pos)
  have hentries : t.entries =
      front.flatten ++ (t.chain (h.hasher entry t.nBuckets) ++ back.flatten) := by
    rw [Table.entries, congrArg List.flatten hsplit, List.flatten_append, List.flatten_cons]
  have hchain : entry ∈ t.chain (h.hasher entry t.nBuckets) := by
    rw [hentries, List.mem_append, List.mem_append] at hmem
    rcases hmem with hfront | hmem | hback
    · exact absurd rfl (hw.elsewhere hlength hsplit entry (Or.inl hfront))
    · exact hmem
    · exact absurd rfl (hw.elsewhere hlength hsplit entry (Or.inr hback))
  obtain ⟨before, after, hsplit'⟩ := List.append_of_mem hchain
  have hnodup := entries_nodup hl hw
  rw [hentries, hsplit', List.append_assoc, ← List.append_assoc, List.cons_append] at hnodup
  have hnew : entry ∉ front.flatten ++ before := by
    intro hin
    exact (List.nodup_append.mp hnodup).2.2 entry hin entry List.mem_cons_self rfl
  have hbehind : behind t.entries entry = (after ++ back.flatten).head? := by
    rw [hentries, hsplit', List.append_assoc, ← List.append_assoc, List.cons_append]
    exact behind_append hnew
  have hdrop : t.bucket.drop (h.hasher entry t.nBuckets + 1) = back := by
    rw [hsplit, ← hlength, List.drop_append, List.drop_of_length_le (by omega)]
    simp
  rw [hashGetNext, safeHasher_ok hl hw.size_pos, ok_bind, hbehind, hsplit',
    nextInChain_eq (fun hin => hnew (List.mem_append_right _ hin)), hdrop, firstHead_eq]
  cases after with
  | nil => rfl
  | cons next rest => rfl

end Walk
end BinfmtSupport.Hashing
