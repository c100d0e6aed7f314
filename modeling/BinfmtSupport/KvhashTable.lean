import BinfmtSupport.Hashing
import BinfmtSupport.Kvhash
import BinfmtSupport.CText

/-!
The key/value tables of kvhash.c, on top of the hash tables: the elements are hashed and
compared by their keys. Any sequence of operations on a new table gives the answers that the
table of first insertions gives, whatever the tuning does and whichever requests for memory
are refused. A loop over a table comes to every element once.
-/
namespace BinfmtSupport.KvhashTable

open CText Primes HashTable Rehash Hashing Cursors

/-- A key and what it points to, where NULL is no value. -/
structure Kvelem (α : Type) where
  key : Text
  value : Option α
deriving DecidableEq

inductive Stop
  | abort (site : Abort)
  | xallocDie
deriving DecidableEq

section Source
variable {α : Type}

/-- `value * 31 + ch` wraps around before it is reduced. -/
def hashString (string : Text) (nBuckets : ℕ) : ℕ :=
  string.foldl (fun value ch => (value * 31 + ch.toNat) % 2 ^ 64 % nBuckets) 0

def kvhashHasher (data : Kvelem α) (n : ℕ) : ℕ := hashString data.key n

def kvhashComparator (a b : Kvelem α) : Bool := a.key = b.key

def kvMethods : Methods (Kvelem α) := ⟨kvhashHasher, kvhashComparator⟩

variable [DecidableEq α] (tuning : Tuning) (granted : ℕ → Bool)

def kvhashInitialize (candidate : ℕ) : Option (Table (Kvelem α)) :=
  hashInitialize tuning granted candidate

def kvhashExists (t : Table (Kvelem α)) (key : Text) : Except Stop Bool := do
  let found ← (hashLookup kvMethods t ⟨key, none⟩).mapError .abort
  return found.isSome

def kvhashLookup (t : Table (Kvelem α)) (key : Text) : Except Stop (Option α) := do
  let found ← (hashLookup kvMethods t ⟨key, none⟩).mapError .abort
  return found.bind Kvelem.value

def xmalloc (t : Table (Kvelem α)) : Except Stop (Table (Kvelem α)) :=
  if granted t.requests then .ok { t with requests := t.requests + 1 } else .error .xallocDie

/-- The element and the copy of its key come first. -/
def kvhashInsert (t : Table (Kvelem α)) (key : Text) (value : Option α) :
    Except Stop (Option α × Table (Kvelem α)) := do
  let t ← xmalloc granted t
  let t ← xmalloc granted t
  let (ret, t) ← (hashInsert kvMethods tuning granted t ⟨key, value⟩).mapError .abort
  return (ret.bind Kvelem.value, t)

def kvhashDelete (t : Table (Kvelem α)) (key : Text) :
    Except Stop (Option α × Table (Kvelem α)) := do
  let (deleted, t) ← (hashDelete kvMethods tuning granted t ⟨key, none⟩).mapError .abort
  return (deleted.bind Kvelem.value, t)

/-- The rest of a loop from an element on, if there is time for it. -/
def forEachFrom (t : Table (Kvelem α)) :
    ℕ → Option (Kvelem α) → Except Stop (Option (List (Kvelem α)))
  | _, none => return some []
  | 0, some _ => return none
  | fuel + 1, some iter => do
      let next ← (hashGetNext kvMethods t iter).mapError .abort
      let rest ← forEachFrom t fuel next
      return rest.map (fun rest => iter :: rest)

/-- HASH_FOR_EACH -/
def hashForEach (fuel : ℕ) (t : Table (Kvelem α)) : Except Stop (Option (List (Kvelem α))) := do
  let first ← (hashGetFirst t).mapError .abort
  forEachFrom t fuel first

end Source

inductive Op (α : Type)
  | hasKey (key : Text)
  | lookup (key : Text)
  | insert (key : Text) (value : Option α)
  | delete (key : Text)
  | getNEntries

inductive Reply (α : Type)
  | truth (b : Bool)
  | value (v : Option α)
  | number (n : ℕ)
deriving DecidableEq

section Operations
variable {α : Type} [DecidableEq α] (tuning : Tuning) (granted : ℕ → Bool)

def perform (t : Table (Kvelem α)) : Op α → Except Stop (Reply α × Table (Kvelem α))
  | .hasKey key => do
      let b ← kvhashExists t key
      return (.truth b, t)
  | .lookup key => do
      let v ← kvhashLookup t key
      return (.value v, t)
  | .insert key value => do
      let (v, t) ← kvhashInsert tuning granted t key value
      return (.value v, t)
  | .delete key => do
      let (v, t) ← kvhashDelete tuning granted t key
      return (.value v, t)
  | .getNEntries => return (.number t.nEntries, t)

def performAll : Table (Kvelem α) → List (Op α) →
    Except Stop (List (Reply α) × Table (Kvelem α))
  | t, [] => return ([], t)
  | t, op :: ops => do
      let (reply, t) ← perform tuning granted t op
      let (replies, t) ← performAll t ops
      return (reply :: replies, t)

end Operations

section Abstract
variable {α : Type} [DecidableEq α] (tuning : Tuning) (granted : ℕ → Bool)

/-- What an operation that leads from one hash table to another comes to on the table of first
insertions, where NULL is a value like others. -/
inductive Serves (t t' : Table (Kvelem α)) (m : Kvhash.Table Text (Option α)) :
    Op α → Reply α → Kvhash.Table Text (Option α) → Prop
  | hasKey (key : Text) : Serves t t' m (.hasKey key) (.truth (Kvhash.kvhashExists m key)) m
  | lookup (key : Text) :
      Serves t t' m (.lookup key) (.value (Kvhash.kvhashLookup m key).join) m
  | insert (key : Text) (value : Option α) :
      Serves t t' m (.insert key value) (.value ((Kvhash.kvhashLookup m key).getD value))
        (Kvhash.kvhashInsert m key value)
  | refused (key : Text) (value : Option α) (hnew : Kvhash.kvhashExists m key = false)
      (hwhy : Exhausted tuning granted t t') : Serves t t' m (.insert key value) (.value none) m
  | delete (key : Text) :
      Serves t t' m (.delete key) (.value (Kvhash.kvhashLookup m key).join)
        (Kvhash.kvhashDelete m key)
  | getNEntries : Serves t t' m .getNEntries (.number m.keys.length) m

inductive ServesAll : Table (Kvelem α) → Kvhash.Table Text (Option α) → List (Op α) →
    List (Reply α) → Table (Kvelem α) → Kvhash.Table Text (Option α) → Prop
  | nil (t : Table (Kvelem α)) (m : Kvhash.Table Text (Option α)) : ServesAll t m [] [] t m
  | cons {t t₁ t₂ : Table (Kvelem α)} {m m₁ m₂ : Kvhash.Table Text (Option α)} {op : Op α}
      {reply : Reply α} {ops : List (Op α)} {replies : List (Reply α)}
      (hrun : perform tuning granted t op = .ok (reply, t₁))
      (hop : Serves tuning granted t t₁ m op reply m₁)
      (hops : ServesAll t₁ m₁ ops replies t₂ m₂) :
      ServesAll t m (op :: ops) (reply :: replies) t₂ m₂

/-- The operations are served up to an insertion, and one of its first two requests for memory,
those for the element and the copy of its key, is refused. -/
def DiesAt (t : Table (Kvelem α)) (m : Kvhash.Table Text (Option α)) (ops : List (Op α)) : Prop :=
  ∃ before key value after replies t' m', ops = before ++ .insert key value :: after ∧
    ServesAll tuning granted t m before replies t' m' ∧
    (granted t'.requests = false ∨ granted (t'.requests + 1) = false)

end Abstract

section Lawfulness
variable {α : Type}

theorem hashString_lt {nBuckets : ℕ} (hn : 0 < nBuckets) (string : Text) :
    hashString string nBuckets < nBuckets := by
  unfold hashString
  induction string using List.reverseRecOn with
  | nil => exact hn
  | append_singleton string ch ih =>
    rw [List.foldl_append]
    exact Nat.mod_lt _ hn

theorem kvhashComparator_iff (a b : Kvelem α) : kvhashComparator a b = true ↔ a.key = b.key :=
  decide_eq_true_iff

/-- The methods are what hash.c asks for. -/
theorem lawful_kvMethods : Lawful (kvMethods (α := α)) where
  hasher_lt x _ hn := hashString_lt hn x.key
  hasher_congr x y hxy n :=
    congrArg (fun key => hashString key n) ((kvhashComparator_iff x y).mp hxy)
  refl x := (kvhashComparator_iff x x).mpr rfl
  symm x y hxy := (kvhashComparator_iff y x).mpr ((kvhashComparator_iff x y).mp hxy).symm
  trans x y z hxy hyz := (kvhashComparator_iff x z).mpr
    (((kvhashComparator_iff x y).mp hxy).trans ((kvhashComparator_iff y z).mp hyz))

end Lawfulness

section Sizes
variable {tuning : Tuning}

/-- What compute_bucket_size promises of the number of buckets. -/
def GoodSize (n : ℕ) : Prop := n.Prime ∧ 11 ≤ n ∧ n ≤ sizeMax / 8

theorem goodSize_of_computed {candidate n : ℕ} (h : computeBucketSize tuning candidate = some n) :
    GoodSize n := by
  unfold computeBucketSize at h
  split at h
  · cases h
  · rename_i scaled _
    split at h
    · cases h
    · rename_i hsmall
      obtain rfl := Option.some.inj h
      have hge := nextPrime_ge scaled
      have hbound : scaled < 2 ^ 62 := by
        unfold sizeMax at hsmall
        omega
      exact ⟨(nextPrime_least scaled hbound).1, hge.1, Nat.le_of_not_gt hsmall⟩

theorem Resized.goodSize {α : Type} {t t' : Table α} (h : Resized tuning t t')
    (hgood : GoodSize t.nBuckets) : GoodSize t'.nBuckets := by
  rcases h with hsame | ⟨candidate, hnew⟩
  · rw [hsame]
    exact hgood
  · exact goodSize_of_computed hnew

end Sizes

section Simulation
variable {α : Type} [DecidableEq α] {tuning : Tuning} {granted : ℕ → Bool}

/-- A hash table and the abstract table that it stands for. -/
structure Represents (t : Table (Kvelem α)) (m : Kvhash.Table Text (Option α)) : Prop where
  wellFormed : WellFormed kvMethods t
  size : GoodSize t.nBuckets
  contents : ∀ e, e ∈ t.entries ↔ Kvhash.kvhashLookup m e.key = some e.value

namespace Represents
variable {t : Table (Kvelem α)} {m : Kvhash.Table Text (Option α)}

theorem find_eq (hrep : Represents t m) (key : Text) (value : Option α) :
    t.entries.find? (hits kvMethods ⟨key, value⟩) =
      (Kvhash.kvhashLookup m key).map (fun old => ⟨key, old⟩) := by
  have hmatch : ∀ e, hits kvMethods ⟨key, value⟩ e = true ↔ key = e.key := by
    intro e
    rw [hits_eq lawful_kvMethods]
    exact kvhashComparator_iff _ e
  cases hfind : t.entries.find? (hits kvMethods ⟨key, value⟩) with
  | none =>
    rw [List.find?_eq_none] at hfind
    cases hlook : Kvhash.kvhashLookup m key with
    | none => rfl
    | some old =>
      have hmem : (⟨key, old⟩ : Kvelem α) ∈ t.entries := (hrep.contents _).mpr hlook
      exact absurd ((hmatch _).mpr rfl) (hfind _ hmem)
  | some e =>
    obtain rfl := (hmatch e).mp (List.find?_some hfind)
    rw [(hrep.contents e).mp (List.mem_of_find?_eq_some hfind)]
    rfl

omit [DecidableEq α] in
theorem keys_perm (hrep : Represents t m) : (t.entries.map Kvelem.key).Perm m.keys := by
  refine (List.perm_ext_iff_of_nodup ?_ m.keys_nodup).mpr ?_
  · refine List.pairwise_map.mpr (hrep.wellFormed.distinct.imp ?_)
    intro a b hab hkey
    have := (kvhashComparator_iff a b).mpr hkey
    rw [show kvhashComparator a b = false from hab] at this
    cases this
  · intro key
    have hkeys : key ∈ m.keys ↔ (Kvhash.kvhashLookup m key).isSome = true :=
      AList.lookup_isSome.symm
    rw [hkeys, Option.isSome_iff_exists, List.mem_map]
    constructor
    · rintro ⟨e, he, rfl⟩
      exact ⟨e.value, (hrep.contents e).mp he⟩
    · rintro ⟨value, hlook⟩
      exact ⟨⟨key, value⟩, (hrep.contents _).mpr hlook, rfl⟩

omit [DecidableEq α] in
theorem nEntries_eq (hrep : Represents t m) : t.nEntries = m.keys.length := by
  rw [hrep.wellFormed.nEntries, ← hrep.keys_perm.length_eq, List.length_map]

omit [DecidableEq α] in
/-- Requests for memory that are granted change no entry. -/
theorem requested (hrep : Represents t m) (requests : ℕ) :
    Represents { t with requests := requests } m :=
  ⟨hrep.wellFormed.rearranged lawful_kvMethods
    ⟨hrep.wellFormed.size_pos, hrep.wellFormed.placed, hrep.wellFormed.counted⟩
    (List.Perm.refl _) rfl, hrep.size, hrep.contents⟩

theorem exists_spec (hrep : Represents t m) (key : Text) :
    kvhashExists t key = .ok (Kvhash.kvhashExists m key) := by
  rw [kvhashExists, hashLookup_spec lawful_kvMethods hrep.wellFormed.toArranged,
    hrep.find_eq key none, Kvhash.kvhashExists_eq]
  cases Kvhash.kvhashLookup m key <;> rfl

theorem lookup_spec (hrep : Represents t m) (key : Text) :
    kvhashLookup t key = .ok (Kvhash.kvhashLookup m key).join := by
  rw [kvhashLookup, hashLookup_spec lawful_kvMethods hrep.wellFormed.toArranged,
    hrep.find_eq key none]
  cases Kvhash.kvhashLookup m key <;> rfl

end Represents

section Operations

omit [DecidableEq α] in
theorem represents_of_new {candidate : ℕ} {t : Table (Kvelem α)}
    (h : kvhashInitialize tuning granted candidate = some t) : Represents t ∅ := by
  unfold kvhashInitialize hashInitialize at h
  split at h
  · split at h
    · cases h
    · rename_i n hsize
      split at h
      · obtain rfl := Option.some.inj h
        have hgood := goodSize_of_computed hsize
        have hlength : (⟨List.replicate n [], 0, 0, 0, 2⟩ : Table (Kvelem α)).nBuckets = n :=
          List.length_replicate
        have hentries : (⟨List.replicate n [], 0, 0, 0, 2⟩ : Table (Kvelem α)).entries = [] := by
          simp [Table.entries]
        refine ⟨⟨arranged_empty (by have := hgood.2.1; omega) 0 0 2, ?_, ?_⟩, ?_, ?_⟩
        · rw [hentries]
          exact List.Pairwise.nil
        · rw [hentries]
          rfl
        · rw [hlength]
          exact hgood
        · intro e
          rw [hentries, Kvhash.kvhashLookup_empty]
          simp
      · cases h
  · cases h

variable {t : Table (Kvelem α)} {m : Kvhash.Table Text (Option α)}

omit [DecidableEq α] in
/-- With a new key, an element is the new one or an old one. -/
theorem inserted_iff {key : Text} (hnew : Kvhash.kvhashLookup m key = none) (value : Option α)
    (e : Kvelem α) : (e = ⟨key, value⟩ ∨ Kvhash.kvhashLookup m e.key = some e.value) ↔
      Kvhash.kvhashLookup (Kvhash.kvhashInsert m key value) e.key = some e.value := by
  by_cases hkey : e.key = key
  · rw [hkey, Kvhash.kvhashLookup_insert, hnew]
    constructor
    · rintro (rfl | hold)
      · rfl
      · cases hold
    · intro hvalue
      left
      cases e
      cases hkey
      cases Option.some.inj hvalue
      rfl
  · rw [Kvhash.kvhashLookup_insert_ne hkey]
    constructor
    · rintro (rfl | hold)
      · exact absurd rfl hkey
      · exact hold
    · exact Or.inr

/-- What an insertion into the hash table is for the abstract one. -/
theorem serves_of_inserts {t' : Table (Kvelem α)} {key : Text} {value : Option α}
    {result : Inserted (Kvelem α)} (hrep : Represents t m) (hw : WellFormed kvMethods t')
    (hins : Inserts kvMethods tuning granted t ⟨key, value⟩ result t')
    (hsize : Resized tuning t t') :
    ∃ reply m', Represents t' m' ∧
      Serves tuning granted t t' m (.insert key value) (.value reply) m' ∧ reply = match result with
        | .failed => none
        | .present data => data.value
        | .inserted => value := by
  have hgood := Resized.goodSize hsize hrep.size
  cases hins with
  | present hfind =>
    rename_i data
    rw [hrep.find_eq, Option.map_eq_some_iff] at hfind
    obtain ⟨old, hlook, rfl⟩ := hfind
    have hin : key ∈ m := AList.lookup_isSome.mp (by
      change (Kvhash.kvhashLookup m key).isSome = true
      rw [hlook]
      rfl)
    have hserve : Serves tuning granted t t m (.insert key value) _ _ := .insert key value
    rw [Kvhash.kvhashInsert, if_pos hin, hlook] at hserve
    exact ⟨old, m, hrep, hserve, rfl⟩
  | inserted hfind hperm =>
    rw [hrep.find_eq, Option.map_eq_none_iff] at hfind
    have hserve : Serves tuning granted t t' m (.insert key value) _ _ := .insert key value
    rw [hfind] at hserve
    refine ⟨value, _, ⟨hw, hgood, ?_⟩, hserve, rfl⟩
    intro e
    rw [hperm.mem_iff, List.mem_cons, hrep.contents]
    exact inserted_iff hfind value e
  | failed hfind hperm hwhy =>
    rw [hrep.find_eq, Option.map_eq_none_iff] at hfind
    refine ⟨none, m, ⟨hw, hgood, ?_⟩, .refused key value ?_ hwhy, rfl⟩
    · intro e
      rw [hperm.mem_iff, hrep.contents]
    · rw [Kvhash.kvhashExists_eq, hfind]
      rfl

variable (tuning granted)

omit [DecidableEq α] in
/-- What is said of a table holds as well before the two requests that come first. -/
theorem Serves.earlier {t' : Table (Kvelem α)} {op : Op α} {reply : Reply α}
    {m' : Kvhash.Table Text (Option α)}
    (h : Serves tuning granted { t with requests := t.requests + 1 + 1 } t' m op reply m') :
    Serves tuning granted t t' m op reply m' := by
  cases h with
  | hasKey key => exact .hasKey key
  | lookup key => exact .lookup key
  | insert key value => exact .insert key value
  | refused key value hnew hwhy =>
    refine .refused key value hnew ?_
    rcases hwhy with hrefused | hfull
    · exact Or.inl (hrefused.widen (Nat.le_add_right t.requests 2) le_rfl)
    · exact Or.inr hfull
  | delete key => exact .delete key
  | getNEntries => exact .getNEntries

theorem insert_spec (hrep : Represents t m) (key : Text) (value : Option α) :
    (kvhashInsert tuning granted t key value = .error .xallocDie ∧
        (granted t.requests = false ∨ granted (t.requests + 1) = false)) ∨
      ∃ reply t' m', kvhashInsert tuning granted t key value = .ok (reply, t') ∧
        Represents t' m' ∧ Serves tuning granted t t' m (.insert key value) (.value reply) m' := by
  unfold kvhashInsert xmalloc
  cases hfirst : granted t.requests with
  | false => exact Or.inl ⟨by rw [if_neg Bool.false_ne_true]; rfl, Or.inl rfl⟩
  | true =>
    rw [if_pos rfl, ok_bind]
    cases hsecond : granted (t.requests + 1) with
    | false => exact Or.inl ⟨rfl, Or.inr rfl⟩
    | true =>
      rw [if_pos rfl, ok_bind]
      have hrep' := hrep.requested (t.requests + 1 + 1)
      obtain ⟨result, t', hrun, hw, hins, hsize⟩ := hashInsertIfAbsent_spec lawful_kvMethods
        tuning granted hrep'.wellFormed ⟨key, value⟩
      obtain ⟨reply, m', hrep'', hserve, hreply⟩ := serves_of_inserts hrep' hw hins hsize
      refine Or.inr ⟨reply, t', m', ?_, hrep'', Serves.earlier tuning granted hserve⟩
      rw [hashInsert, hrun, ok_bind, hreply]
      cases result <;> rfl

theorem delete_spec (hrep : Represents t m) (key : Text) :
    ∃ t', kvhashDelete tuning granted t key = .ok ((Kvhash.kvhashLookup m key).join, t') ∧
      Represents t' (Kvhash.kvhashDelete m key) := by
  obtain ⟨t', hrun, hw, hsize, hnone, hsome⟩ := hashDelete_spec lawful_kvMethods tuning granted
    hrep.wellFormed ⟨key, none⟩
  rw [hrep.find_eq] at hrun hnone hsome
  refine ⟨t', ?_, hw, Resized.goodSize hsize hrep.size, ?_⟩
  · rw [kvhashDelete, hrun]
    cases Kvhash.kvhashLookup m key <;> rfl
  · intro e
    have hother : e.key ≠ key → (Kvhash.kvhashLookup (Kvhash.kvhashDelete m key) e.key =
        Kvhash.kvhashLookup m e.key) := fun hne => AList.lookup_erase_ne hne
    have hgone : Kvhash.kvhashLookup (Kvhash.kvhashDelete m key) key = none :=
      AList.lookup_erase key m
    cases hlook : Kvhash.kvhashLookup m key with
    | none =>
      rw [hnone (by rw [hlook]; rfl), hrep.contents]
      by_cases hkey : e.key = key
      · rw [hkey, hgone, hlook]
      · rw [hother hkey]
    | some old =>
      have hperm := hsome ⟨key, old⟩ (by rw [hlook]; rfl)
      have hnodup := hperm.nodup_iff.mpr (entries_nodup lawful_kvMethods hrep.wellFormed)
      have hmem := hperm.mem_iff (a := e)
      rw [List.mem_cons, hrep.contents] at hmem
      by_cases hkey : e.key = key
      · rw [hkey, hgone]
        constructor
        · intro hin
          rw [hkey, hlook] at hmem
          have hvalue := hmem.mp (Or.inr hin)
          have heq : e = ⟨key, old⟩ := by
            cases e
            cases hkey
            cases Option.some.inj hvalue
            rfl
          exact absurd (heq ▸ hin) (List.nodup_cons.mp hnodup).1
        · intro hin
          cases hin
      · rw [hother hkey, ← hmem]
        constructor
        · exact Or.inr
        · rintro (rfl | hin)
          · exact absurd rfl hkey
          · exact hin

theorem perform_spec (hrep : Represents t m) (op : Op α) :
    (perform tuning granted t op = .error .xallocDie ∧ (∃ key value, op = .insert key value) ∧
        (granted t.requests = false ∨ granted (t.requests + 1) = false)) ∨
      ∃ reply t' m', perform tuning granted t op = .ok (reply, t') ∧ Represents t' m' ∧
        Serves tuning granted t t' m op reply m' := by
  cases op with
  | hasKey key =>
    refine Or.inr ⟨_, t, m, ?_, hrep, .hasKey key⟩
    rw [perform, hrep.exists_spec]
    rfl
  | lookup key =>
    refine Or.inr ⟨_, t, m, ?_, hrep, .lookup key⟩
    rw [perform, hrep.lookup_spec]
    rfl
  | insert key value =>
    rcases insert_spec tuning granted hrep key value with
      ⟨hrun, hwhy⟩ | ⟨reply, t', m', hrun, hrep', hserve⟩
    · exact Or.inl ⟨by rw [perform, hrun]; rfl, ⟨key, value, rfl⟩, hwhy⟩
    · exact Or.inr ⟨_, t', m', by rw [perform, hrun]; rfl, hrep', hserve⟩
  | delete key =>
    obtain ⟨t', hrun, hrep'⟩ := delete_spec tuning granted hrep key
    exact Or.inr ⟨_, t', _, by rw [perform, hrun]; rfl, hrep', .delete key⟩
  | getNEntries =>
    refine Or.inr ⟨_, t, m, ?_, hrep, .getNEntries⟩
    rw [perform, hrep.nEntries_eq]
    rfl

theorem performAll_spec (ops : List (Op α)) (hrep : Represents t m) :
    (performAll tuning granted t ops = .error .xallocDie ∧ DiesAt tuning granted t m ops) ∨
      ∃ replies t' m', performAll tuning granted t ops = .ok (replies, t') ∧ Represents t' m' ∧
        ServesAll tuning granted t m ops replies t' m' := by
  induction ops generalizing t m with
  | nil => exact Or.inr ⟨[], t, m, rfl, hrep, .nil t m⟩
  | cons op ops ih =>
    rw [performAll]
    rcases perform_spec tuning granted hrep op with
      ⟨hrun, ⟨key, value, rfl⟩, hwhy⟩ | ⟨reply, t₁, m₁, hrun, hrep₁, hserve⟩
    · exact Or.inl ⟨by rw [hrun]; rfl, [], key, value, ops, [], t, m, rfl, .nil t m, hwhy⟩
    · rw [hrun, ok_bind]
      dsimp only
      rcases ih hrep₁ with
        ⟨hrest, before, key, value, after, replies, t', m', rfl, hserves, hwhy⟩ |
        ⟨replies, t', m', hrest, hrep', hserves⟩
      · exact Or.inl ⟨by rw [hrest]; rfl, op :: before, key, value, after, reply :: replies, t', m',
          rfl, .cons hrun hserve hserves, hwhy⟩
      · exact Or.inr ⟨_, t', m', by rw [hrest]; rfl, hrep', .cons hrun hserve hserves⟩

end Operations

section Walk
variable {t : Table (Kvelem α)}

theorem forEachFrom_eq (hw : WellFormed kvMethods t) (front : List (Kvelem α))
    {back : List (Kvelem α)} (hsplit : t.entries = front ++ back) {fuel : ℕ}
    (hfuel : back.length ≤ fuel) :
    forEachFrom t fuel back.head? = .ok (some back) := by
  induction back generalizing front fuel with
  | nil => cases fuel <;> rfl
  | cons iter back ih =>
    cases fuel with
    | zero => exact absurd hfuel (Nat.not_succ_le_zero _)
    | succ fuel =>
      have hmem : iter ∈ t.entries := hsplit ▸ List.mem_append_right front List.mem_cons_self
      have hnodup := hsplit ▸ entries_nodup lawful_kvMethods hw
      have hnew : iter ∉ front :=
        fun hin => (List.nodup_append.mp hnodup).2.2 iter hin iter List.mem_cons_self rfl
      have hnext : behind t.entries iter = back.head? := by
        rw [hsplit]
        exact behind_append hnew
      have hrest : forEachFrom t fuel back.head? = .ok (some back) :=
        ih (front ++ [iter]) (by rw [hsplit, List.append_assoc]; rfl)
          (Nat.le_of_succ_le_succ hfuel)
      rw [List.head?_cons, forEachFrom, hashGetNext_spec lawful_kvMethods hw hmem, hnext]
      change (forEachFrom t fuel back.head? >>= _) = _
      rw [hrest]
      rfl

/-- The loop ends, and has come to every entry. -/
theorem hashForEach_spec (hw : WellFormed kvMethods t) {fuel : ℕ} (hfuel : t.nEntries ≤ fuel) :
    hashForEach fuel t = .ok (some t.entries) := by
  rw [hashForEach, hashGetFirst_spec hw]
  exact forEachFrom_eq hw [] rfl (hw.nEntries ▸ hfuel)

end Walk

def plainTuning : Tuning where
  scaled := fun n => some (n * 5 / 4)
  overGrowth := fun used n => 4 * n < 5 * used
  grown := fun n => some (n * 11312 / 10000)
  underShrink := fun _ _ => false
  shrunk := fun n => n * 4 / 5

def granting : ℕ → Bool := fun _ => true

def plainTable : Table (Kvelem ℕ) := ⟨List.replicate 11 [], 0, 0, 0, 2⟩

theorem plainTable_eq : kvhashInitialize plainTuning granting 8 = some plainTable := by
  decide

/-- The two keys have the same bucket of eleven. -/
def plainOps : List (Op ℕ) :=
  [.insert (text "mask") (some 1), .insert (text "detector") (some 2), .delete (text "mask"),
    .insert (text "mask") none, .insert (text "detector") (some 3), .getNEntries]

def plainAfter : Table (Kvelem ℕ) where
  bucket := plainTable.bucket.set 9 [⟨text "detector", some 2⟩, ⟨text "mask", none⟩]
  nBucketsUsed := 1
  nEntries := 2
  freeEntries := 0
  requests := 11

theorem plainAfter_eq : performAll plainTuning granting plainTable plainOps =
    .ok ([.value (some 1), .value (some 2), .value (some 1), .value none, .value (some 2),
      .number 2], plainAfter) := rfl

section Runs
variable (tuning : Tuning) (granted : ℕ → Bool) {candidate : ℕ} {t : Table (Kvelem α)}

/-- A program that works on a table gets the answers of the table of first insertions. It is
never aborted: it ends early only in an insertion that was refused memory for its element. An
insertion is turned down only where a request for memory was refused during it, or where the
table of that moment has to grow and cannot. -/
theorem run_answers (h : kvhashInitialize tuning granted candidate = some t)
    (ops : List (Op α)) :
    (performAll tuning granted t ops = .error .xallocDie ∧ DiesAt tuning granted t ∅ ops) ∨
      ∃ replies t' m, performAll tuning granted t ops = .ok (replies, t') ∧
        ServesAll tuning granted t ∅ ops replies t' m := by
  rcases performAll_spec tuning granted ops
    (represents_of_new h) with hstop | ⟨replies, t', m, hrun, -, hserves⟩
  · exact Or.inl hstop
  · exact Or.inr ⟨replies, t', m, hrun, hserves⟩

theorem run_answers_plain :
    ∃ replies t' m, performAll plainTuning granting plainTable plainOps = .ok (replies, t') ∧
      ServesAll plainTuning granting plainTable ∅ plainOps replies t' m := by
  refine (run_answers plainTuning granting plainTable_eq plainOps).resolve_left ?_
  rintro ⟨hstop, -⟩
  rw [plainAfter_eq] at hstop
  cases hstop

/-- Whatever is done to a table, hash_table_ok holds of it, every element is in the bucket
that its key hashes to, no key is there twice, and the number of buckets is a prime. -/
theorem run_tableOk (h : kvhashInitialize tuning granted candidate = some t)
    (ops : List (Op α)) {replies : List (Reply α)} {t' : Table (Kvelem α)}
    (hrun : performAll tuning granted t ops = .ok (replies, t')) :
    hashTableOk t' = true ∧
      (∀ slot, ∀ e ∈ t'.chain slot, hashString e.key t'.nBuckets = slot) ∧
      (t'.entries.map Kvelem.key).Nodup ∧ GoodSize t'.nBuckets := by
  rcases performAll_spec tuning granted ops
    (represents_of_new h) with ⟨hstop, -⟩ | ⟨replies', t'', m, hrun', hrep, -⟩
  · rw [hstop] at hrun
    cases hrun
  · rw [hrun'] at hrun
    cases hrun
    refine ⟨?_, hrep.wellFormed.placed, ?_, hrep.size⟩
    · rw [hashTableOk, ← hrep.wellFormed.counted, ← hrep.wellFormed.nEntries]
      simp
    · exact hrep.keys_perm.nodup_iff.mpr m.keys_nodup

theorem run_tableOk_plain :
    hashTableOk plainAfter = true ∧
      (∀ slot, ∀ e ∈ plainAfter.chain slot, hashString e.key plainAfter.nBuckets = slot) ∧
      (plainAfter.entries.map Kvelem.key).Nodup ∧ GoodSize plainAfter.nBuckets :=
  run_tableOk plainTuning granting plainTable_eq plainOps plainAfter_eq

/-- After any operations a loop over the table comes to its end, and by then it has been at
every key once, with the value that a lookup gives. -/
theorem run_hashForEach (h : kvhashInitialize tuning granted candidate = some t)
    (ops : List (Op α)) {replies : List (Reply α)} {t' : Table (Kvelem α)}
    (hrun : performAll tuning granted t ops = .ok (replies, t')) {fuel : ℕ}
    (hfuel : t'.nEntries ≤ fuel) :
    ∃ elems m, hashForEach fuel t' = .ok (some elems) ∧
      ServesAll tuning granted t ∅ ops replies t' m ∧
      (elems.map Kvelem.key).Perm m.keys ∧
      ∀ e ∈ elems, kvhashLookup t' e.key = .ok e.value := by
  rcases performAll_spec tuning granted ops
    (represents_of_new h) with ⟨hstop, -⟩ | ⟨replies', t'', m, hrun', hrep, hserves⟩
  · rw [hstop] at hrun
    cases hrun
  · rw [hrun'] at hrun
    cases hrun
    refine ⟨t'.entries, m, hashForEach_spec hrep.wellFormed hfuel, hserves, hrep.keys_perm, ?_⟩
    intro e he
    rw [hrep.lookup_spec, (hrep.contents e).mp he]
    rfl

theorem run_hashForEach_plain :
    ∃ elems m, hashForEach 2 plainAfter = .ok (some elems) ∧
      ServesAll plainTuning granting plainTable ∅ plainOps [.value (some 1), .value (some 2),
        .value (some 1), .value none, .value (some 2), .number 2] plainAfter m ∧
      (elems.map Kvelem.key).Perm m.keys ∧
      ∀ e ∈ elems, kvhashLookup plainAfter e.key = .ok e.value :=
  run_hashForEach plainTuning granting plainTable_eq plainOps plainAfter_eq le_rfl

end Runs
end Simulation
end BinfmtSupport.KvhashTable
