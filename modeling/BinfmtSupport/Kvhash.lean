import Mathlib.Data.List.AList

/-!
Key/value hash tables in which the first insertion under a key wins: inserting
under a key that is present changes nothing and hands back the stored value.
Lookup, insertion and deletion are stated for arbitrary keys and values.
-/
namespace BinfmtSupport.Kvhash

/-- A table never holds two entries with one key: `AList` carries the proof. -/
abbrev Table (κ : Type) [DecidableEq κ] (α : Type) := AList (fun _ : κ => α)

section Table
variable {κ α : Type} [DecidableEq κ]

def kvhashExists (table : Table κ α) (key : κ) : Bool := decide (key ∈ table)

def kvhashLookup (table : Table κ α) (key : κ) : Option α := table.lookup key

def kvhashInsert (table : Table κ α) (key : κ) (value : α) : Table κ α :=
  if key ∈ table then table else table.insert key value

def kvhashDelete (table : Table κ α) (key : κ) : Table κ α := table.erase key

@[simp] theorem kvhashLookup_empty (key : κ) :
    kvhashLookup (∅ : Table κ α) key = none := AList.lookup_empty key

theorem kvhashExists_eq (table : Table κ α) (key : κ) :
    kvhashExists table key = (kvhashLookup table key).isSome := by
  rw [kvhashExists, kvhashLookup, Bool.eq_iff_iff, AList.lookup_isSome, decide_eq_true_eq]

/-- After an insertion the key holds the older value, if there was one. -/
theorem kvhashLookup_insert (table : Table κ α) (key : κ) (value : α) :
    kvhashLookup (kvhashInsert table key value) key =
      some ((kvhashLookup table key).getD value) := by
  unfold kvhashLookup kvhashInsert
  split
  · rename_i h
    obtain ⟨old, hold⟩ := Option.isSome_iff_exists.mp (AList.lookup_isSome.mpr h)
    simp [hold]
  · rename_i h
    simp [AList.lookup_eq_none.mpr h]

theorem kvhashLookup_insert_ne {table : Table κ α} {key other : κ} (h : other ≠ key)
    (value : α) : kvhashLookup (kvhashInsert table key value) other =
      kvhashLookup table other := by
  unfold kvhashLookup kvhashInsert
  split
  · rfl
  · exact AList.lookup_insert_ne h

def kvhashInsertAll (table : Table κ α) (entries : List (κ × α)) : Table κ α :=
  entries.foldl (fun table entry => kvhashInsert table entry.1 entry.2) table

theorem kvhashLookup_insertAll_of_notMem {entries : List (κ × α)} {key : κ}
    (h : ∀ entry ∈ entries, entry.1 ≠ key) (table : Table κ α) :
    kvhashLookup (kvhashInsertAll table entries) key = kvhashLookup table key := by
  induction entries generalizing table with
  | nil => rfl
  | cons entry rest ih =>
    change kvhashLookup (kvhashInsertAll (kvhashInsert table entry.1 entry.2) rest) key = _
    rw [ih (fun e he => h e (List.mem_cons_of_mem entry he)),
      kvhashLookup_insert_ne (h entry List.mem_cons_self).symm]

/-- Where every key comes once, the order of the insertions does not matter. -/
theorem kvhashLookup_insertAll_of_mem {entries : List (κ × α)} {key : κ} {value : α}
    (hkeys : (entries.map Prod.fst).Nodup) (hmem : (key, value) ∈ entries)
    {table : Table κ α} (hnone : kvhashLookup table key = none) :
    kvhashLookup (kvhashInsertAll table entries) key = some value := by
  induction entries generalizing table with
  | nil => cases hmem
  | cons entry rest ih =>
    rw [List.map_cons, List.nodup_cons] at hkeys
    change kvhashLookup (kvhashInsertAll (kvhashInsert table entry.1 entry.2) rest) key = _
    rcases List.mem_cons.mp hmem with rfl | hrest
    · have hlater : ∀ e ∈ rest, e.1 ≠ key := by
        rintro e he rfl
        exact hkeys.1 (List.mem_map.mpr ⟨e, he, rfl⟩)
      rw [kvhashLookup_insertAll_of_notMem hlater, kvhashLookup_insert, hnone]
      rfl
    · have hne : key ≠ entry.1 := by
        rintro rfl
        exact hkeys.1 (List.mem_map.mpr ⟨_, hrest, rfl⟩)
      exact ih hkeys.2 hrest (by rw [kvhashLookup_insert_ne hne, hnone])

/-- A table made of entries with different keys holds those entries. -/
theorem kvhashLookup_insertAll_iff {entries : List (κ × α)}
    (hkeys : (entries.map Prod.fst).Nodup) (key : κ) (value : α) :
    kvhashLookup (kvhashInsertAll ∅ entries) key = some value ↔ (key, value) ∈ entries := by
  constructor
  · intro h
    by_cases hin : ∃ entry ∈ entries, entry.1 = key
    · obtain ⟨⟨key', old⟩, hmem, rfl⟩ := hin
      rw [kvhashLookup_insertAll_of_mem hkeys hmem (kvhashLookup_empty _),
        Option.some.injEq] at h
      exact h ▸ hmem
    · rw [kvhashLookup_insertAll_of_notMem (fun e he heq => hin ⟨e, he, heq⟩),
        kvhashLookup_empty] at h
      cases h
  · intro hmem
    exact kvhashLookup_insertAll_of_mem hkeys hmem (kvhashLookup_empty key)

end Table
end BinfmtSupport.Kvhash
