import BinfmtSupport.Primes

/-!
gnulib's hash tables, translated from hash.c. A bucket is its chain: the head and the entries
that overflowed. The nodes of the overflow are allocated one by one and recycled, and every
request for memory can be refused, so the length of the list of free nodes is kept as well.
The products of the tuning arguments are floating point numbers: nothing is assumed of them.
A call of abort is an error here.
-/
namespace BinfmtSupport.HashTable

open Primes

/-- The functions that hash_initialize is given; entries are compared by address as well. -/
structure Methods (α : Type) where
  hasher : α → ℕ → ℕ
  comparator : α → α → Bool

/-- The tuning arguments as they are used: with the number of buckets in use and of all
buckets, and with the sizes they lead to. No size is where SIZE_MAX would be reached. -/
structure Tuning where
  scaled : ℕ → Option ℕ
  overGrowth : ℕ → ℕ → Bool
  grown : ℕ → Option ℕ
  underShrink : ℕ → ℕ → Bool
  shrunk : ℕ → ℕ

/-- Where the code calls abort. -/
inductive Abort
  | safeHasher
  | getFirst
  | rehash
  | insert
deriving DecidableEq

/-- `requests` counts the calls of malloc and calloc so far. -/
structure Table (α : Type) where
  bucket : List (List α)
  nBucketsUsed : ℕ
  nEntries : ℕ
  freeEntries : ℕ
  requests : ℕ
deriving DecidableEq

namespace Table
variable {α : Type}

def nBuckets (t : Table α) : ℕ := t.bucket.length

def chain (t : Table α) (slot : ℕ) : List α := t.bucket.getD slot []

def setChain (t : Table α) (slot : ℕ) (chain : List α) : Table α :=
  { t with bucket := t.bucket.set slot chain }

def entries (t : Table α) : List α := t.bucket.flatten

end Table

def used {α : Type} (bucket : List (List α)) : ℕ := bucket.countP (fun chain => !chain.isEmpty)

/-- A mild validation of a hash table. -/
def hashTableOk {α : Type} (t : Table α) : Bool :=
  used t.bucket = t.nBucketsUsed && t.entries.length = t.nEntries

section Source
variable {α : Type} [DecidableEq α] (h : Methods α) (tuning : Tuning) (granted : ℕ → Bool)

def safeHasher (n : ℕ) (key : α) : Except Abort ℕ :=
  if h.hasher key n < n then .ok (h.hasher key n) else .error .safeHasher

/-- `entry == data || comparator (entry, data)` -/
def hits (entry data : α) : Bool := entry = data || h.comparator entry data

def hashLookup (t : Table α) (entry : α) : Except Abort (Option α) := do
  let slot ← safeHasher h t.nBuckets entry
  return (t.chain slot).find? (hits h entry)

def firstHead : List (List α) → Option α
  | [] => none
  | [] :: rest => firstHead rest
  | (data :: _) :: _ => some data

def hashGetFirst (t : Table α) : Except Abort (Option α) :=
  if t.nEntries = 0 then .ok none
  else
    match firstHead t.bucket with
    | some data => .ok (some data)
    | none => .error .getFirst

/-- The entry behind another one in its chain, which is looked for by its address. -/
def nextInChain (entry : α) : List α → Option α
  | data :: next :: rest => if data = entry then some next else nextInChain entry (next :: rest)
  | _ => none

def hashGetNext (t : Table α) (entry : α) : Except Abort (Option α) := do
  let slot ← safeHasher h t.nBuckets entry
  match nextInChain entry (t.chain slot) with
  | some data => return some data
  | none => return firstHead (t.bucket.drop (slot + 1))

/-- compute_bucket_size, where the size is not 0. -/
def computeBucketSize (candidate : ℕ) : Option ℕ :=
  match tuning.scaled candidate with
  | none => none
  | some candidate =>
      if nextPrime candidate > sizeMax / 8 then none else some (nextPrime candidate)

def hashInitialize (candidate : ℕ) : Option (Table α) :=
  if granted 0 then
    match computeBucketSize tuning candidate with
    | none => none
    | some n => if granted 1 then some ⟨List.replicate n [], 0, 0, 0, 2⟩ else none
  else none

def allocateEntry (t : Table α) : Bool × Table α :=
  match t.freeEntries with
  | free + 1 => (true, { t with freeEntries := free })
  | 0 => (granted t.requests, { t with requests := t.requests + 1 })

def freeEntry (t : Table α) : Table α := { t with freeEntries := t.freeEntries + 1 }

/-- The first entry of the overflow that matches, and the overflow without it. -/
def scanOverflow (entry : α) : List α → Option (α × List α)
  | [] => none
  | data :: rest =>
      if hits h entry data then some (data, rest)
      else (scanOverflow entry rest).map (fun found => (found.1, data :: found.2))

/-- hash_find_entry: the match, the slot of the bucket and the table, where a match is
unlinked on demand. -/
def hashFindEntry (t : Table α) (entry : α) (delete : Bool) :
    Except Abort (Option α × ℕ × Table α) := do
  let slot ← safeHasher h t.nBuckets entry
  match t.chain slot with
  | [] => return (none, slot, t)
  | head :: overflow =>
      if hits h entry head then
        if delete then
          match overflow with
          | [] => return (some head, slot, t.setChain slot [])
          | _ :: _ => return (some head, slot, freeEntry (t.setChain slot overflow))
        else return (some head, slot, t)
      else
        match scanOverflow h entry overflow with
        | none => return (none, slot, t)
        | some (data, rest) =>
            if delete then return (some data, slot, freeEntry (t.setChain slot (head :: rest)))
            else return (some data, slot, t)

/-- The overflow of a bucket goes over first: its nodes are relinked, or become free where
the bucket of the new table is empty. -/
def transferOverflow : Table α → List α → Except Abort (Table α)
  | dst, [] => return dst
  | dst, data :: rest => do
      let slot ← safeHasher h dst.nBuckets data
      match dst.chain slot with
      | head :: more => transferOverflow (dst.setChain slot (head :: data :: more)) rest
      | [] =>
          let dst := freeEntry (dst.setChain slot [data])
          transferOverflow { dst with nBucketsUsed := dst.nBucketsUsed + 1 } rest

/-- The head of a bucket needs a node where it meets another head. -/
def transferHead (dst : Table α) (data : α) : Except Abort (Bool × Table α) := do
  let slot ← safeHasher h dst.nBuckets data
  match dst.chain slot with
  | head :: more =>
      let (ok, dst) := allocateEntry granted dst
      if ok then return (true, dst.setChain slot (head :: data :: more)) else return (false, dst)
  | [] =>
      let dst := dst.setChain slot [data]
      return (true, { dst with nBucketsUsed := dst.nBucketsUsed + 1 })

/-- What transfer_entries leaves: the tables, and how many heads have left the old one. -/
structure Transferred (α : Type) where
  ok : Bool
  dst : Table α
  left : List (List α)
  moved : ℕ

/-- The loop over the buckets of the source. A safe transfer leaves the heads behind, and
one that runs out of memory also what it has not come to. -/
def transferEntries (safe : Bool) : Table α → List (List α) → Except Abort (Transferred α)
  | dst, [] => return ⟨true, dst, [], 0⟩
  | dst, [] :: rest => do
      let done ← transferEntries safe dst rest
      return { done with left := [] :: done.left }
  | dst, (head :: overflow) :: rest => do
      let dst ← transferOverflow h dst overflow
      if safe then
        let done ← transferEntries safe dst rest
        return { done with left := [head] :: done.left }
      else
        let (ok, dst) ← transferHead h granted dst head
        if ok then
          let done ← transferEntries safe dst rest
          return { done with left := [] :: done.left, moved := done.moved + 1 }
        else return ⟨false, dst, [head] :: rest, 0⟩

/-- Out of memory in the middle of a transfer: everything goes back, the overflow first. -/
def undoTransfer (t : Table α) (done : Transferred α) : Except Abort (Bool × Table α) := do
  let t : Table α := ⟨done.left, t.nBucketsUsed - done.moved, t.nEntries,
    done.dst.freeEntries, done.dst.requests⟩
  let first ← transferEntries h granted true t done.dst.bucket
  if first.ok then
    let second ← transferEntries h granted false first.dst first.left
    if second.ok then return (false, second.dst) else throw .rehash
  else throw .rehash

def hashRehash (t : Table α) (candidate : ℕ) : Except Abort (Bool × Table α) :=
  match computeBucketSize tuning candidate with
  | none => return (false, t)
  | some newSize =>
      if newSize = t.nBuckets then return (true, t)
      else if granted t.requests then do
        let done ← transferEntries h granted false
          ⟨List.replicate newSize [], 0, 0, t.freeEntries, t.requests + 1⟩ t.bucket
        if done.ok then return (true, { done.dst with nEntries := t.nEntries })
        else undoTransfer h granted t done
      else return (false, { t with requests := t.requests + 1 })

/-- What hash_insert_if_absent returns: -1, 0 with the entry that matches, or 1. -/
inductive Inserted (α : Type)
  | failed
  | present (data : α)
  | inserted
deriving DecidableEq

def placeEntry (t : Table α) (entry : α) (slot : ℕ) : Inserted α × Table α :=
  match t.chain slot with
  | head :: more =>
      let (ok, t) := allocateEntry granted t
      if ok then
        let t := t.setChain slot (head :: entry :: more)
        (.inserted, { t with nEntries := t.nEntries + 1 })
      else (.failed, t)
  | [] =>
      let t := t.setChain slot [entry]
      (.inserted, { t with nEntries := t.nEntries + 1, nBucketsUsed := t.nBucketsUsed + 1 })

def hashInsertIfAbsent (t : Table α) (entry : α) : Except Abort (Inserted α × Table α) := do
  let (found, slot, t) ← hashFindEntry h t entry false
  match found with
  | some data => return (.present data, t)
  | none =>
      if tuning.overGrowth t.nBucketsUsed t.nBuckets then
        match tuning.grown t.nBuckets with
        | none => return (.failed, t)
        | some candidate =>
            let (ok, t) ← hashRehash h tuning granted t candidate
            if ok then
              let (found, slot, t) ← hashFindEntry h t entry false
              match found with
              | some _ => throw .insert
              | none => return placeEntry granted t entry slot
            else return (.failed, t)
      else return placeEntry granted t entry slot

/-- hash_insert returns the entry that is in the table then, or NULL. -/
def hashInsert (t : Table α) (entry : α) : Except Abort (Option α × Table α) := do
  let (result, t) ← hashInsertIfAbsent h tuning granted t entry
  match result with
  | .failed => return (none, t)
  | .present data => return (some data, t)
  | .inserted => return (some entry, t)

/-- Where shrinking fails the spare nodes are given back. -/
def hashDelete (t : Table α) (entry : α) : Except Abort (Option α × Table α) := do
  let (found, slot, t) ← hashFindEntry h t entry true
  match found with
  | none => return (none, t)
  | some data =>
      let t := { t with nEntries := t.nEntries - 1 }
      match t.chain slot with
      | _ :: _ => return (some data, t)
      | [] =>
          let t := { t with nBucketsUsed := t.nBucketsUsed - 1 }
          if tuning.underShrink t.nBucketsUsed t.nBuckets then
            let (ok, t) ← hashRehash h tuning granted t (tuning.shrunk t.nBuckets)
            return (some data, if ok then t else { t with freeEntries := 0 })
          else return (some data, t)

end Source
end BinfmtSupport.HashTable
