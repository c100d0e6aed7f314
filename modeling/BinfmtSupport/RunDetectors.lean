import BinfmtSupport.Find

/-!
run-detectors: the arguments are copied behind a slot for the interpreter, and the
interpreters that find_interpreters returns are executed in turn until one of them takes
over the process. Every access to an array checks its bounds, so a run that ends has made
none outside. The indices are integers without a bound: execve takes no list of arguments
that an int could not count.
-/
namespace BinfmtSupport.RunDetectors

open CText Stores Find

/-- A word of an argument vector: a string or NULL. -/
abbrev Word := Option Text

def vector (words : List Text) : List Word := words.map some ++ [none]

section Arrays

/-- As many words as are asked for, each of them NULL. -/
def xcalloc (count : ℤ) : List Word := List.replicate count.toNat none

/-- An assignment to `array[index]`, which is undefined outside the array. -/
def store (array : List Word) (index : ℤ) (word : Word) : Except Failure (List Word) :=
  if 0 ≤ index ∧ index < array.length then .ok (array.set index.toNat word)
  else .error .outOfBounds

/-- `argv[index]` where a string stands there. -/
def fetch (argv : List Text) (index : ℕ) : Except Failure Text :=
  match argv[index]? with
  | some word => .ok word
  | none => .error .outOfBounds

/-- What execvp reads: the strings up to the first NULL, which has to be in the array. -/
def received : List Word → Except Failure (List Text)
  | [] => .error .outOfBounds
  | none :: _ => .ok []
  | some word :: rest => (received rest).map (fun more => word :: more)

end Arrays

section Program

/-- One call of execvp: its file, the array that it is given and what it reads there. -/
structure Attempt where
  program : Text
  array : List Word
  arguments : List Text
deriving DecidableEq

inductive Complaint
  | argumentRequired
  | unableToFind (target : Text)
deriving DecidableEq

/-- The process becomes an interpreter, or leaves with a message and status 2. -/
inductive Ending
  | replaced
  | quit (why : Complaint)
deriving DecidableEq

structure Ended where
  attempts : List Attempt
  unableToExec : List Text
  ending : Ending
deriving DecidableEq

/-- `real_argv[i - arg_index + 1] = argv[i]` -/
def copyArgument (argv : List Text) (argIndex : ℕ) (realArgv : List Word) (i : ℕ) :
    Except Failure (List Word) := do
  let word ← fetch argv i
  store realArgv (i - argIndex + 1) (some word)

/-- `for (i = arg_index; i < argc; ++i)` -/
def copyArguments (argv : List Text) (argIndex : ℕ) (realArgv : List Word) :
    Except Failure (List Word) :=
  (List.range' argIndex (argv.length - argIndex)).foldlM (copyArgument argv argIndex) realArgv

/-- The loop over the interpreters; `executes` says of each attempt whether it succeeds. -/
def tryEach (executes : ℕ → Attempt → Bool) (target : Text) :
    ℕ → List Word → List Loaded → Except Failure Ended
  | _, _, [] => .ok ⟨[], [], .quit (.unableToFind target)⟩
  | n, realArgv, binfmt :: rest => do
      let realArgv ← store realArgv 0 (some binfmt.interpreter)
      let arguments ← received realArgv
      let attempt : Attempt := ⟨binfmt.interpreter, realArgv, arguments⟩
      if executes n attempt then return ⟨[attempt], [], .replaced⟩
      else
        let later ← tryEach executes target (n + 1) realArgv rest
        return ⟨attempt :: later.attempts, binfmt.interpreter :: later.unableToExec,
          later.ending⟩

def main (find : Text → Except Failure (List Loaded)) (executes : ℕ → Attempt → Bool)
    (argv : List Text) (argIndex : ℕ) : Except Failure Ended :=
  if argIndex ≥ argv.length then .ok ⟨[], [], .quit .argumentRequired⟩
  else do
    let realArgv ← copyArguments argv argIndex (xcalloc (argv.length - argIndex + 2))
    let realArgv ← store realArgv (argv.length - argIndex + 1) none
    let target ← fetch argv argIndex
    let interpreters ← find target
    tryEach executes target 0 realArgv interpreters

/-- find_interpreters as a whole: the formats, then the buffer and the file, then the choice. -/
def findFor (detect : Text → Text → ℕ) (s : Store) (names : List Text)
    (files : Text → Option (List Byte)) (path : Text) : Except Failure (List Loaded) := do
  let formats ← loadFormats s names
  match files path with
  | none => .error (if toread formats < 2 ^ 63 then .unableToOpen path else .outOfMemory)
  | some file => findInterpreters detect formats path file

end Program

section Vector

theorem store_at (front : List Word) (old word : Word) (back : List Word) {index : ℤ}
    (h : index = front.length) :
    store (front ++ old :: back) index word = .ok (front ++ word :: back) := by
  have hbound : 0 ≤ index ∧ index < (front ++ old :: back).length := by
    simp only [List.length_append, List.length_cons]
    omega
  rw [store, if_pos hbound, h, Int.toNat_natCast, List.set_append_right _ _ le_rfl, Nat.sub_self,
    List.set_cons_zero]

theorem received_vector (words : List Text) : received (vector words) = .ok words := by
  induction words with
  | nil => rfl
  | cons word rest ih =>
    change (received (vector rest)).map _ = _
    rw [ih]
    rfl

/-- The argument behind those that are copied already goes to the next slot. -/
theorem copyArgument_next (skipped copied rest : List Text) (word : Text) (back : List Word) :
    copyArgument (skipped ++ copied ++ word :: rest) skipped.length
        (none :: copied.map some ++ none :: back) (skipped.length + copied.length) =
      .ok (none :: (copied ++ [word]).map some ++ back) := by
  have hfetch : fetch (skipped ++ copied ++ word :: rest)
      (skipped.length + copied.length) = .ok word := by
    rw [fetch, ← List.length_append, List.getElem?_append_right le_rfl, Nat.sub_self]
    rfl
  have hindex : ((skipped.length + copied.length : ℕ) : ℤ) - skipped.length + 1 =
      (none :: copied.map some : List Word).length := by
    rw [List.length_cons, List.length_map]
    omega
  rw [copyArgument, hfetch]
  change store _ _ _ = _
  rw [store_at _ _ _ _ hindex, List.map_append]
  simp

/-- While the loop runs, the slots up to its index hold the arguments so far. -/
theorem copyArguments_from (skipped copied todo : List Text) (back : List Word) :
    (List.range' (skipped.length + copied.length) todo.length).foldlM
        (copyArgument (skipped ++ copied ++ todo) skipped.length)
        (none :: copied.map some ++ (List.replicate todo.length none ++ back)) =
      .ok (none :: (copied ++ todo).map some ++ back) := by
  induction todo generalizing copied with
  | nil =>
    rw [List.append_nil, List.append_nil]
    rfl
  | cons word rest ih =>
    have hback : List.replicate (rest.length + 1) none ++ back =
        none :: (List.replicate rest.length none ++ back) := rfl
    have hnext := ih (copied ++ [word])
    rw [List.length_append, List.length_singleton, ← Nat.add_assoc, ← List.append_assoc,
      List.append_assoc (skipped ++ copied), List.append_assoc copied,
      List.singleton_append] at hnext
    rw [List.length_cons, List.range'_succ, List.foldlM_cons, hback, copyArgument_next]
    exact hnext

/-- What main hands to the first attempt, slot 0 apart. -/
theorem prepared {argv : List Text} {argIndex : ℕ} (h : argIndex < argv.length) :
    (do let realArgv ← copyArguments argv argIndex (xcalloc (argv.length - argIndex + 2))
        store realArgv (argv.length - argIndex + 1) none) =
      .ok (none :: vector (argv.drop argIndex)) := by
  have hcopy : copyArguments argv argIndex (xcalloc (argv.length - argIndex + 2)) =
      .ok (none :: (argv.drop argIndex).map some ++ [none]) := by
    have hall := copyArguments_from (argv.take argIndex) [] (argv.drop argIndex) [none]
    have hlength : (argv.take argIndex).length = argIndex := by
      rw [List.length_take]
      omega
    rw [List.append_nil, List.take_append_drop, hlength, List.length_drop, List.map_nil,
      List.nil_append, List.length_nil, Nat.add_zero] at hall
    have hcalloc : xcalloc (argv.length - argIndex + 2) =
        none :: (List.replicate (argv.length - argIndex) none ++ [none]) := by
      have hcount : ((argv.length : ℤ) - argIndex + 2).toNat = argv.length - argIndex + 1 + 1 := by
        omega
      rw [xcalloc, hcount, List.replicate_succ, List.replicate_succ']
    rw [copyArguments, hcalloc]
    exact hall
  rw [hcopy]
  change store _ _ _ = _
  refine (store_at _ none none [] ?_).trans rfl
  rw [List.length_cons, List.length_map, List.length_drop]
  omega

end Vector

section Attempts

/-- A list up to and including its first element that passes; places count from `n`. -/
def upToFirst {α : Type} (passes : ℕ → α → Bool) (n : ℕ) (xs : List α) : List α :=
  xs.take ((xs.zipIdx n).findIdx (fun x => passes x.2 x.1) + 1)

theorem upToFirst_cons {α : Type} (passes : ℕ → α → Bool) (n : ℕ) (x : α) (xs : List α) :
    upToFirst passes n (x :: xs) =
      x :: if passes n x = true then [] else upToFirst passes (n + 1) xs := by
  rw [upToFirst, List.zipIdx_cons, List.findIdx_cons, List.take_succ_cons]
  cases hpass : passes n x with
  | true => rfl
  | false => rfl

def attemptOf (arguments : List Text) (binfmt : Loaded) : Attempt :=
  ⟨binfmt.interpreter, vector (binfmt.interpreter :: arguments), binfmt.interpreter :: arguments⟩

/-- What became of the attempts that could be made, counted from `n`. -/
structure Tried (executes : ℕ → Attempt → Bool) (target : Text) (n : ℕ) (tries : List Attempt)
    (r : Ended) : Prop where
  attempts_eq : r.attempts = upToFirst executes n tries
  failed_iff : r.ending = .quit (.unableToFind target) ↔
    ∀ x ∈ tries.zipIdx n, executes x.2 x.1 = false
  replaced_iff : r.ending = .replaced ↔ ∃ x ∈ tries.zipIdx n, executes x.2 x.1 = true
  warned : r.unableToExec <+: r.attempts.map Attempt.program
  warned_length : r.attempts.length =
    r.unableToExec.length + if r.ending = .replaced then 1 else 0

variable {executes : ℕ → Attempt → Bool} {target : Text} {n : ℕ} {attempt : Attempt}
  {tries : List Attempt} {r : Ended}

theorem tried_nil : Tried executes target n [] ⟨[], [], .quit (.unableToFind target)⟩ where
  attempts_eq := rfl
  failed_iff := by simp
  replaced_iff := by simp
  warned := List.nil_prefix
  warned_length := rfl

theorem tried_success (h : executes n attempt = true) :
    Tried executes target n (attempt :: tries) ⟨[attempt], [], .replaced⟩ where
  attempts_eq := by rw [upToFirst_cons, if_pos h]
  failed_iff := by
    rw [List.zipIdx_cons, List.forall_mem_cons, h]
    simp
  replaced_iff := by
    rw [List.zipIdx_cons, List.exists_mem_cons_iff]
    simp [h]
  warned := List.nil_prefix
  warned_length := rfl

/-- After a failed attempt it is up to the others. -/
theorem Tried.cons (h : executes n attempt = false) (hr : Tried executes target (n + 1) tries r) :
    Tried executes target n (attempt :: tries)
      ⟨attempt :: r.attempts, attempt.program :: r.unableToExec, r.ending⟩ where
  attempts_eq := by
    rw [upToFirst_cons, h, hr.attempts_eq]
    rfl
  failed_iff := by
    rw [List.zipIdx_cons, List.forall_mem_cons, hr.failed_iff]
    simp [h]
  replaced_iff := by
    rw [List.zipIdx_cons, List.exists_mem_cons_iff, hr.replaced_iff]
    simp [h]
  warned := by
    rw [List.map_cons]
    exact (List.prefix_cons_inj _).mpr hr.warned
  warned_length := by
    have hlength := hr.warned_length
    simp only [List.length_cons]
    omega

/-- Whatever is left in slot 0, the attempts are the same. -/
theorem tryEach_tried (executes : ℕ → Attempt → Bool) (target : Text) (arguments : List Text)
    (interpreters : List Loaded) (n : ℕ) (old : Word) :
    ∃ r, tryEach executes target n (old :: vector arguments) interpreters = .ok r ∧
      Tried executes target n (interpreters.map (attemptOf arguments)) r := by
  induction interpreters generalizing n old with
  | nil => exact ⟨_, rfl, tried_nil⟩
  | cons binfmt rest ih =>
    have hstore : store (old :: vector arguments) 0 (some binfmt.interpreter) =
        .ok (vector (binfmt.interpreter :: arguments)) :=
      store_at [] old _ (vector arguments) rfl
    have hstep : tryEach executes target n (old :: vector arguments) (binfmt :: rest) =
        if executes n (attemptOf arguments binfmt) then
          .ok ⟨[attemptOf arguments binfmt], [], .replaced⟩
        else do
          let later ← tryEach executes target (n + 1)
            (vector (binfmt.interpreter :: arguments)) rest
          return ⟨attemptOf arguments binfmt :: later.attempts,
            binfmt.interpreter :: later.unableToExec, later.ending⟩ := by
      rw [tryEach, hstore]
      change (do
        let read ← received (vector (binfmt.interpreter :: arguments))
        _) = _
      rw [received_vector]
      rfl
    rw [List.map_cons, hstep]
    cases hexec : executes n (attemptOf arguments binfmt) with
    | true => exact ⟨_, if_pos rfl, tried_success hexec⟩
    | false =>
      obtain ⟨r, hrun, htried⟩ := ih (n + 1) (some binfmt.interpreter)
      refine ⟨_, ?_, htried.cons hexec⟩
      rw [if_neg Bool.false_ne_true]
      change (do
        let later ← tryEach executes target (n + 1)
          (some binfmt.interpreter :: vector arguments) rest
        _) = _
      rw [hrun]
      rfl

/-- The interpreters are tried in the order of the list up to the first that takes over,
each with an array that holds its own name, the target, the later arguments and a NULL, and
nothing else; no access is outside an array; and the process fails exactly when every
attempt does. -/
theorem main_tried (find : Text → Except Failure (List Loaded))
    (executes : ℕ → Attempt → Bool) (argv : List Text) (argIndex : ℕ)
    (h : argIndex < argv.length) (interpreters : List Loaded)
    (hfind : find argv[argIndex] = .ok interpreters) :
    ∃ r, main find executes argv argIndex = .ok r ∧
      Tried executes argv[argIndex] 0
        (interpreters.map (attemptOf (argv[argIndex] :: argv.drop (argIndex + 1)))) r := by
  obtain ⟨r, hrun, htried⟩ := tryEach_tried executes argv[argIndex]
    (argv[argIndex] :: argv.drop (argIndex + 1)) interpreters 0 none
  refine ⟨r, ?_, htried⟩
  have hfetch : fetch argv argIndex = .ok argv[argIndex] := by
    rw [fetch, List.getElem?_eq_getElem h]
  have hready := prepared h
  rw [List.drop_eq_getElem_cons h] at hready
  have hmain : main find executes argv argIndex = (do
      let realArgv ← (do
        let realArgv ← copyArguments argv argIndex (xcalloc (argv.length - argIndex + 2))
        store realArgv (argv.length - argIndex + 1) none)
      let target ← fetch argv argIndex
      let interpreters ← find target
      tryEach executes target 0 realArgv interpreters) := by
    rw [main, if_neg (Nat.not_le.mpr h), bind_assoc]
  rw [hmain, hready, hfetch]
  change (do
    let interpreters ← find argv[argIndex]
    _) = _
  rw [hfind]
  exact hrun

def extensionFormat (interpreter : Text) : Loaded :=
  ⟨text "extension", text "0", text "ext", [], interpreter, [], zero_ne_nil, Or.inl rfl⟩

def twoFormats : Store :=
  ⟨(AList.insert (text "two") (text ":\nextension\n0\next\n\n/bin/two\n\n\n\n") ∅).insert
      (text "one") (text ":\nextension\n0\next\n\n/bin/one\n\n\n\n"),
    { emptyStore.kernel with entries := [text "one", text "two"].map (fun name =>
        ⟨name, text "E", text "0", text "ext", [], text "/usr/lib/run-detectors", []⟩) }⟩

def extensionArgv : List Text :=
  [text "run-detectors", text "a.ext", text "--foo=bar", text "-v"]

def extensionFind : Text → Except Failure (List Loaded) :=
  findFor (fun _ _ => 1) twoFormats [text "one", text "two"] (fun _ => some (text "data"))

/-- The first interpreter cannot be executed and the second one takes over. -/
theorem main_tried_two : ∃ r,
    main extensionFind (fun n _ => n = 1) extensionArgv 1 = .ok r ∧
    Tried (fun n _ => n = 1) (text "a.ext") 0
      ([extensionFormat (text "/bin/one"), extensionFormat (text "/bin/two")].map
        (attemptOf [text "a.ext", text "--foo=bar", text "-v"])) r :=
  main_tried extensionFind (fun n _ => n = 1) extensionArgv 1 (by decide)
    [extensionFormat (text "/bin/one"), extensionFormat (text "/bin/two")] (by decide +kernel)

example : main extensionFind (fun n _ => n = 1) extensionArgv 1 =
    .ok ⟨[⟨text "/bin/one", [some (text "/bin/one"), some (text "a.ext"),
          some (text "--foo=bar"), some (text "-v"), none],
        [text "/bin/one", text "a.ext", text "--foo=bar", text "-v"]⟩,
      ⟨text "/bin/two", [some (text "/bin/two"), some (text "a.ext"),
          some (text "--foo=bar"), some (text "-v"), none],
        [text "/bin/two", text "a.ext", text "--foo=bar", text "-v"]⟩],
      [text "/bin/one"], .replaced⟩ := by decide +kernel

end Attempts
end BinfmtSupport.RunDetectors
