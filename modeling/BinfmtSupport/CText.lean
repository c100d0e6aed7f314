import Mathlib.Data.List.DropRight

/-!
Bytes, C strings and lines, as the C library sees them in the "C" locale.
A C string is the list of its bytes before the terminating NUL. A line read by
getline keeps its newline, except possibly the last one of a file.
Splitting at a delimiter undoes joining exactly when no part contains it.
-/
namespace BinfmtSupport.CText

abbrev Byte := UInt8
abbrev Text := List Byte

/-- The bytes of a literal of the source, which are all ASCII. -/
def text (s : String) : Text := s.toList.map (fun c => UInt8.ofNat c.toNat)

def newline : Byte := 10
def space : Byte := 32
def colon : Byte := 58
def slash : Byte := 47

def isspace (c : Byte) : Bool := c == space || (9 ≤ c && c ≤ 13)

def isdigit (c : Byte) : Bool := 48 ≤ c && c ≤ 57

def tolower (c : Byte) : Byte := if 65 ≤ c && c ≤ 90 then c + 32 else c

/-- What a `char *` shows of a buffer: everything before its first NUL. -/
def cstr (buffer : List Byte) : Text := buffer.takeWhile (fun c => c ≠ 0)

def NulFree (t : List Byte) : Prop := (0 : Byte) ∉ t

instance (t : List Byte) : Decidable (NulFree t) :=
  inferInstanceAs (Decidable (¬ (0 : Byte) ∈ t))

theorem cstr_eq_self {t : List Byte} (h : NulFree t) : cstr t = t := by
  apply List.takeWhile_eq_self_iff.mpr
  intro c hc
  have hne : c ≠ 0 := fun h0 => h (h0 ▸ hc)
  simpa using hne

theorem nulFree_cstr (buffer : List Byte) : NulFree (cstr buffer) := by
  intro h0
  have hp := List.mem_takeWhile_imp h0
  simp at hp

theorem cstr_mem {t : List Byte} {c : Byte} (h : c ∈ cstr t) : c ∈ t :=
  (List.takeWhile_sublist _).mem h

def trimRight (t : List Byte) : List Byte := t.rdropWhile isspace

def NoTrailingSpace (t : List Byte) : Prop := ∀ c ∈ t.getLast?, isspace c = false

instance (t : List Byte) : Decidable (NoTrailingSpace t) :=
  decidable_of_iff (t.getLast?.all (fun c => !isspace c) = true) (by
    simp [NoTrailingSpace, Option.all_eq_true])

theorem trimRight_eq_self_iff (t : List Byte) : trimRight t = t ↔ NoTrailingSpace t := by
  unfold trimRight NoTrailingSpace
  rw [List.rdropWhile_eq_self_iff]
  constructor
  · intro h c hc
    obtain ⟨hne, rfl⟩ := List.mem_getLast?_eq_getLast hc
    simpa using h hne
  · intro h hne
    simpa using h (t.getLast hne) (List.getLast?_eq_some_getLast hne)

theorem noTrailingSpace_trimRight (t : List Byte) : NoTrailingSpace (trimRight t) :=
  (trimRight_eq_self_iff _).mp (List.rdropWhile_idempotent _ _)

theorem trimRight_append_space {t more : List Byte} (h : ∀ c ∈ more, isspace c = true) :
    trimRight (t ++ more) = trimRight t := by
  induction more generalizing t with
  | nil => rw [List.append_nil]
  | cons c more ih =>
    rw [← List.singleton_append, ← List.append_assoc,
      ih (fun d hd => h d (List.mem_cons_of_mem c hd))]
    exact List.rdropWhile_concat_pos _ _ _ (h c List.mem_cons_self)

theorem trimRight_newline (t : List Byte) : trimRight (t ++ [newline]) = trimRight t :=
  trimRight_append_space (List.forall_mem_singleton.mpr rfl)

theorem trimRight_mem {t : List Byte} {c : Byte} (h : c ∈ trimRight t) : c ∈ t :=
  (List.rdropWhile_prefix isspace t).mem h

section Lines
variable {α : Type*} [DecidableEq α]

/-- The lines that successive calls of getline return, each with its terminator
when it has one. Only the last line of a file can lack it. -/
def lines (stop : α) : List α → List (List α)
  | [] => []
  | c :: rest =>
      if c = stop then [c] :: lines stop rest
      else match lines stop rest with
        | [] => [[c]]
        | line :: more => (c :: line) :: more

theorem lines_terminated (stop : α) (line rest : List α) (h : stop ∉ line) :
    lines stop (line ++ stop :: rest) = (line ++ [stop]) :: lines stop rest := by
  induction line with
  | nil => simp [lines]
  | cons c line ih =>
    simp only [List.mem_cons, not_or] at h
    simp [lines, Ne.symm h.1, ih h.2]

theorem lines_unterminated (stop : α) (line : List α) (h : stop ∉ line) (hne : line ≠ []) :
    lines stop line = [line] := by
  induction line with
  | nil => contradiction
  | cons c line ih =>
    simp only [List.mem_cons, not_or] at h
    cases line with
    | nil => simp [lines, Ne.symm h.1]
    | cons d line => rw [lines, if_neg (Ne.symm h.1), ih h.2 (by simp)]

/-- Reading all lines loses nothing of the file. -/
theorem flatten_lines (stop : α) (t : List α) : (lines stop t).flatten = t := by
  induction t with
  | nil => rfl
  | cons c t ih =>
    rw [lines]
    split
    · simp [ih]
    · cases hl : lines stop t with
      | nil =>
        rw [hl] at ih
        simp [← ih]
      | cons line more =>
        rw [hl] at ih
        simpa using ih

theorem length_lines_cons (stop c : α) (t : List α) : (lines stop (c :: t)).length =
    if c = stop then (lines stop t).length + 1 else max 1 (lines stop t).length := by
  rw [lines]
  split
  · rfl
  · cases lines stop t with
    | nil => rfl
    | cons line more => simp

/-- Cutting a file short does not make it longer in lines. -/
theorem length_lines_take_le (stop : α) (t : List α) (k : ℕ) :
    (lines stop (t.take k)).length ≤ (lines stop t).length := by
  induction t generalizing k with
  | nil => simp
  | cons c t ih =>
    cases k with
    | zero => simp [lines]
    | succ k =>
      have hrest := ih k
      rw [List.take_succ_cons, length_lines_cons, length_lines_cons]
      split <;> omega

/-- A line is a text without terminator, or one and its terminator. -/
theorem body_of_mem_lines {stop : α} {t line : List α} (h : line ∈ lines stop t) :
    ∃ body, stop ∉ body ∧ (line = body ∨ line = body ++ [stop]) := by
  induction t generalizing line with
  | nil => cases h
  | cons c t ih =>
    rw [lines] at h
    split at h
    · rename_i hc
      rcases List.mem_cons.mp h with rfl | h
      · exact ⟨[], by simp, Or.inr (by rw [hc]; rfl)⟩
      · exact ih h
    · rename_i hc
      have hstop : stop ≠ c := fun heq => hc heq.symm
      cases hl : lines stop t with
      | nil =>
        rw [hl] at h
        rw [List.mem_singleton.mp h]
        exact ⟨[c], by simpa using hstop, Or.inl rfl⟩
      | cons first more =>
        rw [hl] at h ih
        rcases List.mem_cons.mp h with rfl | h
        · obtain ⟨body, hfree, hbody⟩ := ih List.mem_cons_self
          refine ⟨c :: body, by simp [hstop, hfree], ?_⟩
          rcases hbody with rfl | rfl
          · exact Or.inl rfl
          · exact Or.inr rfl
        · exact ih (List.mem_cons_of_mem first h)

/-- The text consists of these lines, the last one with or without its terminator. -/
def ConsistsOf (stop : α) (t : List α) (bodies : List (List α)) : Prop :=
  t = bodies.flatMap (fun body => body ++ [stop]) ∨
    t ++ [stop] = bodies.flatMap (fun body => body ++ [stop])

/-- What does not look at the terminator of a line reads the lines as they were written. -/
theorem map_lines {β : Type*} {stop : α} {read : List α → β}
    (hread : ∀ body, read (body ++ [stop]) = read body) {bodies : List (List α)}
    (hbodies : ∀ body ∈ bodies, stop ∉ body ∧ body ≠ []) {t : List α}
    (h : ConsistsOf stop t bodies) : (lines stop t).map read = bodies.map read := by
  induction bodies generalizing t with
  | nil =>
    rcases h with rfl | h
    · rfl
    · simp at h
  | cons body rest ih =>
    obtain ⟨hfree, hne⟩ := hbodies body List.mem_cons_self
    have hrest : ∀ tail, ConsistsOf stop tail rest →
        (lines stop (body ++ stop :: tail)).map read = read body :: rest.map read := by
      intro tail htail
      rw [lines_terminated stop _ tail hfree, List.map_cons, hread,
        ih (fun b hb => hbodies b (List.mem_cons_of_mem body hb)) htail]
    simp only [ConsistsOf, List.flatMap_cons, List.append_assoc, List.cons_append,
      List.nil_append] at h
    rcases h with rfl | h
    · exact hrest _ (Or.inl rfl)
    · rcases List.eq_nil_or_concat (rest.flatMap (fun b => b ++ [stop])) with
        hnil | ⟨tail, c, hlast⟩
      · -- this line is the last one, and lacks its terminator
        have hnone : rest = [] := by
          cases rest with
          | nil => rfl
          | cons e more => simp at hnil
        rw [hnil] at h
        have ht : t = body := List.append_cancel_right h
        rw [ht, hnone, lines_unterminated stop _ hfree hne]
      · rw [List.concat_eq_append] at hlast
        rw [hlast, ← List.cons_append, ← List.append_assoc] at h
        obtain ⟨ht, hend⟩ := List.append_inj' h rfl
        rw [ht]
        refine hrest tail (Or.inr ?_)
        rw [← hend] at hlast
        exact hlast.symm

end Lines

section Delimited
variable {α : Type*} [DecidableEq α]

/-- No piece of a split contains the delimiter. -/
theorem notMem_of_mem_splitOn (stop : α) (t : List α) :
    ∀ piece ∈ t.splitOn stop, stop ∉ piece := by
  induction t with
  | nil => simp
  | cons c t ih =>
    rw [List.splitOn_cons_eq_if_modifyHead]
    split
    · intro piece hp
      rcases List.mem_cons.mp hp with rfl | hp
      · simp
      · exact ih piece hp
    · rename_i hc
      have hne : stop ≠ c := fun h => hc (by simp [h])
      cases hs : t.splitOn stop with
      | nil => simp
      | cons head tail =>
        rw [hs] at ih
        intro piece hp
        rw [List.modifyHead_cons, List.mem_cons] at hp
        rcases hp with rfl | hp
        · simp [hne, ih head List.mem_cons_self]
        · exact ih piece (List.mem_cons_of_mem _ hp)

/-- The first piece of a split ends where the delimiter stands first. -/
theorem head?_splitOn (stop : α) (t : List α) :
    (t.splitOn stop).head? = some (t.takeWhile (fun c => c ≠ stop)) := by
  induction t with
  | nil => simp
  | cons c t ih =>
    rw [List.splitOn_cons_eq_if_modifyHead]
    by_cases hc : c = stop
    · simp [hc]
    · cases hs : t.splitOn stop with
      | nil => simp [hs] at ih
      | cons head tail =>
        rw [hs, List.head?_cons, Option.some.injEq] at ih
        simp [hc, ih]

/-- Splitting recovers the joined parts exactly when none contains the delimiter. -/
theorem splitOn_intercalate_iff (stop : α) (parts : List (List α)) (hne : parts ≠ []) :
    ([stop].intercalate parts).splitOn stop = parts ↔ ∀ part ∈ parts, stop ∉ part := by
  constructor
  · intro h part hp
    rw [← h] at hp
    exact notMem_of_mem_splitOn stop _ part hp
  · intro h
    exact List.splitOn_intercalate stop h hne

end Delimited
end BinfmtSupport.CText
