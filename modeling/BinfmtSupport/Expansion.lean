import BinfmtSupport.Find
import BinfmtSupport.Unescape

/-!
expand_hex, the reader of magics and masks. It leaves to strtol what a hexadecimal number
of two characters is, and strtol also takes one digit behind white space or behind a sign.
On all other texts the escapes are those that the manual describes. The loop by positions
in the string is the one of the source; it does what the reader by characters does.
-/
namespace BinfmtSupport.Expansion

open CText CNumber Find Unescape

def isxdigit (c : Byte) : Bool := isdigit c || (97 ≤ c && c ≤ 102) || (65 ≤ c && c ≤ 70)

def hexDigit (c : Byte) : ℕ :=
  if isdigit c then c.toNat - 48 else if 97 ≤ c then c.toNat - 87 else c.toNat - 55

def isSign (c : Byte) : Bool := c = 43 || c = 45

def isLoose (high low : Byte) : Bool := (isspace high || isSign high) && isxdigit low

def hexPair (high low : Byte) : Option Byte :=
  if isxdigit high && isxdigit low then some (UInt8.ofNat (16 * hexDigit high + hexDigit low))
  else none

section Digits

theorem digitValue_sixteen (c : Byte) :
    digitValue 16 c = if isxdigit c then some (hexDigit c) else none := by
  unfold digitValue hexDigit isxdigit isdigit
  simp only [UInt8.le_iff_toNat_le, Bool.and_eq_true, Bool.or_eq_true, decide_eq_true_eq,
    UInt8.reduceToNat]
  split_ifs <;> first | rfl | omega

theorem isBaseDigit_sixteen (c : Byte) : isBaseDigit 16 c = isxdigit c := by
  rw [isBaseDigit, digitValue_sixteen]
  cases isxdigit c <;> rfl

theorem hexDigit_lt {c : Byte} (h : isxdigit c = true) : hexDigit c < 16 := by
  have hvalue := digitValue_sixteen c
  rw [if_pos h] at hvalue
  obtain ⟨hlt, heq⟩ := Option.ite_none_right_eq_some.mp hvalue
  rwa [Option.some.inj heq] at hlt

/-- A digit is no white space, no sign and no backslash. -/
theorem isxdigit_ne {c : Byte} (h : isxdigit c = true) :
    isspace c = false ∧ isSign c = false ∧ c ≠ backslash := by
  unfold isxdigit isdigit at h
  simp only [UInt8.le_iff_toNat_le, Bool.and_eq_true, Bool.or_eq_true, decide_eq_true_eq,
    UInt8.reduceToNat] at h
  refine ⟨?_, ?_, ?_⟩
  · have h32 : c ≠ space := by
      rintro rfl
      simp [space] at h
    have h13 : ¬ c ≤ 13 := by
      rw [UInt8.le_iff_toNat_le]
      simp only [UInt8.reduceToNat]
      omega
    simp [isspace, h32, h13]
  · unfold isSign
    simp only [Bool.or_eq_false_iff, decide_eq_false_iff_not]
    constructor <;> rintro rfl <;> simp at h
  · rintro rfl
    simp [backslash] at h

end Digits

section Strtol

theorem skipSign_of_plain {c : Byte} (h : isSign c = false) (rest : List Byte) :
    skipSign (c :: rest) = (false, c :: rest) := by
  unfold skipSign
  split
  · rename_i heq
    cases heq
    cases h
  · rename_i heq
    cases heq
    cases h
  · rfl

/-- Two digits are read to their end. -/
theorem escape_digits {high low : Byte} (hhigh : isxdigit high = true)
    (hlow : isxdigit low = true) :
    escape high low = some (UInt8.ofNat (16 * hexDigit high + hexDigit low)) := by
  obtain ⟨hspace, hsign, -⟩ := isxdigit_ne hhigh
  have hlt := hexDigit_lt hhigh
  have hlt' := hexDigit_lt hlow
  have hread : strtol 16 [high, low] =
      (((16 * hexDigit high + hexDigit low : ℕ) : ℤ), []) := by
    have hdrop : [high, low].dropWhile isspace = [high, low] := by simp [hspace]
    have hdigits : [high, low].takeWhile (isBaseDigit 16) = [high, low] := by
      simp [isBaseDigit_sixteen, hhigh, hlow]
    have hrest : [high, low].dropWhile (isBaseDigit 16) = [] := by
      simp [isBaseDigit_sixteen, hhigh, hlow]
    have hmag : magnitude 16 [high, low] = 16 * hexDigit high + hexDigit low := by
      simp [magnitude, digitValue_sixteen, hhigh, hlow]
      omega
    simp only [strtol, hdrop, skipSign_of_plain hsign, skipPrefix, hdigits, hrest, hmag, longMax]
    rw [if_neg (List.cons_ne_nil _ _)]
    simp only [Bool.false_eq_true, if_false, Prod.mk.injEq, and_true]
    omega
  rw [escape, hread]
  simp only
  congr 2
  omega

/-- Of a text that is not empty strtol takes everything if what is left behind the white
space and the sign is a number of digits. -/
theorem strtol_end_iff {t : Text} (ht : t ≠ []) (body : List Byte)
    (hbody : skipPrefix 16 (skipSign (t.dropWhile isspace)).2 = body) :
    (strtol 16 t).2 = [] ↔ body ≠ [] ∧ ∀ c ∈ body, isxdigit c = true := by
  have hend : (strtol 16 t).2 = if body.takeWhile (isBaseDigit 16) = [] then t
      else body.dropWhile (isBaseDigit 16) := by
    subst hbody
    simp only [strtol]
    split <;> rfl
  rw [hend]
  cases body with
  | nil => simp [ht]
  | cons c rest =>
    by_cases hc : isxdigit c = true
    · have htake : (c :: rest).takeWhile (isBaseDigit 16) ≠ [] := by
        simp [isBaseDigit_sixteen, hc]
      rw [if_neg htake, List.dropWhile_eq_nil_iff]
      simp [isBaseDigit_sixteen]
    · have htake : (c :: rest).takeWhile (isBaseDigit 16) = [] := by
        simp [isBaseDigit_sixteen, hc]
      rw [if_pos htake]
      simp [ht, hc]

theorem skipSign_of_sign {c : Byte} (h : isSign c = true) (rest : List Byte) :
    (skipSign (c :: rest)).2 = rest := by
  unfold isSign at h
  simp only [Bool.or_eq_true, decide_eq_true_eq] at h
  rcases h with rfl | rfl <;> rfl

/-- What is left of two characters, the second of which is a digit. -/
theorem body_of_digit {high low : Byte} (hlow : isxdigit low = true) :
    skipPrefix 16 (skipSign ([high, low].dropWhile isspace)).2 =
      if (isspace high || isSign high) = true then [low] else [high, low] := by
  obtain ⟨hspace, hsign, -⟩ := isxdigit_ne hlow
  by_cases hs : isspace high = true
  · simp [hs, hspace, skipSign_of_plain hsign, skipPrefix]
  · by_cases hg : isSign high = true
    · simp [hs, hg, skipSign_of_sign hg, skipPrefix]
    · simp [hs, hg, skipSign_of_plain (Bool.eq_false_iff.mpr hg), skipPrefix]

/-- Unless nothing is left of two characters, the second is. -/
theorem mem_body (high low : Byte) :
    skipPrefix 16 (skipSign ([high, low].dropWhile isspace)).2 = [] ∨
      low ∈ skipPrefix 16 (skipSign ([high, low].dropWhile isspace)).2 := by
  by_cases hs : isspace high = true
  · by_cases hs' : isspace low = true
    · simp [hs, hs', skipSign, skipPrefix]
    · by_cases hg : isSign low = true
      · simp [hs, hs', skipSign_of_sign hg, skipPrefix]
      · simp [hs, hs', skipSign_of_plain (Bool.eq_false_iff.mpr hg), skipPrefix]
  · by_cases hg : isSign high = true
    · simp [hs, skipSign_of_sign hg, skipPrefix]
    · simp [hs, skipSign_of_plain (Bool.eq_false_iff.mpr hg), skipPrefix]

/-- The pairs that strtol takes: two digits, or one behind white space or a sign. -/
theorem escape_isSome (high low : Byte) : (escape high low).isSome = true ↔
    (isxdigit high && isxdigit low) = true ∨ isLoose high low = true := by
  have hsome : (escape high low).isSome = true ↔ (strtol 16 [high, low]).2 = [] := by
    unfold escape
    split
    · rename_i heq
      simp [heq]
    · rename_i hne
      refine iff_of_false (by simp) (fun hnil => ?_)
      exact hne (strtol 16 [high, low]).1 (Prod.ext rfl hnil)
  rw [hsome, strtol_end_iff (List.cons_ne_nil high [low]) _ rfl]
  unfold isLoose
  by_cases hlow : isxdigit low = true
  · rw [body_of_digit hlow]
    split
    · rename_i hloose
      simp [hlow, hloose]
    · rename_i hloose
      simp [hlow, hloose]
  · refine iff_of_false (fun hall => ?_) (by simp [hlow])
    rcases mem_body high low with hnil | hmem
    · exact hall.1 hnil
    · exact hlow (hall.2 low hmem)

/-- Only the loose pairs are read in another way than the manual says. -/
theorem hexPair_eq_escape_iff (high low : Byte) :
    hexPair high low = escape high low ↔ isLoose high low = false := by
  have hsome := escape_isSome high low
  by_cases hdigits : (isxdigit high && isxdigit low) = true
  · have hboth := hdigits
    rw [Bool.and_eq_true] at hboth
    obtain ⟨hspace, hsign, -⟩ := isxdigit_ne hboth.1
    rw [hexPair, if_pos hdigits, escape_digits hboth.1 hboth.2]
    simp [isLoose, hspace, hsign]
  · rw [hexPair, if_neg hdigits, eq_comm, ← Option.not_isSome_iff_eq_none, hsome]
    simp [hdigits]

end Strtol

section Readers

/-- The escapes of the manual: a backslash, an x and two hexadecimal digits. -/
def hexEscapes : Escapes backslash where
  value := hexPair
  plain := by
    intro high low h
    unfold hexPair at h
    split at h
    · rename_i hdigits
      rw [Bool.and_eq_true] at hdigits
      exact ⟨(isxdigit_ne hdigits.1).2.2, (isxdigit_ne hdigits.2).2.2⟩
    · cases h

def strtolEscapes : Escapes backslash where
  value := escape
  plain := by
    intro high low h
    rcases (escape_isSome high low).mp h with hdigits | hloose
    · rw [Bool.and_eq_true] at hdigits
      exact ⟨(isxdigit_ne hdigits.1).2.2, (isxdigit_ne hdigits.2).2.2⟩
    · rw [isLoose, Bool.and_eq_true] at hloose
      refine ⟨?_, (isxdigit_ne hloose.2).2.2⟩
      rintro rfl
      exact absurd hloose.1 (by decide)

theorem hexEscapes_extends : hexEscapes.Extends strtolEscapes := by
  intro high low c h
  change hexPair high low = some c at h
  change escape high low = some c
  unfold hexPair at h
  split at h
  · rename_i hdigits
    rw [Bool.and_eq_true] at hdigits
    rw [escape_digits hdigits.1 hdigits.2, h]
  · cases h

/-- What the manual says that a byte sequence stands for. -/
def replaceHex (t : Text) : List Byte := scan 120 hexEscapes t

theorem expandHex_eq_scan (t : Text) : expandHex t = scan 120 strtolEscapes t := by
  fun_induction expandHex t with
  | case1 a x high low rest hbegin byte hbyte ih =>
    simp only [Bool.and_eq_true, decide_eq_true_eq] at hbegin
    obtain ⟨rfl, rfl⟩ := hbegin
    rw [scan_escape 120 strtolEscapes hbyte, ih]
  | case2 a x high low rest hbegin hnone ih =>
    simp only [Bool.and_eq_true, decide_eq_true_eq] at hbegin
    rw [scan, if_pos hbegin, show strtolEscapes.value high low = none from hnone, ih]
  | case3 a x high low rest hbegin ih =>
    simp only [Bool.and_eq_true, decide_eq_true_eq] at hbegin
    rw [scan, if_neg hbegin, ih]
  | case4 c rest hshort ih =>
    rw [scan, ih]
    exact hshort
  | case5 => rw [scan]

/-- The returned string is always no longer than the original. -/
theorem length_expandHex_le (t : Text) : (expandHex t).length ≤ t.length := by
  rw [expandHex_eq_scan]
  exact length_scan_le (by decide) strtolEscapes t

/-- The two readers differ on the texts with a loose escape. -/
theorem replaceHex_eq_expandHex_iff (t : Text) : replaceHex t = expandHex t ↔
    ∀ high low, [backslash, 120, high, low] <:+: t → isLoose high low = false := by
  rw [expandHex_eq_scan, replaceHex, scan_eq_scan_iff (by decide) hexEscapes_extends]
  exact forall₂_congr (fun high low => imp_congr_right
    (fun _ => hexPair_eq_escape_iff high low))

end Readers

section Loop

def charAt (str : Text) (s : ℕ) : Byte := str.getD s 0

/-- The loop of expand_hex, with the position of s and what is written so far. -/
def expandLoop (str : Text) : ℕ → ℕ → List Byte → List Byte
  | 0, _, new => new
  | rounds + 1, s, new =>
      if charAt str s = 0 then new
      else if s + 4 ≤ str.length && charAt str s = backslash && charAt str (s + 1) = 120 then
        match escape (charAt str (s + 2)) (charAt str (s + 3)) with
        | some byte => expandLoop str rounds (s + 4) (new ++ [byte])
        | none => expandLoop str rounds (s + 1) (new ++ [charAt str s])
      else expandLoop str rounds (s + 1) (new ++ [charAt str s])

/-- The new string and the number of bytes in it, p - new. -/
def expandHexResult (str : Text) : List Byte × ℕ :=
  let new := expandLoop str (str.length + 1) 0 []
  (new, new.length)

theorem charAt_add (str : Text) (s i : ℕ) : charAt str (s + i) = (str.drop s).getD i 0 := by
  simp [charAt, List.getD_eq_getElem?_getD]

/-- The loop reads what lies before it as the reader by characters does. -/
theorem expandLoop_eq {str : Text} (hfree : NulFree str) (rounds s : ℕ) (new : List Byte)
    (hrounds : str.length < s + rounds) :
    expandLoop str rounds s new = new ++ expandHex (str.drop s) := by
  induction rounds generalizing s new with
  | zero =>
    have hdone : str.drop s = [] := List.drop_eq_nil_of_le (by omega)
    rw [expandLoop, hdone, expandHex, List.append_nil]
  | succ rounds ih =>
    have hlen : (str.drop s).length = str.length - s := List.length_drop
    have hchar := charAt_add str s
    have hnext : str.drop (s + 1) = (str.drop s).drop 1 := by rw [List.drop_drop]
    have hskip : str.drop (s + 4) = (str.drop s).drop 4 := by rw [List.drop_drop]
    rw [expandLoop]
    cases hrest : str.drop s with
    | nil =>
      have hstop : charAt str s = 0 := by simpa [hrest] using hchar 0
      rw [if_pos hstop, expandHex, List.append_nil]
    | cons c more =>
      rw [hrest] at hlen hchar hnext hskip
      have hc : charAt str s = c := by simpa using hchar 0
      have hne : ¬ charAt str s = 0 := by
        intro h0
        have hmem : c ∈ str := List.mem_of_mem_drop (hrest ▸ List.mem_cons_self)
        rw [hc] at h0
        exact hfree (h0 ▸ hmem)
      have hcopy := ih (s + 1) (new ++ [c]) (by omega)
      rw [hnext] at hcopy
      rw [if_neg hne, hc, hcopy]
      -- the guard by positions holds where three characters follow
      by_cases hfour : s + 4 ≤ str.length
      · obtain ⟨x, high, low, rest, rfl⟩ : ∃ x high low rest, more = x :: high :: low :: rest := by
          rcases more with _ | ⟨x, _ | ⟨high, _ | ⟨low, rest⟩⟩⟩
          · simp only [List.length_cons, List.length_nil] at hlen
            omega
          · simp only [List.length_cons, List.length_nil] at hlen
            omega
          · simp only [List.length_cons, List.length_nil] at hlen
            omega
          · exact ⟨x, high, low, rest, rfl⟩
        have h1 : charAt str (s + 1) = x := by simpa using hchar 1
        have h2 : charAt str (s + 2) = high := by simpa using hchar 2
        have h3 : charAt str (s + 3) = low := by simpa using hchar 3
        have hpass := fun byte => ih (s + 4) (new ++ [byte]) (by omega)
        rw [hskip] at hpass
        rw [h1, h2, h3, expandHex]
        simp only [hfour, decide_true, Bool.true_and, hpass, List.drop_succ_cons, List.drop_zero,
          List.append_assoc, List.cons_append, List.nil_append]
        split
        · cases escape high low <;> rfl
        · rfl
      · have hcut : ∀ x high low rest, more = x :: high :: low :: rest → False := by
          rintro x high low rest rfl
          simp only [List.length_cons] at hlen
          omega
        rw [expandHex.eq_2 c more hcut]
        simp [hfour]

theorem expandHexResult_eq {str : Text} (hfree : NulFree str) :
    expandHexResult str = (expandHex str, (expandHex str).length) := by
  have hloop := expandLoop_eq hfree (str.length + 1) 0 [] (by omega)
  rw [List.drop_zero, List.nil_append] at hloop
  rw [expandHexResult, hloop]

end Loop

/-- expand_hex replaces the escapes of the manual, and no others, exactly in the strings
where no escape has one digit behind white space or a sign. -/
theorem expandHexResult_iff (str : Text) (hfree : NulFree str) :
    expandHexResult str = (replaceHex str, (replaceHex str).length) ↔
      ∀ high low, [backslash, 120, high, low] <:+: str → isLoose high low = false := by
  rw [expandHexResult_eq hfree, ← replaceHex_eq_expandHex_iff, Prod.mk.injEq]
  constructor
  · rintro ⟨hbytes, -⟩
    exact hbytes.symm
  · intro hbytes
    rw [hbytes]
    exact ⟨rfl, rfl⟩

/-- A magic with one escape and a backslash that begins none. -/
theorem expandHexResult_elf : expandHexResult (text "\\x7fELF\\y") =
      (replaceHex (text "\\x7fELF\\y"), (replaceHex (text "\\x7fELF\\y")).length) ↔
    ∀ high low, [backslash, 120, high, low] <:+: text "\\x7fELF\\y" →
      isLoose high low = false :=
  expandHexResult_iff (text "\\x7fELF\\y") (by decide)

/-- The digit behind a sign counts as a byte, though the escape has no two digits. -/
theorem loose_escape : NulFree (text "A\\x+1B") ∧
    expandHexResult (text "A\\x+1B") = ([65, 1, 66], 3) ∧
    replaceHex (text "A\\x+1B") = text "A\\x+1B" ∧
    expandHexResult (text "A\\x+1B") ≠
      (replaceHex (text "A\\x+1B"), (replaceHex (text "A\\x+1B")).length) := by
  decide +kernel

end BinfmtSupport.Expansion
