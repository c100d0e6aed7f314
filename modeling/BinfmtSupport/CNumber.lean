import BinfmtSupport.CText
import Mathlib.Tactic.NormNum

/-!
strtol and atoi as on a 64-bit GNU system: leading white space and one sign are
skipped, base 16 allows a 0x prefix, the value saturates at the limits of long,
and atoi keeps the low 32 bits of it as a signed number.
-/
namespace BinfmtSupport.CNumber

open CText

def digitValue (base : ℕ) (c : Byte) : Option ℕ :=
  let value := if isdigit c then c.toNat - 48
    else if 97 ≤ c && c ≤ 122 then c.toNat - 87
    else if 65 ≤ c && c ≤ 90 then c.toNat - 55
    else base
  if value < base then some value else none

def isBaseDigit (base : ℕ) (c : Byte) : Bool := (digitValue base c).isSome

def magnitude (base : ℕ) (digits : List Byte) : ℕ :=
  digits.foldl (fun value c => value * base + (digitValue base c).getD 0) 0

def longMax : ℤ := 2 ^ 63 - 1
def longMin : ℤ := -2 ^ 63

/-- Skip an optional sign; the Boolean tells whether it was a minus. -/
def skipSign : List Byte → Bool × List Byte
  | 45 :: rest => (true, rest)
  | 43 :: rest => (false, rest)
  | rest => (false, rest)

/-- In base 16 a 0x counts as a prefix only if a digit follows. -/
def skipPrefix (base : ℕ) (t : List Byte) : List Byte :=
  match t with
  | 48 :: x :: c :: rest =>
      if base = 16 && (x = 120 || x = 88) && isBaseDigit base c then c :: rest else t
  | _ => t

/-- The value and what is left at the end pointer; without digits nothing is read. -/
def strtol (base : ℕ) (t : Text) : ℤ × Text :=
  let (negative, unsigned) := skipSign (t.dropWhile isspace)
  let body := skipPrefix base unsigned
  let digits := body.takeWhile (isBaseDigit base)
  if digits = [] then (0, t)
  else
    let value : ℤ := magnitude base digits
    (if negative then max (-value) longMin else min value longMax,
      body.dropWhile (isBaseDigit base))

def atoi (t : Text) : ℤ := Int.bmod (strtol 10 t).1 (2 ^ 32)

theorem isdigit_iff (c : Byte) : isdigit c = true ↔ 48 ≤ c.toNat ∧ c.toNat ≤ 57 := by
  simp [isdigit, UInt8.le_iff_toNat_le]

theorem isBaseDigit_ten (c : Byte) : isBaseDigit 10 c = isdigit c := by
  unfold isBaseDigit digitValue
  by_cases hc : isdigit c = true
  · have hlt : c.toNat - 48 < 10 := by
      have := (isdigit_iff c).mp hc
      omega
    simp [hc, hlt]
  · have hge : ∀ k, k ≤ 87 → 97 ≤ c.toNat → ¬ c.toNat - k < 10 := by
      intro k hk h
      omega
    simp only [hc, Bool.false_eq_true, if_false]
    split
    · rename_i h
      simp only [Bool.and_eq_true, decide_eq_true_eq, UInt8.le_iff_toNat_le] at h
      simp [hge 87 (by omega) h.1]
    · split
      · rename_i h
        simp only [Bool.and_eq_true, decide_eq_true_eq, UInt8.le_iff_toNat_le] at h
        have h65 : 65 ≤ c.toNat := h.1
        have hnot : ¬ c.toNat - 55 < 10 := by omega
        simp [hnot]
      · simp

theorem skipSign_of_digit (c : Byte) (rest : List Byte) (h : isdigit c = true) :
    skipSign (c :: rest) = (false, c :: rest) := by
  unfold skipSign
  split
  · rename_i heq
    cases heq
    simp [isdigit] at h
  · rename_i heq
    cases heq
    simp [isdigit] at h
  · rfl

/-- A non-empty string of decimal digits is read to its end. -/
theorem strtol_digits (t : Text) (hne : t ≠ []) (h : ∀ c ∈ t, isdigit c = true) :
    (strtol 10 t).1 = min (magnitude 10 t : ℤ) longMax := by
  cases t with
  | nil => contradiction
  | cons c rest =>
    have hc : isdigit c = true := h c List.mem_cons_self
    have hspace : isspace c = false := by
      have hrange := (isdigit_iff c).mp hc
      have h32 : c ≠ space := by
        rintro rfl
        simp [space] at hrange
      have h13 : ¬ c ≤ 13 := by
        rw [UInt8.le_iff_toNat_le]
        simp only [UInt8.reduceToNat]
        omega
      simp [isspace, h32, h13]
    have hdrop : (c :: rest).dropWhile isspace = c :: rest := by simp [hspace]
    have hbegin : skipPrefix 10 (c :: rest) = c :: rest := by
      unfold skipPrefix
      split
      · simp
      · rfl
    have htake : (c :: rest).takeWhile (isBaseDigit 10) = c :: rest := by
      apply List.takeWhile_eq_self_iff.mpr
      intro d hd
      rw [isBaseDigit_ten]
      exact h d hd
    simp only [strtol, hdrop, skipSign_of_digit c rest hc, hbegin, htake]
    simp

/-- atoi of a digit string is non-negative exactly when long can hold the value
and bit 31 of it is clear. -/
theorem atoi_nonneg_iff (t : Text) (hne : t ≠ []) (h : ∀ c ∈ t, isdigit c = true) :
    0 ≤ atoi t ↔ magnitude 10 t < 2 ^ 63 ∧ magnitude 10 t % 2 ^ 32 < 2 ^ 31 := by
  rw [atoi, strtol_digits t hne h, longMax]
  generalize magnitude 10 t = value
  rw [Int.bmod_def]
  split <;> omega

end BinfmtSupport.CNumber
