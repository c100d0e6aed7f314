import Mathlib.NumberTheory.Bertrand

/-!
The sizes of gnulib's hash tables: a wanted number of buckets is rounded up to a prime by
trial division with odd divisors. The square of the divisor is kept up to date by
additions. All numbers are of type size_t and wrap around at 2^64.
-/
namespace BinfmtSupport.Primes

def sizeMax : ℕ := 2 ^ 64 - 1

/-- The while loop of is_prime; what it returns is the divisor that it ends with. -/
def lastDivisor (candidate : ℕ) : ℕ → ℕ → ℕ → ℕ
  | 0, divisor, _ => divisor
  | fuel + 1, divisor, square =>
      if square < candidate && candidate % divisor ≠ 0 then
        lastDivisor candidate fuel (divisor + 2) ((square + 4 * (divisor + 1)) % 2 ^ 64)
      else divisor

/-- The candidate should be an odd number at least equal to 11. The divisor grows with every
turn of the loop, so that there are fewer turns than the candidate counts. -/
def isPrime (candidate : ℕ) : Bool :=
  candidate % lastDivisor candidate candidate 3 9 ≠ 0

def nextPrimeLoop : ℕ → ℕ → ℕ
  | 0, candidate => candidate
  | fuel + 1, candidate =>
      if candidate ≠ sizeMax && !isPrime candidate then nextPrimeLoop fuel (candidate + 2)
      else candidate

/-- Small primes are skipped, and the candidate is made odd. -/
def nextPrime (candidate : ℕ) : ℕ :=
  let candidate := if candidate < 10 then 10 else candidate
  nextPrimeLoop sizeMax (candidate ||| 1)

section TrialDivision

/-- What holds whenever the condition of the loop is evaluated. -/
structure Trial (candidate divisor : ℕ) : Prop where
  odd : divisor % 2 = 1
  three_le : 3 ≤ divisor
  before : divisor = 3 ∨ (divisor - 2) ^ 2 < candidate
  none_smaller : ∀ q, q.Prime → q < divisor → ¬ q ∣ candidate

theorem trial_start {candidate : ℕ} (hodd : candidate % 2 = 1) : Trial candidate 3 := by
  refine ⟨rfl, le_rfl, Or.inl rfl, ?_⟩
  intro q hq hlt hdvd
  have htwo : q = 2 := by
    have := hq.two_le
    omega
  subst htwo
  omega

/-- Between two odd divisors there is only an even number. -/
theorem Trial.next {candidate divisor : ℕ} (h : Trial candidate divisor)
    (hodd : candidate % 2 = 1) (hsquare : divisor ^ 2 < candidate)
    (hmod : candidate % divisor ≠ 0) : Trial candidate (divisor + 2) := by
  have hthree := h.three_le
  have hdivisor := h.odd
  refine ⟨by omega, by omega, Or.inr hsquare, ?_⟩
  intro q hq hlt hdvd
  rcases Nat.lt_or_ge q divisor with hsmall | hlarge
  · exact h.none_smaller q hq hsmall hdvd
  · rcases Nat.eq_or_lt_of_le hlarge with rfl | hgreater
    · exact hmod (Nat.mod_eq_zero_of_dvd hdvd)
    · have heven : 2 ∣ q := by omega
      have := heven.trans hdvd
      omega

/-- Where the loop ends, the divisor is past the square root or divides the candidate. -/
theorem trial_lastDivisor {candidate : ℕ} (hodd : candidate % 2 = 1)
    (hbound : candidate < 2 ^ 63) (fuel : ℕ) {divisor : ℕ} (h : Trial candidate divisor)
    (hfuel : candidate ≤ fuel + divisor) :
    Trial candidate (lastDivisor candidate fuel divisor (divisor ^ 2)) ∧
      (candidate ≤ lastDivisor candidate fuel divisor (divisor ^ 2) ^ 2 ∨
        candidate % lastDivisor candidate fuel divisor (divisor ^ 2) = 0) := by
  induction fuel generalizing divisor with
  | zero =>
    refine ⟨h, Or.inl ?_⟩
    have hthree := h.three_le
    change candidate ≤ divisor ^ 2
    nlinarith
  | succ fuel ih =>
    rw [lastDivisor]
    by_cases hcond : divisor ^ 2 < candidate ∧ candidate % divisor ≠ 0
    · rw [if_pos (by simpa using hcond)]
      have hsquare : (divisor ^ 2 + 4 * (divisor + 1)) % 2 ^ 64 = (divisor + 2) ^ 2 := by
        have hroot : divisor < 2 ^ 32 := by
          by_contra hlarge
          have := Nat.pow_le_pow_left (Nat.le_of_not_lt hlarge) 2
          omega
        rw [Nat.mod_eq_of_lt (by omega)]
        ring
      rw [hsquare]
      exact ih (h.next hodd hcond.1 hcond.2) (by omega)
    · rw [if_neg (by simpa using hcond)]
      refine ⟨h, ?_⟩
      by_cases hsquare : divisor ^ 2 < candidate
      · exact Or.inr (by simpa [hsquare] using hcond)
      · exact Or.inl (Nat.le_of_not_lt hsquare)

/-- Trial division decides whether an odd number is prime, as long as no square wraps
around. -/
theorem isPrime_iff {candidate : ℕ} (hodd : candidate % 2 = 1) (heleven : 11 ≤ candidate)
    (hbound : candidate < 2 ^ 63) : isPrime candidate = true ↔ candidate.Prime := by
  obtain ⟨htrial, hend⟩ := trial_lastDivisor hodd hbound candidate (trial_start hodd)
    (by omega)
  rw [isPrime, decide_eq_true_eq]
  change candidate % lastDivisor candidate candidate 3 (3 ^ 2) ≠ 0 ↔ _
  generalize lastDivisor candidate candidate 3 (3 ^ 2) = divisor at htrial hend ⊢
  have hthree := htrial.three_le
  constructor
  · intro hmod
    have hpast : candidate ≤ divisor ^ 2 := hend.resolve_right hmod
    by_contra hprime
    have hmin := Nat.minFac_sq_le_self (by omega) hprime
    have hne : candidate.minFac ≠ divisor := by
      intro heq
      exact hmod (Nat.mod_eq_zero_of_dvd (heq ▸ Nat.minFac_dvd candidate))
    have hlt : candidate.minFac < divisor := by
      refine lt_of_le_of_ne ?_ hne
      by_contra hgreater
      have := Nat.pow_lt_pow_left (Nat.lt_of_not_le hgreater) (two_ne_zero)
      omega
    exact htrial.none_smaller _ (Nat.minFac_prime (by omega)) hlt (Nat.minFac_dvd candidate)
  · intro hprime hmod
    have hdvd := Nat.dvd_of_mod_eq_zero hmod
    rcases (Nat.dvd_prime hprime).mp hdvd with rfl | rfl
    · omega
    · -- the loop has passed the square root long before it comes to the candidate itself
      rcases htrial.before with hstart | hbefore
      · omega
      · have hpow : (divisor - 2) * 2 ≤ (divisor - 2) ^ 2 := by
          rw [sq]
          exact Nat.mul_le_mul_left _ (by omega)
        omega

end TrialDivision

section RoundingUp

theorem or_one (n : ℕ) : n ||| 1 = 2 * (n / 2) + 1 := by
  apply Nat.eq_of_testBit_eq
  intro i
  cases i with
  | zero => simp [Nat.testBit_zero]
  | succ i =>
    rw [Nat.testBit_succ, Nat.testBit_succ, Nat.or_div_two]
    congr 1
    rw [Nat.or_zero]
    omega

/-- The loop goes no further than to a prime that is known to be ahead. -/
theorem nextPrimeLoop_spec (fuel : ℕ) {candidate p : ℕ} (hodd : candidate % 2 = 1)
    (heleven : 11 ≤ candidate) (hp : p.Prime) (hle : candidate ≤ p) (hbound : p < 2 ^ 63)
    (hfuel : p ≤ fuel + candidate) :
    (nextPrimeLoop fuel candidate).Prime ∧ candidate ≤ nextPrimeLoop fuel candidate ∧
      ∀ q, q.Prime → candidate ≤ q → nextPrimeLoop fuel candidate ≤ q := by
  induction fuel generalizing candidate with
  | zero =>
    have heq : candidate = p := by omega
    subst heq
    exact ⟨hp, le_rfl, fun q _ hq => hq⟩
  | succ fuel ih =>
    rw [nextPrimeLoop]
    have hmax : candidate ≠ sizeMax := by
      unfold sizeMax
      omega
    by_cases hprime : candidate.Prime
    · rw [if_neg (by simp [(isPrime_iff hodd heleven (by omega)).mpr hprime])]
      exact ⟨hprime, le_rfl, fun q _ hq => hq⟩
    · have hfalse : isPrime candidate = false := by
        rw [Bool.eq_false_iff]
        exact fun h => hprime ((isPrime_iff hodd heleven (by omega)).mp h)
      rw [if_pos (by simp [hmax, hfalse])]
      -- a prime that is not the candidate is odd, so that it is not the next number either
      have hahead : ∀ q, q.Prime → candidate ≤ q → candidate + 2 ≤ q := by
        intro q hq hge
        have hne : q ≠ candidate := by
          rintro rfl
          exact hprime hq
        rcases hq.eq_two_or_odd with rfl | hqodd
        · omega
        · omega
      obtain ⟨hres, hlow, hleast⟩ := ih (by omega) (by omega) (hahead p hp hle) (by omega)
      exact ⟨hres, by omega, fun q hq hge => hleast q hq (hahead q hq hge)⟩

theorem nextPrimeLoop_ge (fuel candidate : ℕ) : candidate ≤ nextPrimeLoop fuel candidate := by
  induction fuel generalizing candidate with
  | zero => exact le_rfl
  | succ fuel ih =>
    rw [nextPrimeLoop]
    split
    · have := ih (candidate + 2)
      omega
    · exact le_rfl

/-- Whatever is asked for, there are buckets. -/
theorem nextPrime_ge (candidate : ℕ) :
    11 ≤ nextPrime candidate ∧ candidate ≤ nextPrime candidate := by
  rw [nextPrime]
  have hloop := nextPrimeLoop_ge sizeMax ((if candidate < 10 then 10 else candidate) ||| 1)
  rw [or_one] at hloop ⊢
  split at hloop <;> rename_i hten
  · rw [if_pos hten]
    omega
  · rw [if_neg hten]
    omega

/-- The table size is the least prime that is large enough, small primes left out; the search
for it ends before any number wraps around. -/
theorem nextPrime_least (candidate : ℕ) (hbound : candidate < 2 ^ 62) :
    (nextPrime candidate).Prime ∧ max candidate 11 ≤ nextPrime candidate ∧
      (∀ q, q.Prime → max candidate 11 ≤ q → nextPrime candidate ≤ q) ∧
      nextPrime candidate ≤ 2 * max candidate 11 := by
  obtain ⟨p, hp, hlt, hle⟩ := Nat.exists_prime_lt_and_le_two_mul (max candidate 11) (by omega)
  have hge := nextPrime_ge candidate
  obtain ⟨hstart, hodd, hcover⟩ : 11 ≤ ((if candidate < 10 then 10 else candidate) ||| 1) ∧
      ((if candidate < 10 then 10 else candidate) ||| 1) % 2 = 1 ∧
      ∀ q, q.Prime → max candidate 11 ≤ q →
        ((if candidate < 10 then 10 else candidate) ||| 1) ≤ q := by
    rw [or_one]
    refine ⟨by split <;> omega, by omega, ?_⟩
    intro q hq hmax
    rcases hq.eq_two_or_odd with rfl | hqodd
    · omega
    · split <;> omega
  have hspec := nextPrimeLoop_spec sizeMax hodd hstart hp (hcover p hp (by omega))
    (by omega) (by unfold sizeMax; omega)
  have hleast : ∀ q, q.Prime → max candidate 11 ≤ q → nextPrime candidate ≤ q :=
    fun q hq hmax => hspec.2.2 q hq (hcover q hq hmax)
  refine ⟨hspec.1, by omega, hleast, ?_⟩
  have := hleast p hp (by omega)
  omega

end RoundingUp
end BinfmtSupport.Primes
