import Mathlib.Data.Int.ModEq
import Mathlib.Data.Nat.Prime.Defs
import Univariate.CoeffRing.Basic

/-!
# Trial division decides primality

Trial division comes past the square root of an odd number exactly if no smaller factor is in the
way, so that it settles whether the number is prime. The construction of a ring refuses a modulus
that is declared prime exactly if this shows it to be composite.

* `noFactorFrom_iff` compares the loop with the search for the least factor, which goes through the
  same candidates (`Nat.minFacAux`), and `isPrime_iff` is what follows for the test.
* `isPrimeWord` is the same test on machine words, which would break off at a candidate past them.
  It never does (`isPrimeWord_eq`): the loop goes on from candidates up to the square root only.
* `CoeffRing.ofModulus_ends` says how the construction of a ring ends.
-/

namespace Univariate

/-! ## Natural numbers -/

/-- A candidate is tried up to the square root. -/
theorem le_div_self_iff {n i : Nat} (hi : 0 < i) : i ≤ n / i ↔ i * i ≤ n :=
  Nat.le_div_iff_mul_le hi

/-- The loop comes to its end exactly if the least factor from the candidate on is the number. -/
theorem noFactorFrom_iff {n i : Nat} (hi : 2 ≤ i) :
    noFactorFrom n i = true ↔ n.minFacAux i = n := by
  fun_induction noFactorFrom n i with
  | case1 i hle hmod =>
    rw [le_div_self_iff (by omega)] at hle
    have hlt : i < n := (Nat.lt_mul_self_iff.2 hi).trans_le hle
    rw [Nat.minFacAux, if_neg (not_lt.2 hle), if_pos (Nat.dvd_of_mod_eq_zero hmod)]
    exact iff_of_false Bool.false_ne_true hlt.ne
  | case2 i hle hmod ih =>
    rw [le_div_self_iff (by omega)] at hle
    rw [Nat.minFacAux, if_neg (not_lt.2 hle),
      if_neg fun hdvd => hmod (Nat.mod_eq_zero_of_dvd hdvd)]
    exact ih (by omega)
  | case3 i hle =>
    rw [le_div_self_iff (by omega), not_le] at hle
    rw [Nat.minFacAux, if_pos hle]
    exact iff_of_true rfl rfl

/-- Trial division tells the primes from the other numbers. -/
theorem isPrime_iff (n : Nat) : isPrime n = true ↔ n.Prime := by
  rw [isPrime]
  split_ifs with hsmall hfour heven
  · exact iff_of_false id fun hprime => absurd hprime.two_le (by omega)
  · obtain rfl | rfl : n = 2 ∨ n = 3 := by omega
    · exact iff_of_true rfl Nat.prime_two
    · exact iff_of_true rfl Nat.prime_three
  · -- The least factor of an even number is two.
    refine iff_of_false id fun hprime => ?_
    have hfactor := (Nat.prime_def_minFac.1 hprime).2
    rw [Nat.minFac_eq, if_pos (Nat.dvd_of_mod_eq_zero heven)] at hfactor
    omega
  · rw [noFactorFrom_iff (by omega), Nat.prime_def_minFac, Nat.minFac_eq,
      if_neg fun hdvd => heven (Nat.mod_eq_zero_of_dvd hdvd)]
    exact (and_iff_right (by omega)).symm

/-! ## Machine words -/

/-- `noFactorFrom` on machine words. It breaks off, with `none`, where it would divide by zero, and
    where the next candidate is not a machine word. -/
def noFactorFromWord (n i : UInt64) : Option Bool :=
  if i = 0 then none
  else if i ≤ n / i then
    if n % i = 0 then some false
    else if i.toNat + 2 < UInt64.size then noFactorFromWord n (i + 2)
    else none
  else some true
termination_by UInt64.size - i.toNat
decreasing_by
  have := UInt64.toNat_add i 2
  rw [show (2 : UInt64).toNat = 2 from rfl, Nat.mod_eq_of_lt ‹_›] at this
  omega

/-- `isPrime` on machine words. -/
def isPrimeWord (n : UInt64) : Option Bool :=
  if n < 2 then some false
  else if n < 4 then some true
  else if n % 2 = 0 then some false
  else noFactorFromWord n 3

theorem toNat_add_two {i : UInt64} (h : i.toNat + 2 < UInt64.size) :
    (i + 2).toNat = i.toNat + 2 :=
  (UInt64.toNat_add i 2).trans (Nat.mod_eq_of_lt h)

/-- The remainder of words is that of the numbers. -/
theorem mod_eq_zero_iff {n i : UInt64} : n % i = 0 ↔ n.toNat % i.toNat = 0 := by
  rw [← UInt64.toNat_inj, UInt64.toNat_mod]
  rfl

theorem le_div_iff {n i : UInt64} : i ≤ n / i ↔ i.toNat ≤ n.toNat / i.toNat := by
  rw [UInt64.le_iff_toNat_le, UInt64.toNat_div]

/-- The loop does not break off, and finds what it finds among the natural numbers. -/
theorem noFactorFromWord_eq {n i : UInt64} (hi : 0 < i.toNat) :
    noFactorFromWord n i = some (noFactorFrom n.toNat i.toNat) := by
  fun_induction noFactorFromWord n i with
  | case1 => exact absurd hi (Nat.lt_irrefl 0)
  | case2 i _ hle hmod =>
    rw [noFactorFrom, if_pos (le_div_iff.1 hle), if_pos (mod_eq_zero_iff.1 hmod)]
  | case3 i _ hle hmod h ih =>
    rw [ih (by rw [toNat_add_two h]; omega), toNat_add_two h, noFactorFrom.eq_def n.toNat i.toNat,
      if_pos (le_div_iff.1 hle), if_neg (mod_eq_zero_iff.not.1 hmod)]
  | case4 i _ hle hmod h =>
    -- The next candidate is no more than twice past the square root of a machine word.
    have hsquare := (le_div_self_iff hi).1 (le_div_iff.1 hle)
    have hword := n.toNat_lt
    rw [not_lt, show UInt64.size = 2 ^ 64 from rfl] at h
    have hlarge : 2 ^ 63 * 2 ^ 63 ≤ i.toNat * i.toNat := Nat.mul_le_mul (by omega) (by omega)
    omega
  | case5 i _ hle => rw [noFactorFrom, if_neg (le_div_iff.not.1 hle)]

/-- The test does not break off on any machine word, and gives what it gives for the number. -/
theorem isPrimeWord_eq (n : UInt64) : isPrimeWord n = some (isPrime n.toNat) := by
  have htwo : n < 2 ↔ n.toNat < 2 := UInt64.lt_iff_toNat_lt
  have hfour : n < 4 ↔ n.toNat < 4 := UInt64.lt_iff_toNat_lt
  have heven : n % 2 = 0 ↔ n.toNat % 2 = 0 := mod_eq_zero_iff
  rw [isPrimeWord, isPrime, noFactorFromWord_eq (show 0 < (3 : UInt64).toNat by decide)]
  simp only [htwo, hfour, heven]
  split_ifs <;> rfl

/-! ## Rings -/

namespace CoeffRing

/-- The check of a modulus that is declared prime fails for composite machine words. -/
theorem primality_check_iff {m : Int} {prime : Bool} :
    (prime && decide (m < primalityBound) && !isPrime m.toNat) = true ↔
      prime = true ∧ m < 2 ^ 64 ∧ ¬m.toNat.Prime := by
  rw [Bool.and_eq_true, Bool.and_eq_true, decide_eq_true_iff, Bool.not_eq_true', ← isPrime_iff,
    Bool.not_eq_true, and_assoc]
  rfl

/-- Trial division on a machine word ends, without a word that overflows, and finds whether the word
    is prime. Hence a ring is refused for its modulus exactly if this is below two, and as composite
    exactly if the modulus was declared prime, is a machine word from two on, and is not prime. For
    any other modulus there is the ring of the integers modulo it. -/
theorem ofModulus_ends (m : Int) (prime : Bool) :
    (∀ n : UInt64, isPrimeWord n = some (isPrime n.toNat) ∧
        (isPrime n.toNat = true ↔ n.toNat.Prime)) ∧
      (ofModulus m prime = .error (.modulusTooSmall m) ↔ m < 2) ∧
      (ofModulus m prime = .error (.modulusComposite m) ↔
        prime = true ∧ 2 ≤ m ∧ m < 2 ^ 64 ∧ ¬m.toNat.Prime) ∧
      ((∃ h, ofModulus m prime = .ok (.modular m.toNat prime h)) ↔
        2 ≤ m ∧ ¬(prime = true ∧ m < 2 ^ 64 ∧ ¬m.toNat.Prime)) := by
  refine ⟨fun n => ⟨isPrimeWord_eq n, isPrime_iff _⟩, ?_⟩
  rw [ofModulus]
  simp only [primality_check_iff]
  split_ifs with hsmall hcomposite
  · have hnot : ¬2 ≤ m := by omega
    simp [hsmall, hnot]
  · have hle : 2 ≤ m := by omega
    simpa [hsmall, hle] using hcomposite
  · have hle : 2 ≤ m := by omega
    have htwo : 2 ≤ m.toNat := by omega
    simpa [hsmall, hle, htwo] using hcomposite

end CoeffRing

end Univariate
