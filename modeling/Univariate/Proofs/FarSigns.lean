import Mathlib.Algebra.Order.BigOperators.Ring.Finset
import Univariate.Proofs.Evaluation

/-!
# Signs far out

At an integer that is larger, in absolute value, than all the coefficients of a polynomial together,
the leading term outweighs the other terms together. Its sign is then the sign of the value, and the
signs toward plus and minus infinity are what it is on either side.

* `abs_sum_mul_pow_lt` is the bound on the other terms, and `sign_add_of_abs_lt` says what is
  outweighed.
* `Buffer.signAt_eq` is the sign of the value far out, and `Buffer.signAtMinusInfinity_eq` writes
  the sign toward minus infinity in the same way, without its cases.
* `Buffer.signs_far_out` puts it together.
-/

namespace Univariate

open Finset

/-- Where the coefficients together are less than `x`, the terms below `x ^ n` together are less
    than it. -/
theorem abs_sum_mul_pow_lt {c : Nat → Int} {n : Nat} {x : Int}
    (hx : ∑ i ∈ range n, |c i| < |x|) : |∑ i ∈ range n, c i * x ^ i| < |x| ^ n := by
  have hpos : 0 < |x| := (sum_nonneg fun i _ => abs_nonneg (c i)).trans_lt hx
  -- Even multiplied by `x`, none of the powers below `x ^ n` exceeds it.
  have hterm : ∀ i ∈ range n, |x| * |c i * x ^ i| ≤ |c i| * |x| ^ n := by
    intro i hi
    rw [abs_mul, abs_pow, mul_left_comm, ← pow_succ']
    exact mul_le_mul_of_nonneg_left (pow_le_pow_right₀ hpos (mem_range.1 hi)) (abs_nonneg _)
  refine lt_of_mul_lt_mul_left ?_ hpos.le
  calc |x| * |∑ i ∈ range n, c i * x ^ i|
      ≤ |x| * ∑ i ∈ range n, |c i * x ^ i| :=
        mul_le_mul_of_nonneg_left (abs_sum_le_sum_abs _ _) hpos.le
    _ = ∑ i ∈ range n, |x| * |c i * x ^ i| := mul_sum ..
    _ ≤ ∑ i ∈ range n, |c i| * |x| ^ n := sum_le_sum hterm
    _ = (∑ i ∈ range n, |c i|) * |x| ^ n := (sum_mul ..).symm
    _ < |x| * |x| ^ n := mul_lt_mul_of_pos_right hx (pow_pos hpos n)

/-- A sum has the sign of the summand that outweighs the other one. -/
theorem sign_add_of_abs_lt {a b : Int} (h : |b| < |a|) : (b + a).sign = a.sign := by
  rcases lt_trichotomy a 0 with ha | rfl | ha
  · rw [abs_of_neg ha, abs_lt] at h
    rw [Int.sign_eq_neg_one_of_neg ha, Int.sign_eq_neg_one_of_neg (by omega)]
  · exact absurd h (not_lt.2 (abs_zero.trans_le (abs_nonneg b)))
  · rw [abs_of_pos ha, abs_lt] at h
    rw [Int.sign_eq_one_of_pos ha, Int.sign_eq_one_of_pos (by omega)]

theorem sign_mul_pow (c x : Int) (n : Nat) : (c * x ^ n).sign = c.sign * x.sign ^ n := by
  induction n with
  | zero => rw [pow_zero, pow_zero, mul_one, mul_one]
  | succ n ih => rw [pow_succ, pow_succ, ← mul_assoc, ← mul_assoc, Int.sign_mul, ih]

namespace Buffer

variable {t : Buffer} {x : Int}

/-- A trimmed buffer whose leading coefficient is zero holds the constant zero. -/
theorem Trimmed.degree_eq_zero (h : t.Trimmed) (hzero : t.leading = 0) : t.degree = 0 := by
  rcases h with hone | hne
  · rw [degree, hone]
  · exact absurd hzero hne

/-- Far out, the value has the sign of the leading term. -/
theorem signAt_eq (h : t.WellFormed) (htrimmed : t.Trimmed)
    (hx : (t.coefficients.map (|·|)).sum < |x|) :
    t.signAt x = t.leading.sign * x.sign ^ t.degree := by
  have hsum : (t.coefficients.map (|·|)).sum = ∑ i ∈ range t.size, |t.slot i| := by
    rw [h.coefficients_eq, List.map_map]
    rfl
  rw [hsum, ← h.degree_add_one, sum_range_succ] at hx
  rw [signAt, h.evaluate_eq_sum, ← h.degree_add_one, sum_range_succ, ← leading, ← sign_mul_pow]
  by_cases hzero : t.leading = 0
  · rw [htrimmed.degree_eq_zero hzero, sum_range_zero, zero_add]
  · refine sign_add_of_abs_lt ?_
    have hlead : 1 ≤ |t.leading| := Int.one_le_abs hzero
    calc |∑ i ∈ range t.degree, t.slot i * x ^ i|
        < |x| ^ t.degree :=
          abs_sum_mul_pow_lt ((le_add_of_nonneg_right (abs_nonneg _)).trans_lt hx)
      _ ≤ |t.leading| * |x| ^ t.degree :=
          le_mul_of_one_le_left (pow_nonneg (abs_nonneg x) _) hlead
      _ = |t.leading * x ^ t.degree| := by rw [abs_mul, abs_pow]

/-- Toward minus infinity, the sign is that of the leading term at `-1`. -/
theorem signAtMinusInfinity_eq (t : Buffer) :
    t.signAtMinusInfinity = t.leading.sign * (-1) ^ t.degree := by
  rw [signAtMinusInfinity, signAtPlusInfinity]
  split_ifs with hz heven
  · obtain ⟨hsize, hslot⟩ := isZero_iff.1 hz
    rw [leading, degree, hsize, hslot, Int.sign_zero, zero_mul]
  · rw [(Nat.even_iff.2 heven).neg_one_pow, mul_one]
  · rw [(Nat.not_even_iff_odd.1 (mt Nat.even_iff.1 heven)).neg_one_pow, mul_neg_one]

/-- Let a trimmed buffer be evaluated at an integer that is larger, in absolute value, than the
    absolute values of its coefficients together. The sign of the value is the one toward plus
    infinity if the integer is positive, and the one toward minus infinity if it is negative. -/
theorem signs_far_out (h : t.WellFormed) (htrimmed : t.Trimmed)
    (hx : (t.coefficients.map (|·|)).sum < |x|) :
    (0 < x → t.signAt x = t.signAtPlusInfinity) ∧
      (x < 0 → t.signAt x = t.signAtMinusInfinity) := by
  rw [signAt_eq h htrimmed hx]
  refine ⟨fun hpos => ?_, fun hneg => ?_⟩
  · rw [Int.sign_eq_one_of_pos hpos, one_pow, mul_one, signAtPlusInfinity]
  · rw [Int.sign_eq_neg_one_of_neg hneg, signAtMinusInfinity_eq]

/-- The coefficients of `-x ^ 3 + 4 x ^ 2 - 1`, of absolute value `6` together, let the sign be
    negative at `7` and positive at `-7`. Nearer, at `3`, it is still positive. -/
theorem signs_far_out_seven :
    let t : Buffer := ⟨4, #[-1, 0, 4, -1, 0]⟩
    t.signAt 7 = -1 ∧ t.signAt (-7) = 1 ∧ t.signAt 3 = 1 := by
  intro t
  have ht : t.WellFormed := by decide +kernel
  have htrimmed : t.Trimmed := .inr (by decide)
  refine ⟨?_, ?_, by decide⟩
  · exact ((signs_far_out (x := 7) ht htrimmed (by decide)).1 (by decide)).trans (by decide)
  · exact ((signs_far_out (x := -7) ht htrimmed (by decide)).2 (by decide)).trans (by decide)

end Buffer

end Univariate
