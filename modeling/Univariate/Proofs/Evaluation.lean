import Mathlib.Algebra.Polynomial.Eval.Degree
import Univariate.Buffer.Evaluation
import Univariate.Proofs.EliminationAgreement
import Univariate.Proofs.LeadingCoefficients
import Univariate.Proofs.Outcomes

/-!
# Values

Horner's rule evaluates the polynomial in a buffer over the integers. In a ring, its value stands
for that of the image. By the remainder theorem, this is also what any of the divisions leaves, of
the polynomial by `x - a`.

* `Buffer.WellFormed.evaluate_eq_sum` writes the value as a sum over the significant slots, and
  `Buffer.WellFormed.cast_evaluate` as the value of the image.
* `Poly.linear` is the divisor `x - a`. Its leading coefficient is one in the ring, but modulo `2`
  the canonical integer for this is `-1`. A remainder by it is the value at `a`, as a constant
  (`Poly.eq_const_of_linear`).
* An exact division and a reduction by a divisor with an invertible leading coefficient succeed
  without multiplying (`Poly.exists_run_divideExact_of_isUnit`,
  `Poly.exists_run_reduce_of_isUnit`), and a pseudo-division by this one multiplies with one.
* `Poly.remainders_linear` puts it together.
-/

namespace Univariate

open Polynomial

variable {R : CoeffRing} {p d q r : Poly} {t : Buffer}

/-! ## Horner's rule -/

namespace Buffer

/-- Horner's rule on a list of coefficients, the constant one first. -/
theorem foldr_horner (f : Nat → Int) (x : Int) (n : Nat) :
    ((List.range n).map f).foldr (fun c value => value * x + c) 0 =
      ∑ i ∈ Finset.range n, f i * x ^ i := by
  induction n generalizing f with
  | zero => rfl
  | succ n ih =>
    -- The list without its constant coefficient is that of the shifted coefficients.
    rw [List.range_succ_eq_map, List.map_cons, List.foldr_cons, List.map_map, ih (f ∘ Nat.succ),
      Finset.sum_range_succ', Finset.sum_mul, pow_zero, mul_one]
    refine congrArg (· + f 0) (Finset.sum_congr rfl fun i _ => ?_)
    rw [Function.comp_apply, pow_succ, mul_assoc]

theorem WellFormed.evaluate_eq_sum (h : t.WellFormed) (x : Int) :
    t.evaluate x = ∑ i ∈ Finset.range t.size, t.slot i * x ^ i := by
  rw [evaluate, h.coefficients_eq, foldr_horner]

/-- The value stands for that of the image, in every ring. -/
theorem WellFormed.cast_evaluate (h : t.WellFormed) (R : CoeffRing) (x : Int) :
    (t.evaluate x : R.Element) = (t.image R).eval (x : R.Element) := by
  rw [h.evaluate_eq_sum, image_eq_significant h, CoeffRing.polynomial, eval_finsetSum,
    Int.cast_sum]
  refine Finset.sum_congr rfl fun i _ => ?_
  rw [eval_monomial, Int.cast_mul, Int.cast_pow]

end Buffer

/-! ## The divisor `x - a` -/

namespace Poly

/-- The polynomial `x - a`. -/
def linear (R : CoeffRing) (a : Int) : Poly :=
  ofSlots R [-a, 1]

theorem image_linear (R : CoeffRing) (a : Int) :
    (linear R a).image R = X - C (a : R.Element) := by
  ext i
  rw [coeff_image, linear, coeff_ofSlots, CoeffRing.cast_normalize, coeff_sub, coeff_X, coeff_C]
  rcases i with _ | _ | i
  · simp
  · simp
  · simp

theorem isZero_linear (R : CoeffRing) (a : Int) : (linear R a).isZero = false := by
  rw [← Bool.not_eq_true]
  intro hz
  have himage := image_of_isZero R hz
  rw [image_linear] at himage
  exact X_sub_C_ne_zero _ himage

theorem degree_linear (R : CoeffRing) (a : Int) : (linear R a).degree = 1 := by
  rw [← natDegree_image (R := R) (p := linear R a) rfl, image_linear, natDegree_X_sub_C]

/-- The leading coefficient is one in the ring. -/
theorem cast_leading_linear (R : CoeffRing) (a : Int) :
    (((linear R a).coeff (linear R a).degree : Int) : R.Element) = 1 := by
  rw [← leadingCoeff_image (R := R) (p := linear R a) rfl, image_linear, leadingCoeff_X_sub_C]

/-- What is left of a polynomial by `x - a` is its value at `a`. -/
theorem eq_const_of_linear {a : Int} {f : R.Element[X]} (hr : r.ring = R)
    (hidentity : p.image R = f * (linear R a).image R + r.image R)
    (hremainder : IsRemainder ((linear R a).image R) (r.image R)) (ht : t.Holds p) :
    r = const R (t.evaluate a) := by
  rw [image_linear] at hidentity hremainder
  -- A remainder by `x - a` is a constant.
  have hconst : r.image R = C ((r.image R).coeff 0) := by
    refine eq_C_of_natDegree_eq_zero ?_
    rcases hremainder with hzero | hlt
    · rw [hzero, natDegree_zero]
    · rwa [natDegree_X_sub_C, Nat.lt_one_iff] at hlt
  refine image_injective hr rfl ?_
  rw [image_const, ht.wellFormed.cast_evaluate, ht.image_eq, hidentity, hconst]
  simp

/-! ## The remainder theorem -/

/-- Over the integers, a reduction by a divisor with an invertible leading coefficient does not
    multiply. -/
theorem exists_run_reduce_of_isUnit (hp : p.ring = .integers) (hd : d.ring = .integers)
    (hz : d.isZero = false) (hlead : IsUnit (d.coeff d.degree))
    (hword : d.degree ≤ p.degree → p.degree + 1 < degreeBound) (trace : Array Event) :
    ∃ r trace', (p.reduce d).run trace = .ok (1, r) trace' ∧ p.ReducesTo .integers d 1 r := by
  rcases Nat.lt_or_ge p.degree d.degree with hlt | hle
  · exact ⟨p, trace, run_reduce_of_degree_lt hp hd hz hlt trace, .refl hp hlt⟩
  obtain ⟨dividend, divisor, s, s', hdividend, hdivisor, hrun, hend, hresult⟩ :=
    exists_run_reduce_partial hp hd hz hle (hword hle) trace
  have hreduces := hend.reducesTo_toPoly hd hz hdividend hdivisor
  -- The multiplier divides a power of the leading coefficient.
  have hunit : IsUnit s.multiplier := by
    refine isUnit_of_dvd_unit hend.multiplier_dvd_pow ?_
    rw [hdivisor.leading_eq]
    exact hlead.pow _
  have hword := hword hle
  rw [← hdividend.degree_eq] at hle hword
  rw [← hdivisor.degree_eq] at hle
  have hzero := hdivisor.isZero_eq_false hz
  have hone : s.multiplier = 1 := Reduction.eq_one_of_isUnit_of_run
    (hdivisor.canonical_integers.leading_ne_zero hzero) hzero hle (by omega)
    (Buffer.degree_lt_capacity_fresh dividend trace) hrun hunit
  rw [hone] at hresult hreduces
  exact ⟨_, _, hresult, hreduces⟩

/-- In every ring, let a polynomial be unpacked into a buffer, and let a machine word count its
    coefficients. Its exact division and its pseudo-division by `x - a` succeed, and leave the value
    of the buffer at `a`, as a constant polynomial. Over the integers, its reduction by `x - a` does
    not multiply, and leaves this constant too. -/
theorem remainders_linear (hp : p.ring = R) (hword : p.degree + 1 < degreeBound) {n : Nat}
    (hof : Buffer.ofPoly n p = .ok t) (a : Int) (trace : Array Event) :
    (∃ q trace', (p.divide .exact (linear R a)).run trace =
        .ok (q, const R (t.evaluate a)) trace') ∧
      (∃ q trace', (p.divide .pseudo (linear R a)).run trace =
        .ok (q, const R (t.evaluate a)) trace') ∧
      (R = .integers → ∃ trace', (p.reduce (linear R a)).run trace =
        .ok (1, const R (t.evaluate a)) trace') := by
  have ht := Buffer.holds_of_ofPoly hof
  have hz := isZero_linear R a
  have hlead := cast_leading_linear R a
  refine ⟨?_, ?_, fun hR => ?_⟩
  · obtain ⟨q, r, trace', hrun, hdivision⟩ := exists_run_divideExact_of_isUnit hp rfl hz
      (hlead ▸ isUnit_one) (fun _ => hword) trace
    obtain rfl :=
      eq_const_of_linear hdivision.ring_remainder hdivision.identity hdivision.isRemainder ht
    exact ⟨q, trace', hrun⟩
  · obtain ⟨q, r, trace', hrun, hmultiplied⟩ :=
      exists_run_dividePseudo hp rfl hz (fun _ => hword) trace
    -- The power of the leading coefficient is one in the ring.
    have hdivision := hmultiplied p (by rw [hlead, one_pow, C_1, one_mul])
    obtain rfl :=
      eq_const_of_linear hdivision.ring_remainder hdivision.identity hdivision.isRemainder ht
    exact ⟨q, trace', hrun⟩
  · subst hR
    have hone : (linear .integers a).coeff (linear .integers a).degree = 1 :=
      CoeffRing.eq_of_contains (R := .integers) rfl rfl (hlead.trans Int.cast_one.symm)
    obtain ⟨r, trace', hrun, hreduces⟩ := exists_run_reduce_of_isUnit hp rfl hz
      (hone ▸ isUnit_one) (fun _ => hword) trace
    obtain ⟨f, hidentity⟩ := hreduces.identity
    rw [one_smul, sub_eq_iff_eq_add] at hidentity
    obtain rfl := eq_const_of_linear hreduces.ring_eq hidentity
      ((isRemainder_image_iff hreduces.ring_eq rfl).2 hreduces.isZero_or_degree_lt) ht
    exact ⟨trace', hrun⟩

/-- The value of `x ^ 3 - 2 x + 5` at `2` is `9`, and this is what the reduction by `x - 2` leaves.
    Modulo `2`, where the leading coefficient of `x - 2` is written as `-1`, the value of
    `x ^ 3 + 1` is one, and a pseudo-division leaves it. -/
theorem remainders_linear_two :
    (∃ trace', ((ofSlots .integers [5, -2, 0, 1]).reduce (linear .integers 2)).run #[] =
        .ok (1, const .integers 9) trace') ∧
      let R : CoeffRing := .modular 2 true (by decide)
      ∃ q trace', ((ofSlots R [1, 0, 0, 1]).divide .pseudo (linear R 2)).run #[] =
        .ok (q, const R 1) trace' := by
  constructor
  · obtain ⟨-, -, hreduce⟩ := remainders_linear (p := ofSlots .integers [5, -2, 0, 1])
      (t := ⟨4, #[5, -2, 0, 1]⟩) (n := 4) rfl (by decide +kernel) (by decide +kernel) 2 #[]
    exact hreduce rfl
  · intro R
    obtain ⟨-, hpseudo, -⟩ := remainders_linear (p := ofSlots R [1, 0, 0, 1])
      (t := ⟨4, #[-1, 0, 0, -1]⟩) (n := 4) rfl (by decide +kernel) (by decide +kernel) 2 #[]
    exact hpseudo

/-- The division of the power of `x` with the highest exponent by `x` itself fails: the coefficients
    are more than a machine word can count. -/
theorem remainders_linear_highestPower :
    ¬∃ q r trace', ((highestPower .integers).divide .exact (linear .integers 0)).run #[] =
      .ok (q, r) trace' := by
  rintro ⟨q, r, trace', hrun⟩
  have hle : (linear .integers 0).degree ≤ (highestPower .integers).degree := by
    rw [degree_linear]
    decide
  rw [run_divide_overflow (p := highestPower .integers) (d := linear .integers 0) rfl rfl
    (isZero_linear .integers 0) hle not_degree_highestPower_lt] at hrun
  cases hrun

end Poly

end Univariate
