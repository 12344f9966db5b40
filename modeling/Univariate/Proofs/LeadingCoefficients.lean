import Mathlib.Data.ZMod.Units
import Univariate.Proofs.ExactDivision

/-!
# Exact division and the leading coefficient of the divisor

Modulo a composite number, what an exact division by `d` can do depends on the leading coefficient
of `d`.

* If it is invertible, every coefficient can be eliminated, and there is only one quotient and one
  remainder (`Poly.divideExact_invertible`). Modulo a prime, this is so for every divisor that is
  not zero.
* If it is not, the product of `d` with another polynomial can have a smaller degree than `d`, and
  is then its own remainder. Every product is divided without remainder exactly if the leading
  coefficient divides all coefficients of `d` (`Poly.divideExact_mul_iff`): in terms of the image,
  if it is faithful (`Poly.faithfulLead_image_iff`).
-/

namespace Univariate

open Polynomial

namespace CoeffRing

variable {R : CoeffRing} {b : Int}

/-- What is invertible divides everything. -/
theorem divides_of_isUnit (hb : IsUnit (b : R.Element)) (a : Int) : R.divides b a = true := by
  obtain ⟨u, hu⟩ := hb
  have hne : R.isZero b = false := by
    rw [isZero_eq_false_iff]
    intro hzero
    refine R.cast_one_ne_zero ?_
    rw [Int.cast_one, ← u.mul_inv, hu, hzero, zero_mul]
  obtain ⟨x, hx⟩ := ZMod.intCast_surjective ((↑u⁻¹ : R.Element) * (a : R.Element))
  refine divides_iff.2 ⟨hne, x, ?_⟩
  rw [hx, ← hu, Units.mul_inv_cancel_left]

/-- Modulo `m`, what is annihilated together with `b` is divided by `b`. -/
theorem divides_of_annihilates {m : Nat} {prime : Bool} {hm : 2 ≤ m}
    (hb : (modular m prime hm).isZero b = false) {c : Int}
    (h : ∀ a : (modular m prime hm).Element, a * b = 0 → a * c = 0) :
    (modular m prime hm).divides b c = true := by
  have hgm : (Int.gcd b m : Int) ∣ m := Int.gcd_dvd_right ..
  obtain ⟨k, hk⟩ := hgm
  have hkpos : k ≠ 0 := by
    rintro rfl
    omega
  -- The cofactor of the common divisor of `b` and `m` annihilates `b`, and hence `c`.
  have hkc : (m : Int) ∣ k * c := by
    have hkb : ((k : Int) : ZMod m) * b = 0 := by
      rw [← Int.cast_mul, ZMod.intCast_zmod_eq_zero_iff_dvd, hk, mul_comm]
      exact mul_dvd_mul_left k (Int.gcd_dvd_left ..)
    have hkc := h k hkb
    rwa [← Int.cast_mul, ZMod.intCast_zmod_eq_zero_iff_dvd] at hkc
  have hgc : (Int.gcd b m : Int) ∣ c := by
    rw [hk, mul_comm] at hkc
    exact Int.dvd_of_mul_dvd_mul_left hkpos hkc
  obtain ⟨x, hx⟩ := Residue.exists_mul_modEq_iff.2 hgc
  refine divides_iff.2 ⟨hb, x, ?_⟩
  rw [← Int.cast_mul]
  exact (ZMod.intCast_eq_intCast_iff _ _ m).2 hx

end CoeffRing

namespace Poly

variable {R : CoeffRing} {p d : Poly}

/-! ## Products -/

/-- The leading coefficient of a polynomial is faithful over the integers, and modulo `m` if it
    divides the other coefficients. -/
theorem faithfulLead_image_iff (hd : d.ring = R) (hz : d.isZero = false) :
    FaithfulLead (d.image R) ↔
      R = .integers ∨ ∀ i, R.divides (d.coeff d.degree) (d.coeff i) = true := by
  constructor
  · intro hfaithful
    cases R with
    | integers => exact .inl rfl
    | modular m prime hm =>
      refine .inr fun i => CoeffRing.divides_of_annihilates (isZero_leading hd hz) fun a ha => ?_
      have hmul := hfaithful a (by rw [leadingCoeff_image hd, ha])
      rw [← coeff_image, ← coeff_C_mul, hmul, coeff_zero]
  · rintro (rfl | hdvd)
    · exact faithfulLead_of_mem_nonZeroDivisors (leadingCoeff_mem_nonZeroDivisors hd hz)
    · intro a ha
      ext i
      obtain ⟨-, x, hx⟩ := CoeffRing.divides_iff.1 (hdvd i)
      rw [leadingCoeff_image hd] at ha
      rw [coeff_C_mul, coeff_image, ← hx, ← mul_assoc, ha, zero_mul, coeff_zero]

/-- A constant that annihilates the leading coefficient of the divisor makes a product that is its
    own remainder. -/
theorem run_divideExact_const_mul (hd : d.ring = R) (hz : d.isZero = false) {a : R.Element}
    (ha : a * (d.image R).leadingCoeff = 0) (hne : C a * d.image R ≠ 0) (trace : Array Event) :
    ((representing R (C a * d.image R)).divide .exact d).run trace =
      .ok (zero R, representing R (C a * d.image R)) trace := by
  refine run_divide_of_degree_lt rfl hd hz ?_ .exact trace
  -- The product has no coefficients from the degree of the divisor on.
  have hremainder : IsRemainder (d.image R) (C a * d.image R) := by
    refine isRemainder_iff.2 fun i hi => ?_
    rw [coeff_C_mul]
    rcases hi.eq_or_lt with rfl | hlt
    · exact ha
    · rw [coeff_eq_zero_of_natDegree_lt hlt, mul_zero]
  rw [degree_representing, ← natDegree_image hd]
  exact hremainder.resolve_left hne

/-- All products with a divisor are divided by it without remainder, over the integers, and modulo
    `m` if and only if the leading coefficient of the divisor divides its other coefficients
    there. -/
theorem divideExact_mul_iff (hd : d.ring = R) (hz : d.isZero = false)
    (hword : d.degree + 1 < degreeBound) (trace : Array Event) :
    (∀ p : Poly, p.ring = R → p.isZero = false → p.degree + d.degree + 1 < degreeBound →
        ∃ product q trace', p.mul d = .ok product ∧
          (product.divide .exact d).run trace = .ok (q, zero R) trace') ↔
      R = .integers ∨ ∀ i, R.divides (d.coeff d.degree) (d.coeff i) = true := by
  rw [← faithfulLead_image_iff hd hz]
  refine ⟨fun h a ha => ?_, fun hfaithful p hp _ hword => ?_⟩
  swap
  · obtain ⟨product, q, trace', hmul, -, hrun, -⟩ :=
      exists_divideExact_mul_of_faithful hp hd hz hfaithful (fun _ => hword) trace
    exact ⟨product, q, trace', hmul, hrun⟩
  by_contra hne
  -- The constant with the value `a` has a product that is its own remainder, and not zero.
  have hC : (representing R (C a)).image R = C a := image_representing R _
  have hconst : (representing R (C a)).isZero = false := by
    by_contra hzero
    rw [Bool.not_eq_false] at hzero
    rw [← hC, image_of_isZero R hzero, zero_mul] at hne
    exact hne rfl
  have hdegree : (representing R (C a)).degree + d.degree + 1 < degreeBound := by
    rw [degree_representing, natDegree_C]
    omega
  obtain ⟨product, q, trace', hmul, hrun⟩ := h _ rfl hconst hdegree
  rw [mul_eq (ring_representing R _) hd hdegree, hC] at hmul
  obtain rfl := Except.ok.inj hmul
  rw [run_divideExact_const_mul hd hz ha hne] at hrun
  obtain ⟨-, hr⟩ := Prod.mk.inj (EStateM.Result.ok.inj hrun).1
  refine hne ?_
  rw [← image_representing R (C a * d.image R), hr, image_zero]

/-- Modulo `4`, the leading coefficient of `2 x + 2` divides the other one. The product of `2 x + 1`
    and `2 x + 2` is `2 x + 2`, of a smaller degree than expected, but is divided by `2 x + 2`
    without remainder. -/
theorem divideExact_mul_iff_four :
    let R : CoeffRing := .modular 4 false (by decide)
    let p := ofSlots R [1, 2]
    let d := ofSlots R [2, 2]
    d.isZero = false ∧ d.degree + 1 < degreeBound ∧
      ∃ product q trace', p.mul d = .ok product ∧
        (product.divide .exact d).run #[] = .ok (q, zero R) trace' := by
  intro R p d
  have hz : d.isZero = false := by decide +kernel
  have hword : d.degree + 1 < degreeBound := by decide +kernel
  have hdvd : ∀ i, R.divides (d.coeff d.degree) (d.coeff i) = true := by
    intro i
    match i with
    | 0 => decide +kernel
    | 1 => decide +kernel
    | i + 2 =>
      rw [coeff_eq_zero_of_degree_lt (p := d) (show 1 < i + 2 by omega)]
      decide +kernel
  exact ⟨hz, hword, (divideExact_mul_iff (R := R) (d := d) rfl hz hword #[]).2 (.inr hdvd) p rfl
    (by decide +kernel) (by decide +kernel)⟩

/-- Modulo `4`, the square of `2 x + 1` is one. Divided by `2 x + 1`, it is its own remainder. -/
theorem divideExact_square_four :
    let R : CoeffRing := .modular 4 false (by decide)
    let p := ofSlots R [1, 2]
    p.isZero = false ∧ p.mul p = .ok (const R 1) ∧
      ((const R 1).divide .exact p).run #[] = .ok (zero R, const R 1) #[] ∧
      (const R 1).isZero = false := by
  intro R p
  have hz : p.isZero = false := by decide +kernel
  have hmul : p.mul p = .ok (const R 1) := by decide +kernel
  have hrun := run_divide_of_degree_lt (p := const R 1) (d := p) rfl rfl hz (by decide +kernel)
    .exact #[]
  exact ⟨hz, hmul, hrun, by decide +kernel⟩

/-! ## Invertible leading coefficients -/

variable {m : Nat} {prime : Bool} {hm : 2 ≤ m}

/-- Modulo a prime, every polynomial that is not zero has an invertible leading coefficient. -/
theorem isUnit_leadingCoeff (hd : d.ring = .modular m prime hm) (hz : d.isZero = false)
    (hunit : m.Prime ∨ Int.gcd (d.coeff d.degree) m = 1) :
    IsUnit ((d.coeff d.degree : Int) : (CoeffRing.modular m prime hm).Element) := by
  refine (ZMod.coe_int_isUnit_iff_isCoprime _ m).2 (Int.isCoprime_iff_gcd_eq_one.2 ?_)
  rcases hunit with hprime | hgcd
  · have hndvd := CoeffRing.isZero_eq_false_iff_not_dvd.1 (isZero_leading hd hz)
    exact hprime.coprime_iff_not_dvd.2 fun hdvd => hndvd (Int.natCast_dvd.2 hdvd)
  · rwa [Int.gcd_comm]

/-- There is no coefficient that an invertible leading coefficient does not divide. -/
theorem exists_run_divideExact_of_isUnit (hp : p.ring = R) (hd : d.ring = R) (hz : d.isZero = false)
    (hlead : IsUnit ((d.coeff d.degree : Int) : R.Element))
    (hword : d.degree ≤ p.degree → p.degree + 1 < degreeBound) (trace : Array Event) :
    ∃ q r trace', (p.divide .exact d).run trace = .ok (q, r) trace' ∧ IsDivision R p d q r := by
  rcases divideExact_ends hp hd hz hword trace with hdivision | ⟨⟨c, trace', -, hdvd⟩, -⟩
  · exact hdivision
  · rw [CoeffRing.divides_of_isUnit hlead] at hdvd
    cases hdvd

/-- By a divisor whose leading coefficient is invertible modulo `m`, as that of every polynomial
    that is not zero is modulo a prime, an exact division never fails. It gives the only quotient
    and remainder there are; in particular, dividing a product by one factor gives the other. The
    coefficients that a division or a product asks for have to be counted by a machine word. -/
theorem divideExact_invertible (hp : p.ring = .modular m prime hm)
    (hd : d.ring = .modular m prime hm) (hz : d.isZero = false)
    (hunit : m.Prime ∨ Int.gcd (d.coeff d.degree) m = 1)
    (hword : d.degree ≤ p.degree → p.degree + 1 < degreeBound) (trace : Array Event) :
    (∃ q r trace', (p.divide .exact d).run trace = .ok (q, r) trace' ∧
        IsDivision (.modular m prime hm) p d q r ∧
        ∀ f g, p.image (.modular m prime hm) = f * d.image (.modular m prime hm) + g →
          IsRemainder (d.image (.modular m prime hm)) g →
          q.image (.modular m prime hm) = f ∧ r.image (.modular m prime hm) = g) ∧
      ((p.isZero = false → p.degree + d.degree + 1 < degreeBound) →
        ∃ product trace', p.mul d = .ok product ∧
          (product.divide .exact d).run trace =
            .ok (p, zero (.modular m prime hm)) trace') := by
  have hlead := isUnit_leadingCoeff hd hz hunit
  have hregular : (d.image (.modular m prime hm)).leadingCoeff ∈
      nonZeroDivisors (CoeffRing.modular m prime hm).Element := by
    rw [leadingCoeff_image hd]
    exact hlead.mem_nonZeroDivisors
  obtain ⟨q, r, trace', hrun, hdivision⟩ :=
    exists_run_divideExact_of_isUnit hp hd hz hlead hword trace
  exact ⟨⟨q, r, trace', hrun, hdivision, fun f g => hdivision.unique hregular⟩,
    fun hword => exists_divideExact_mul hp hd hz hregular hword trace⟩

/-- Modulo `6`, the leading coefficient of `5 x + 1` is invertible: the division of `4 x ^ 2 + 1`
    succeeds, and so does that of its product with `5 x + 1`. -/
theorem divideExact_invertible_six :
    let R : CoeffRing := .modular 6 false (by decide)
    let p := ofSlots R [1, 0, 4]
    let d := ofSlots R [1, 5]
    (∃ q r trace', (p.divide .exact d).run #[] = .ok (q, r) trace' ∧ IsDivision R p d q r) ∧
      ∃ product trace', p.mul d = .ok product ∧
        (product.divide .exact d).run #[] = .ok (p, zero R) trace' := by
  intro R p d
  obtain ⟨⟨q, r, trace', hrun, hdivision, -⟩, hproduct⟩ :=
    divideExact_invertible (p := p) (d := d) rfl rfl (by decide +kernel)
      (.inr (by decide +kernel)) (fun _ => by decide +kernel) #[]
  exact ⟨⟨q, r, trace', hrun, hdivision⟩, hproduct fun _ => by decide +kernel⟩

/-- Modulo `7`, the leading coefficient of one is invertible, but the coefficients of the power of
    `x` with the highest exponent are more than a machine word can count: its division by one
    fails. -/
theorem divideExact_highestPower_seven :
    let R : CoeffRing := .modular 7 true (by decide)
    (const R 1).isZero = false ∧ Int.gcd ((const R 1).coeff (const R 1).degree) 7 = 1 ∧
      ¬∃ q r trace', ((highestPower R).divide .exact (const R 1)).run #[] =
        .ok (q, r) trace' := by
  intro R
  have hz : (const R 1).isZero = false := by decide +kernel
  refine ⟨hz, by decide +kernel, ?_⟩
  rintro ⟨q, r, trace', hrun⟩
  rw [run_divide_overflow (p := highestPower R) (d := const R 1) rfl rfl hz (by decide +kernel)
    (by decide +kernel)] at hrun
  cases hrun

end Poly

end Univariate
