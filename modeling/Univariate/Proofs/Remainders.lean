import Mathlib.Algebra.Polynomial.Degree.Lemmas
import Mathlib.Algebra.Polynomial.EraseLead
import Mathlib.Algebra.GroupWithZero.NonZeroDivisors
import Univariate.Proofs.CanonicalForm

/-!
# Remainders

A polynomial `f` over a commutative ring *has a remainder* by `d` when it is a multiple of `d` plus
a polynomial that is zero or of smaller degree than `d`. Nothing is asked of the ring: whether there
is a remainder, and whether there is only one, depends on the leading coefficient of `d`.

* Being a remainder is a matter of coefficients (`isRemainder_iff`): none from the degree of `d` on.
* Having one does not change when a multiple of `d` is subtracted (`hasRemainder_sub_mul_iff`).
* If everything that annihilates the leading coefficient of `d` annihilates `d` (`FaithfulLead`),
  there is at most one remainder (`FaithfulLead.remainder_unique`), and the leading coefficient
  divides the highest coefficient of whatever has one (`HasRemainder.exists_mul_leadingCoeff`).
* If the leading coefficient of `d` is not a zero divisor, there is also at most one quotient
  (`IsRemainder.unique`).
* The image of a canonical buffer has the degree and the leading coefficient of the buffer
  (`Buffer.Canonical.natDegree_image`, `Buffer.Canonical.leadingCoeff_image`), and with the
  capacity it determines the buffer (`Buffer.Canonical.eq_of_image`). What is a remainder
  among images is told by the degrees of the buffers, or of the polynomials
  (`Poly.isRemainder_image_iff`).
-/

namespace Univariate

open Polynomial

section Remainders

variable {A : Type} [CommRing A] {d f g q q' r r' : A[X]}

theorem C_intCast_mul (n : Int) (f : A[X]) : C (n : A) * f = n • f := by
  rw [zsmul_eq_mul, C_eq_intCast]

/-- The polynomial is zero or of smaller degree than the divisor. -/
def IsRemainder (d r : A[X]) : Prop :=
  r = 0 ∨ r.natDegree < d.natDegree

/-- The polynomial is a multiple of the divisor plus a remainder. -/
def HasRemainder (d f : A[X]) : Prop :=
  ∃ q r, f = q * d + r ∧ IsRemainder d r

/-- A remainder has no coefficients from the degree of the divisor on. -/
theorem isRemainder_iff : IsRemainder d r ↔ ∀ i, d.natDegree ≤ i → r.coeff i = 0 := by
  constructor
  · rintro (rfl | hlt) i hi
    · exact coeff_zero i
    · exact coeff_eq_zero_of_natDegree_lt (hlt.trans_le hi)
  · intro h
    by_cases hr : r = 0
    · exact .inl hr
    · right
      by_contra hle
      exact leadingCoeff_ne_zero.2 hr (h _ (not_lt.1 hle))

theorem isRemainder_zero (d : A[X]) : IsRemainder d 0 :=
  .inl rfl

theorem IsRemainder.natDegree_le (h : IsRemainder d r) : r.natDegree ≤ d.natDegree := by
  rcases h with rfl | hlt
  · rw [natDegree_zero]
    exact Nat.zero_le _
  · exact hlt.le

theorem IsRemainder.sub (h : IsRemainder d r) (h' : IsRemainder d r') : IsRemainder d (r - r') := by
  rw [isRemainder_iff] at h h' ⊢
  intro i hi
  rw [coeff_sub, h i hi, h' i hi, sub_zero]

theorem IsRemainder.zsmul (h : IsRemainder d r) (n : Int) : IsRemainder d (n • r) := by
  rw [isRemainder_iff] at h ⊢
  intro i hi
  rw [coeff_smul, h i hi, smul_zero]

theorem HasRemainder.add_mul (h : HasRemainder d f) (g : A[X]) : HasRemainder d (f + g * d) := by
  obtain ⟨q, r, rfl, hr⟩ := h
  exact ⟨q + g, r, by ring, hr⟩

/-- Subtracting a multiple of the divisor does not change whether there is a remainder. -/
theorem hasRemainder_sub_mul_iff : HasRemainder d (f - g * d) ↔ HasRemainder d f := by
  constructor
  · intro h
    have := h.add_mul g
    rwa [sub_add_cancel] at this
  · intro h
    have := h.add_mul (-g)
    rwa [neg_mul, ← sub_eq_add_neg] at this

theorem HasRemainder.zsmul (h : HasRemainder d f) (n : Int) : HasRemainder d (n • f) := by
  obtain ⟨q, r, rfl, hr⟩ := h
  exact ⟨n • q, n • r, by rw [smul_add, smul_mul_assoc], hr.zsmul n⟩

/-! ### Divisors with a faithful leading coefficient -/

/-- Whatever annihilates the leading coefficient annihilates the polynomial. -/
def FaithfulLead (d : A[X]) : Prop :=
  ∀ a, a * d.leadingCoeff = 0 → C a * d = 0

/-- A leading coefficient that is not a zero divisor is faithful. -/
theorem faithfulLead_of_mem_nonZeroDivisors (hd : d.leadingCoeff ∈ nonZeroDivisors A) :
    FaithfulLead d := by
  intro a ha
  rw [(mul_right_mem_nonZeroDivisors_eq_zero_iff hd).1 ha, C_0, zero_mul]

namespace FaithfulLead

variable (hd : FaithfulLead d)
include hd

/-- The leading term of a factor whose product with the divisor has a smaller degree than expected
    contributes nothing to the product. -/
theorem eraseLead_mul (h : (q * d).coeff (q.natDegree + d.natDegree) = 0) :
    q.eraseLead * d = q * d := by
  rw [coeff_mul_degree_add_degree] at h
  conv_rhs => rw [← q.eraseLead_add_C_mul_X_pow]
  rw [add_mul, mul_right_comm, hd _ h, zero_mul, add_zero]

/-- A multiple of the divisor without coefficients beyond its degree raised by `k` is a multiple by
    a polynomial of degree `k` at most. -/
theorem exists_mul_eq {k : Nat} (h : ∀ i, d.natDegree + k < i → (q * d).coeff i = 0) :
    ∃ q', q'.natDegree ≤ k ∧ q' * d = q * d := by
  -- As long as the degree of the factor is larger, its leading term can be dropped.
  induction hn : q.natDegree using Nat.strong_induction_on generalizing q with
  | _ n ih =>
    by_cases hk : q.natDegree ≤ k
    · exact ⟨q, hk, rfl⟩
    · have hmul := hd.eraseLead_mul (h (q.natDegree + d.natDegree) (by omega))
      rcases q.eraseLead_natDegree_lt_or_eraseLead_eq_zero with hlt | hzero
      · rw [← hmul] at h ⊢
        exact ih _ (hn ▸ hlt) h rfl
      · exact ⟨q.eraseLead, by rw [hzero, natDegree_zero]; exact Nat.zero_le k, hmul⟩

/-- Only the multiple zero of the divisor is a remainder. -/
theorem mul_eq_zero_of_isRemainder (h : IsRemainder d (q * d)) : q * d = 0 := by
  rw [isRemainder_iff] at h
  obtain ⟨q', hq', hmul⟩ := hd.exists_mul_eq (k := 0) fun i hi => h i (by omega)
  obtain ⟨a, rfl⟩ := natDegree_eq_zero.1 (Nat.le_zero.1 hq')
  rw [← hmul] at h ⊢
  refine hd a ?_
  rw [leadingCoeff, ← coeff_C_mul]
  exact h _ le_rfl

/-- There is at most one remainder. -/
theorem remainder_unique (h : q * d + r = q' * d + r') (hr : IsRemainder d r)
    (hr' : IsRemainder d r') : r = r' := by
  have hdiff : (q - q') * d = r' - r := by
    rw [sub_mul, sub_eq_sub_iff_add_eq_add, h, add_comm]
  rw [eq_comm, ← sub_eq_zero, ← hdiff]
  exact hd.mul_eq_zero_of_isRemainder (hdiff ▸ hr'.sub hr)

end FaithfulLead

/-- The leading coefficient of the divisor divides the highest coefficient of what has a
    remainder. -/
theorem HasRemainder.exists_mul_leadingCoeff (h : HasRemainder d f) (hd : FaithfulLead d) {k : Nat}
    (hf : ∀ i, d.natDegree + k < i → f.coeff i = 0) :
    ∃ x, x * d.leadingCoeff = f.coeff (d.natDegree + k) := by
  obtain ⟨q, r, rfl, hr⟩ := h
  rw [isRemainder_iff] at hr
  obtain ⟨q', hq', hmul⟩ := hd.exists_mul_eq (q := q) fun i hi => by
    have hcoeff := hf i hi
    rwa [coeff_add, hr i (by omega), add_zero] at hcoeff
  refine ⟨q'.coeff k, ?_⟩
  rw [coeff_add, hr _ (Nat.le_add_right _ _), add_zero, ← hmul, add_comm,
    coeff_mul_add_eq_of_natDegree_le hq' le_rfl, coeff_natDegree]

/-! ### Divisors whose leading coefficient is not a zero divisor -/

section Regular

variable (hd : d.leadingCoeff ∈ nonZeroDivisors A)
include hd

/-- The highest coefficient of a product with the divisor does not vanish. -/
theorem coeff_mul_ne_zero (hq : q ≠ 0) : (q * d).coeff (q.natDegree + d.natDegree) ≠ 0 := by
  rw [coeff_mul_degree_add_degree, ne_eq, mul_right_mem_nonZeroDivisors_eq_zero_iff hd]
  exact leadingCoeff_ne_zero.2 hq

/-- A quotient has no larger degree than the dividend. -/
theorem natDegree_le_of_eq_mul_add (h : f = q * d + r) (hr : IsRemainder d r) :
    q.natDegree ≤ f.natDegree := by
  by_cases hq : q = 0
  · rw [hq, natDegree_zero]
    exact Nat.zero_le _
  · have hcoeff : f.coeff (q.natDegree + d.natDegree) ≠ 0 := by
      rw [h, coeff_add, isRemainder_iff.1 hr _ (Nat.le_add_left _ _), add_zero]
      exact coeff_mul_ne_zero hd hq
    exact (Nat.le_add_right _ _).trans (le_natDegree_of_ne_zero hcoeff)

/-- There is at most one quotient and one remainder. -/
theorem IsRemainder.unique (h : q * d + r = q' * d + r') (hr : IsRemainder d r)
    (hr' : IsRemainder d r') : q = q' ∧ r = r' := by
  obtain rfl := (faithfulLead_of_mem_nonZeroDivisors hd).remainder_unique h hr hr'
  refine ⟨?_, rfl⟩
  -- The difference of the quotients has the product zero with the divisor.
  by_contra hne
  refine coeff_mul_ne_zero hd (sub_ne_zero.2 hne) ?_
  rw [sub_mul, add_right_cancel h, sub_self, coeff_zero]

end Regular

end Remainders

instance : IsDomain CoeffRing.integers.Element :=
  inferInstanceAs (IsDomain Int)

/-! ## Canonical buffers -/

namespace Buffer.Canonical

variable {R : CoeffRing} {t u divisor : Buffer}

/-- The degree of the image is that of the buffer. -/
theorem natDegree_image (h : t.Canonical R) : (t.image R).natDegree = t.degree := by
  cases hz : t.isZero with
  | true =>
    have hsize : t.size = 1 := by simpa [isZero] using (Bool.and_eq_true_iff.1 hz).1
    rw [image_of_isZero h.toWellFormed hz, natDegree_zero, degree, hsize]
  | false =>
    refine natDegree_eq_of_le_of_coeff_ne_zero (natDegree_le_iff_coeff_eq_zero.2 fun i hi => ?_) ?_
    · rw [coeff_image, h.toWellFormed.slot_eq_zero_of_degree_lt hi, Int.cast_zero]
    · rw [coeff_image]
      exact CoeffRing.isZero_eq_false_iff.1 (h.isZero_leading hz)

/-- Only the zero buffer has the image zero. -/
theorem isZero_iff_image_eq_zero (h : t.Canonical R) : t.isZero = true ↔ t.image R = 0 := by
  refine ⟨image_of_isZero h.toWellFormed, fun himage => ?_⟩
  by_contra hz
  have hlead := CoeffRing.isZero_eq_false_iff.1 (h.isZero_leading (by simpa using hz))
  rw [leading, ← coeff_image, himage, coeff_zero] at hlead
  exact hlead rfl

theorem leadingCoeff_image (h : t.Canonical R) :
    (t.image R).leadingCoeff = (t.leading : R.Element) := by
  rw [leadingCoeff, h.natDegree_image, coeff_image, leading]

/-- Canonical buffers with the same image have the same slots. -/
theorem slot_eq_of_image (h : t.Canonical R) (h' : u.Canonical R) (himage : t.image R = u.image R)
    (i : Nat) : t.slot i = u.slot i := by
  refine CoeffRing.eq_of_contains (h.contains_slot i) (h'.contains_slot i) ?_
  rw [← coeff_image, himage, coeff_image]

theorem size_eq_of_image (h : t.Canonical R) (h' : u.Canonical R)
    (himage : t.image R = u.image R) : t.size = u.size := by
  rw [← h.toWellFormed.degree_add_one, ← h'.toWellFormed.degree_add_one, ← h.natDegree_image,
    ← h'.natDegree_image, himage]

/-- Canonical buffers, of whatever capacities, have the same coefficients exactly when they have the
    same image. -/
theorem sameCoefficients_iff (h : t.Canonical R) (h' : u.Canonical R) :
    t.sameCoefficients u = true ↔ t.image R = u.image R := by
  rw [sameCoefficients, beq_iff_eq]
  constructor
  · intro hcoefficients
    ext i
    rw [coeff_image, coeff_image, h.toWellFormed.slot_eq_getD, hcoefficients,
      ← h'.toWellFormed.slot_eq_getD]
  · intro himage
    rw [h.toWellFormed.coefficients_eq, h'.toWellFormed.coefficients_eq,
      h.size_eq_of_image h' himage]
    exact List.map_congr_left fun i _ => h.slot_eq_of_image h' himage i

/-- A canonical buffer is determined by its image and its capacity. -/
theorem eq_of_image (h : t.Canonical R) (h' : u.Canonical R) (hcap : t.capacity = u.capacity)
    (himage : t.image R = u.image R) : t = u :=
  ext_slot (h.size_eq_of_image h' himage) hcap (h.slot_eq_of_image h' himage)

/-- Over the integers, no leading coefficient is a zero divisor. -/
theorem leadingCoeff_mem_nonZeroDivisors (h : t.Canonical .integers) (hz : t.isZero = false) :
    (t.image .integers).leadingCoeff ∈ nonZeroDivisors CoeffRing.integers.Element := by
  rw [h.leadingCoeff_image]
  exact mem_nonZeroDivisors_of_ne_zero (CoeffRing.isZero_eq_false_iff.1 (h.isZero_leading hz))

/-- A canonical buffer that is zero or of smaller degree holds a remainder. -/
theorem isRemainder_image (h : t.Canonical R) (hd : divisor.Canonical R)
    (hlt : t.isZero = true ∨ t.degree < divisor.degree) :
    IsRemainder (divisor.image R) (t.image R) := by
  rcases hlt with hz | hlt
  · exact .inl (image_of_isZero h.toWellFormed hz)
  · right
    rwa [h.natDegree_image, hd.natDegree_image]

end Buffer.Canonical

/-! ## Polynomials -/

namespace Poly

variable {R : CoeffRing} {p d : Poly}

theorem leadingCoeff_image (hp : p.ring = R) :
    (p.image R).leadingCoeff = (p.coeff p.degree : R.Element) := by
  rw [leadingCoeff, natDegree_image hp, coeff_image]

/-- Only the zero polynomial has the image zero. -/
theorem isZero_of_image_eq_zero (hp : p.ring = R) (h : p.image R = 0) : p.isZero = true := by
  by_contra hz
  refine CoeffRing.isZero_eq_false_iff.1 (isZero_leading hp (by simpa using hz)) ?_
  rw [← coeff_image, h, coeff_zero]

/-- Over the integers, no leading coefficient is a zero divisor. -/
theorem leadingCoeff_mem_nonZeroDivisors (hp : p.ring = .integers) (hz : p.isZero = false) :
    (p.image .integers).leadingCoeff ∈ nonZeroDivisors CoeffRing.integers.Element := by
  rw [leadingCoeff_image hp]
  exact mem_nonZeroDivisors_of_ne_zero (CoeffRing.isZero_eq_false_iff.1 (isZero_leading hp hz))

/-- A remainder is a polynomial that is zero or of smaller degree. -/
theorem isRemainder_image_iff (hp : p.ring = R) (hd : d.ring = R) :
    IsRemainder (d.image R) (p.image R) ↔ p.isZero = true ∨ p.degree < d.degree := by
  rw [IsRemainder, natDegree_image hp, natDegree_image hd]
  exact or_congr_left ⟨isZero_of_image_eq_zero hp, image_of_isZero R⟩

end Poly

end Univariate
