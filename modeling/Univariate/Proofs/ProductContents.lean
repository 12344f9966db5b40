import Mathlib.RingTheory.Polynomial.Content
import Univariate.Proofs.ExactDivision
import Univariate.Proofs.PrimitiveParts

/-!
# Contents of products

Gauss's lemma for products of polynomials over the integers: contents multiply, and so do primitive
parts. Nothing of this is particular to how the product was computed, once it represents the product
of the images.

* `Poly.natAbs_content_image` identifies the content, a fold over the terms, with that of the image,
  an element of a ring with greatest common divisors.
* `Poly.signedContent_mul` says that also the signs multiply, since leading coefficients do.
* `Poly.IsPrimitivePart.mul` is the lemma for primitive parts, where the signed contents cancel.
* `Poly.contents_multiply` is the lemma for what the operations compute.
-/

namespace Univariate

open Polynomial

instance : StrongNormalizedGCDMonoid CoeffRing.integers.Element :=
  inferInstanceAs (StrongNormalizedGCDMonoid Int)

theorem CoeffRing.natCast_dvd_integers {n : Nat} {x : CoeffRing.integers.Element} :
    (n : CoeffRing.integers.Element) ∣ x ↔ n ∣ Int.natAbs x :=
  Int.natCast_dvd

namespace Poly

variable {p q r p' q' r' : Poly}

/-- The content is that of the image. -/
theorem natAbs_content_image (p : Poly) :
    Int.natAbs (p.image .integers).content = p.content := by
  refine Nat.dvd_left_iff_eq.1 fun n => ?_
  rw [← CoeffRing.natCast_dvd_integers, dvd_content_iff_C_dvd, C_dvd_iff_dvd_coeff,
    Poly.dvd_content_iff]
  exact forall_congr' fun i => by rw [coeff_image]; rfl

theorem content_mul_of_image
    (himage : r.image .integers = p.image .integers * q.image .integers) :
    r.content = p.content * q.content := by
  rw [← natAbs_content_image, himage, Polynomial.content_mul, ← p.natAbs_content_image,
    ← q.natAbs_content_image]
  exact Int.natAbs_mul _ _

/-- The signed content is the content with the sign of the leading coefficient, and zero for the
    zero polynomial. -/
theorem signedContent_eq_sign_mul (p : Poly) :
    p.signedContent = (p.coeff p.degree).sign * p.content := by
  rw [signedContent]
  rcases lt_trichotomy (p.coeff p.degree) 0 with hneg | hzero | hpos
  · rw [if_pos hneg, Int.sign_eq_neg_one_of_neg hneg, neg_one_mul]
  · have hz : p.isZero = true := by
      by_contra hz
      exact coeff_degree_ne_zero (by simpa using hz) hzero
    rw [hzero, if_neg (lt_irrefl 0), Int.sign_zero, zero_mul, content, terms_eq_nil_of_isZero hz]
    rfl
  · rw [if_neg hpos.not_gt, Int.sign_eq_one_of_pos hpos, one_mul]

theorem signedContent_ne_zero (hz : p.isZero = false) : p.signedContent ≠ 0 := by
  rw [← Int.natAbs_ne_zero, natAbs_signedContent]
  exact content_ne_zero hz

/-- In every ring, the signed contents times the primitive parts of the factors are those of the
    product. -/
theorem IsPrimitivePart.signedContent_mul_image_mul {R : CoeffRing} (hp : p.ring = R)
    (hq : q.ring = R) (hr : r.ring = R) (himage : r.image R = p.image R * q.image R)
    (hp' : IsPrimitivePart p p') (hq' : IsPrimitivePart q q') (hr' : IsPrimitivePart r r') :
    C (r.signedContent : R.Element) * r'.image R =
      C (p.signedContent : R.Element) * C (q.signedContent : R.Element) *
        (p'.image R * q'.image R) := by
  rw [hr'.signedContent_mul_image hr, himage, ← hp'.signedContent_mul_image hp,
    ← hq'.signedContent_mul_image hq]
  ring

section Products

variable (hp : p.ring = .integers) (hq : q.ring = .integers) (hr : r.ring = .integers)
  (himage : r.image .integers = p.image .integers * q.image .integers)

include hp hq hr himage

theorem leading_mul : r.coeff r.degree = p.coeff p.degree * q.coeff q.degree := by
  have hlead := congrArg Polynomial.leadingCoeff himage
  rw [leadingCoeff_mul, leadingCoeff_image hp, leadingCoeff_image hq, leadingCoeff_image hr,
    ← Int.cast_mul] at hlead
  exact CoeffRing.eq_of_contains (R := .integers) rfl rfl hlead

theorem signedContent_mul : r.signedContent = p.signedContent * q.signedContent := by
  rw [signedContent_eq_sign_mul, signedContent_eq_sign_mul, signedContent_eq_sign_mul,
    leading_mul hp hq hr himage, Int.sign_mul, content_mul_of_image himage, Nat.cast_mul]
  ring

/-- The primitive part of a product represents the product of the primitive parts. -/
theorem IsPrimitivePart.mul (hp' : IsPrimitivePart p p') (hq' : IsPrimitivePart q q')
    (hr' : IsPrimitivePart r r') (hzp : p.isZero = false) (hzq : q.isZero = false) :
    r'.image .integers = p'.image .integers * q'.image .integers := by
  have hproduct := IsPrimitivePart.signedContent_mul_image_mul hp hq hr himage hp' hq' hr'
  rw [signedContent_mul hp hq hr himage, Int.cast_mul, C_mul] at hproduct
  refine mul_left_cancel₀ (mul_ne_zero ?_ ?_) hproduct
  · exact C_ne_zero.2 (signedContent_ne_zero hzp)
  · exact C_ne_zero.2 (signedContent_ne_zero hzq)

end Products

/-- Over the integers, the content of a product is the product of the contents. The primitive part
    of a product is the product of the primitive parts. The coefficients of the product have to be
    counted by a machine word, unless it is zero for having a factor that is. -/
theorem contents_multiply (hp : p.ring = .integers) (hq : q.ring = .integers)
    (hword : p.isZero = false → q.isZero = false → p.degree + q.degree + 1 < degreeBound) :
    ∃ product, p.mul q = .ok product ∧ product.content = p.content * q.content ∧
      (p.isZero = false → q.isZero = false →
        ∃ p' q' product', p.primitivePart = .ok p' ∧ q.primitivePart = .ok q' ∧
          product.primitivePart = .ok product' ∧ p'.mul q' = .ok product') := by
  obtain ⟨product, hmul, hring, himage, hdegree⟩ := exists_mul_eq hp hq hword
  refine ⟨product, hmul, content_mul_of_image himage, fun hzp hzq => ?_⟩
  have hword := hword hzp hzq
  obtain ⟨p', hpart, hp'⟩ := exists_primitivePart (p := p) (by omega)
  obtain ⟨q', hpart', hq'⟩ := exists_primitivePart (p := q) (by omega)
  obtain ⟨product', hpart'', hproduct'⟩ := exists_primitivePart hdegree
  refine ⟨p', q', product', hpart, hpart', hpart'', ?_⟩
  rw [mul_eq (hp'.ring_eq.trans hp) (hq'.ring_eq.trans hq)
    (by rwa [hp'.degree_eq hzp, hq'.degree_eq hzq])]
  rw [← IsPrimitivePart.mul hp hq hring himage hp' hq' hproduct' hzp hzq,
    representing_image (hproduct'.ring_eq.trans hring)]

/-- The contents of `-6 x + 4` and `10 x ^ 2 - 5` are two and five. The primitive part of their
    product is that of the opposites of `3 x - 2` and `2 x ^ 2 - 1`. -/
theorem contents_multiply_signs :
    let p := ofSlots .integers [4, -6]
    let q := ofSlots .integers [-5, 0, 10]
    ∃ product, p.mul q = .ok product ∧ product.content = 10 ∧
      ∃ product', product.primitivePart = .ok product' ∧
        (ofSlots .integers [-2, 3]).mul (ofSlots .integers [-1, 0, 2]) = .ok product' := by
  intro p q
  obtain ⟨product, hmul, hcontent, hparts⟩ := contents_multiply (p := p) (q := q) rfl rfl
    fun _ _ => by decide +kernel
  obtain ⟨p', q', product', hp', hq', hproduct', hmul'⟩ :=
    hparts (by decide +kernel) (by decide +kernel)
  have hp : p.primitivePart = .ok (ofSlots .integers [-2, 3]) := by decide +kernel
  have hq : q.primitivePart = .ok (ofSlots .integers [-1, 0, 2]) := by decide +kernel
  obtain rfl := Except.ok.inj (hp'.symm.trans hp)
  obtain rfl := Except.ok.inj (hq'.symm.trans hq)
  refine ⟨product, hmul, hcontent.trans ?_, product', hproduct', hmul'⟩
  decide +kernel

/-- The power of `x` with the highest exponent and one have content one, but there is no product of
    the two with content one: its coefficients are more than a machine word can count. -/
theorem contents_multiply_highestPower :
    (highestPower .integers).content * (const .integers 1).content = 1 ∧
      ¬∃ product, (highestPower .integers).mul (const .integers 1) = .ok product ∧
        product.content = (highestPower .integers).content * (const .integers 1).content := by
  refine ⟨by decide, ?_⟩
  rintro ⟨product, hmul, -⟩
  have hword : ¬(highestPower .integers).degree + (const .integers 1).degree + 1 < degreeBound := by
    rw [degree_const]
    exact not_degree_highestPower_lt
  rw [mul_eq_error (R := .integers) rfl rfl (by decide) hword] at hmul
  cases hmul

end Poly

end Univariate
