import Mathlib.Algebra.Polynomial.Derivative
import Univariate.Proofs.DivisionInBuffers
import Univariate.Proofs.MergedTerms

/-!
# Derivatives

The derivative of a polynomial multiplies each coefficient by its exponent, which acts as a machine
integer: below `2 ^ 63` it is itself, and from there on it is less by `2 ^ 64`.

* `wordDerivative` is what is computed, in every ring and for every polynomial whose coefficients a
  machine word can count (`Poly.derivative_eq`).
* It is the formal derivative exactly where the difference vanishes (`wordDerivative_eq_iff`), in
  particular for all degrees below `2 ^ 63`.
* `Poly.derivative_derivation` carries the laws of the formal derivative over to the results: sums,
  products and powers of `x`.
-/

namespace Univariate

open Polynomial

/-- The exponents below this bound are themselves as machine integers. -/
def exponentBound : Nat := 2 ^ 63

/-- The exponents from there on are less by the number of machine words. -/
theorem toInt_ofNat_exponent {i : Nat} (hi : i < degreeBound) :
    (Int64.ofNat i).toInt = if i < exponentBound then (i : Int) else i - degreeBound := by
  rw [Int64.toInt_ofNat', Int.bmod_def]
  simp only [Int64.size, degreeBound, UInt64.size, exponentBound] at hi ⊢
  split_ifs <;> omega

section WordDerivative

variable {A : Type} [CommRing A] {f : A[X]}

/-- The derivative, with the exponents acting as machine integers. -/
noncomputable def wordDerivative (f : A[X]) : A[X] :=
  ∑ i ∈ Finset.range f.natDegree,
    monomial i (f.coeff (i + 1) * ((Int64.ofNat (i + 1)).toInt : A))

theorem coeff_wordDerivative (f : A[X]) (i : Nat) :
    (wordDerivative f).coeff i = f.coeff (i + 1) * ((Int64.ofNat (i + 1)).toInt : A) := by
  rw [wordDerivative, finsetSum_coeff]
  simp only [coeff_monomial, Finset.sum_ite_eq', Finset.mem_range]
  split_ifs with hi
  · rfl
  · rw [coeff_eq_zero_of_natDegree_lt (by omega), zero_mul]

/-- A coefficient is multiplied by its exponent exactly if the exponent is below the bound, or what
    it is then less by annihilates the coefficient. -/
theorem coeff_wordDerivative_eq_iff (hf : f.natDegree < degreeBound) (i : Nat) :
    (wordDerivative f).coeff i = (Polynomial.derivative f).coeff i ↔
      (exponentBound ≤ i + 1 → (degreeBound : A) * f.coeff (i + 1) = 0) := by
  rw [coeff_wordDerivative, coeff_derivative]
  rcases Nat.lt_or_ge (i + 1) degreeBound with hi | hi
  · rw [toInt_ofNat_exponent hi]
    split_ifs with hlt
    · refine iff_of_true ?_ fun hle => absurd hlt (not_lt.2 hle)
      push_cast
      rfl
    · have hless : ((((i + 1 : Nat) : Int) - degreeBound : Int) : A) = i + 1 - degreeBound := by
        push_cast
        rfl
      rw [imp_iff_right (not_lt.1 hlt), hless, mul_sub, sub_eq_self, mul_comm]
  · -- There are no coefficients that far out.
    rw [coeff_eq_zero_of_natDegree_lt (hf.trans_le hi)]
    simp

theorem wordDerivative_eq_iff (hf : f.natDegree < degreeBound) :
    wordDerivative f = Polynomial.derivative f ↔
      ∀ i, exponentBound ≤ i → (degreeBound : A) * f.coeff i = 0 := by
  rw [Polynomial.ext_iff]
  refine (forall_congr' (coeff_wordDerivative_eq_iff hf)).trans ⟨fun h i hi => ?_, fun h i => h _⟩
  obtain ⟨j, rfl⟩ : ∃ j, i = j + 1 := Nat.exists_eq_add_one.2 (lt_of_lt_of_le (by decide) hi)
  exact h j hi

theorem wordDerivative_of_lt (hf : f.natDegree < exponentBound) :
    wordDerivative f = Polynomial.derivative f := by
  refine (wordDerivative_eq_iff (hf.trans (by decide))).2 fun i hi => ?_
  rw [coeff_eq_zero_of_natDegree_lt (hf.trans_le hi), mul_zero]

end WordDerivative

/-! ## Buffers -/

namespace Buffer

variable {R : CoeffRing} {t source : Buffer}

theorem image_putDerivative (ht : t.WellFormed) (hs : source.WellFormed)
    (hd : source.degree ≤ t.capacity) :
    (t.clear.putDerivative R source).image R = wordDerivative (source.image R) := by
  ext i
  rw [coeff_image, coeff_wordDerivative, coeff_image, slot_putDerivative, capacity_clear]
  split_ifs with h
  · rw [CoeffRing.cast_mulInt]
  · -- What is passed over is zero, and so is what was cleared.
    have hzero : source.slot (i + 1) = 0 := by
      by_contra hne
      have hsize : i + 1 < source.size :=
        not_le.1 fun hle => hne (hs.slot_eq_zero _ hle)
      have := hs.degree_add_one
      exact h ⟨by omega, hsize, hne⟩
    rw [hzero, ht.slot_clear_eq_zero, Int.cast_zero, zero_mul]

theorem wordDerivative_of_degree_eq_zero (hs : source.WellFormed) (hd : source.degree = 0) :
    wordDerivative (source.image R) = 0 := by
  ext i
  rw [coeff_wordDerivative, coeff_image, hs.slot_eq_zero_of_degree_lt (by omega), Int.cast_zero,
    zero_mul, coeff_zero]

theorem computes_differentiate (ht : t.WellFormed) (hs : source.WellFormed)
    (hd : source.degree ≤ t.capacity) :
    Computes R (differentiate R source) t (wordDerivative (source.image R)) := by
  rw [Computes, run_differentiate]
  by_cases hzero : source.degree = 0
  · rw [if_pos hzero, wordDerivative_of_degree_eq_zero hs hzero]
    exact ⟨t.clear, rfl, ht.clear, image_clear ht⟩
  · rw [if_neg hzero, if_neg (not_lt.2 hd)]
    refine ⟨_, rfl, ?_, ?_⟩
    · refine ht.clear.resize (size_putDerivative ..) (capacity_putDerivative ..) ?_
        fun i hi => slot_putDerivative_of_lt _ _ _ hi
      rw [capacity_clear]
      omega
    · rw [image_resize, image_putDerivative ht hs hd]

end Buffer

/-! ## Polynomials -/

namespace Poly

variable {R : CoeffRing} {p q : Poly} {f g : R.Element[X]}

theorem derivative_eq (hp : p.ring = R) (hword : p.degree + 1 < degreeBound) :
    p.derivative = .ok (representing R (wordDerivative (p.image R))) := by
  obtain ⟨source, hsource, hholds⟩ := exists_toBuffer hword
  have hd : source.degree ≤
      (⟨1, .replicate (p.degree - 1 + 1) 0⟩ : Buffer).capacity := by
    rw [Buffer.capacity_replicate, hholds.degree_eq]
    omega
  obtain ⟨u, hrun, hu, himage⟩ :=
    Buffer.computes_differentiate (R := R) (Buffer.wellFormed_replicate _) hholds.wellFormed hd
  rw [derivative, hsource, ok_bind, Buffer.ofDegreeBound_eq (by omega), ok_bind, hp,
    Action.finalState, hrun, ok_bind, Buffer.toPoly_eq_representing hu, himage, hholds.image_eq]
  rfl

/-- Without room to count the coefficients, there is no derivative. -/
theorem derivative_eq_error (hword : ¬p.degree + 1 < degreeBound) :
    p.derivative = .error (.faulted .degreeOverflow) := by
  rw [derivative, toBuffer_eq_error hword]
  rfl

theorem derivative_eq_of_lt (hp : p.ring = R) (hlt : p.degree < exponentBound) :
    p.derivative = .ok (representing R (Polynomial.derivative (p.image R))) := by
  have hword : p.degree + 1 < degreeBound := lt_of_le_of_lt hlt (by decide)
  rw [derivative_eq hp hword, wordDerivative_of_lt (by rwa [natDegree_image hp])]

theorem representing_inj : representing R f = representing R g ↔ f = g := by
  refine ⟨fun h => ?_, congrArg _⟩
  rw [← image_representing R f, h, image_representing]

theorem degree_representing_derivative_le (hp : p.ring = R) :
    (representing R (Polynomial.derivative (p.image R))).degree ≤ p.degree := by
  rw [degree_representing, ← natDegree_image hp]
  exact (natDegree_derivative_le _).trans (Nat.sub_le _ _)

/-! ## Sums and products -/

theorem add_derivative_eq (hp : p.ring = R) (hq : q.ring = R) (hpd : p.degree < exponentBound)
    (hqd : q.degree < exponentBound) :
    (p.add q >>= derivative) =
      .ok (representing R (Polynomial.derivative (p.image R + q.image R))) := by
  have hle := degree_representing_add_le hp hq
  have hlt := max_lt hpd hqd
  have hword : max p.degree q.degree + 1 < degreeBound := lt_of_le_of_lt hlt (by decide)
  rw [add_eq hp hq hword, ok_bind,
    derivative_eq_of_lt (ring_representing R _) (hle.trans_lt hlt), image_representing]

theorem derivative_add_eq (hp : p.ring = R) (hq : q.ring = R) (hpd : p.degree < exponentBound)
    (hqd : q.degree < exponentBound) :
    (do (← p.derivative).add (← q.derivative)) =
      .ok (representing R (Polynomial.derivative (p.image R + q.image R))) := by
  have hp' := degree_representing_derivative_le hp
  have hq' := degree_representing_derivative_le hq
  have hword : exponentBound + 1 < degreeBound := by decide
  rw [derivative_eq_of_lt hp hpd, derivative_eq_of_lt hq hqd, ok_bind, ok_bind,
    add_eq (ring_representing R _) (ring_representing R _) (by omega), image_representing,
    image_representing, Polynomial.derivative_add]

theorem mul_derivative_eq (hp : p.ring = R) (hq : q.ring = R)
    (hword : p.degree + q.degree + 1 < degreeBound) :
    (p.mul q >>= derivative) = .ok (representing R (wordDerivative (p.image R * q.image R))) := by
  have hle := degree_representing_mul_le hp hq
  rw [mul_eq hp hq hword, ok_bind, derivative_eq (ring_representing R _) (by omega),
    image_representing]

theorem derivative_mul_eq (hp : p.ring = R) (hq : q.ring = R) (hpd : p.degree < exponentBound)
    (hqd : q.degree < exponentBound) (hword : p.degree + q.degree + 1 < degreeBound) :
    (do (← (← p.derivative).mul q).add (← p.mul (← q.derivative))) =
      .ok (representing R (Polynomial.derivative (p.image R * q.image R))) := by
  have hp' := degree_representing_derivative_le hp
  have hq' := degree_representing_derivative_le hq
  have hleft :=
    degree_representing_mul_le (ring_representing R (Polynomial.derivative (p.image R))) hq
  have hright :=
    degree_representing_mul_le hp (ring_representing R (Polynomial.derivative (q.image R)))
  rw [derivative_eq_of_lt hp hpd, ok_bind, mul_eq (ring_representing R _) hq (by omega), ok_bind,
    derivative_eq_of_lt hq hqd, ok_bind, mul_eq hp (ring_representing R _) (by omega), ok_bind,
    add_eq (ring_representing R _) (ring_representing R _) (by omega), image_representing,
    image_representing, image_representing, image_representing, Polynomial.derivative_mul]

/-! ## Powers -/

theorem image_ofTerms_singleton (R : CoeffRing) (a : Term) :
    (ofTerms R [a]).image R = monomial a.degree (a.coefficient : R.Element) := by
  ext d
  rw [coeff_image, coeff_monomial, coeff_ofTerms, CoeffRing.cast_normalize, Term.total_cons,
    Term.total_nil, add_zero, apply_ite Int.cast, Int.cast_zero]

theorem ring_ofTerms (R : CoeffRing) (terms : List Term) : (ofTerms R terms).ring = R :=
  rfl

theorem image_ofTerms_power (R : CoeffRing) (k : Nat) :
    (ofTerms R [.power k]).image R = monomial k 1 := by
  rw [image_ofTerms_singleton, Term.power, Int.cast_one]

theorem degree_ofTerms_power (R : CoeffRing) (k : Nat) : (ofTerms R [.power k]).degree = k := by
  rw [← natDegree_image (ring_ofTerms R [.power k]), image_ofTerms_power,
    natDegree_monomial_eq k one_ne_zero]

/-- A power of `x` is differentiated formally exactly if its exponent is below the bound, or the
    number of machine words is zero in the ring. -/
theorem wordDerivative_power_eq_iff {k : Nat} (hk : k < degreeBound) :
    wordDerivative (monomial k (1 : R.Element)) = monomial (k - 1) (k : R.Element) ↔
      k < exponentBound ∨ (degreeBound : R.Element) = 0 := by
  have hformal : Polynomial.derivative (monomial k (1 : R.Element)) = monomial (k - 1) ↑k := by
    rw [derivative_monomial, one_mul]
  rw [← hformal, wordDerivative_eq_iff ((natDegree_monomial_le 1).trans_lt hk)]
  constructor
  · intro h
    refine (Nat.lt_or_ge k exponentBound).imp_right fun hle => ?_
    simpa using h k hle
  · rintro (hlt | hzero) i hi
    · rw [coeff_monomial, if_neg (by omega), mul_zero]
    · rw [hzero, zero_mul]

/-! ## The formal derivative -/

/-- In every ring, the derivative of a polynomial of degree below `2 ^ 63` is there, and that of a
    sum is the sum of the derivatives. A product has its derivative too, and so has the sum that the
    product rule asks for; they are equal exactly if `2 ^ 64` annihilates the coefficients of the
    product from `x ^ (2 ^ 63)` on, as where there are none. A power of `x` has its derivative as
    long as a machine word can count its coefficients. It is the product of the exponent and the
    power before exactly if the exponent is below `2 ^ 63`, or `2 ^ 64` is zero in the ring. -/
theorem derivative_derivation (hp : p.ring = R) (hq : q.ring = R) (hpd : p.degree < exponentBound)
    (hqd : q.degree < exponentBound) :
    (∃ r, p.derivative = .ok r) ∧
      (∃ r, (p.add q >>= derivative) = .ok r ∧
        (do (← p.derivative).add (← q.derivative)) = .ok r) ∧
      (∃ r s, (p.mul q >>= derivative) = .ok r ∧
        (do (← (← p.derivative).mul q).add (← p.mul (← q.derivative))) = .ok s ∧
        (r = s ↔ ∀ i, exponentBound ≤ i →
          (degreeBound : R.Element) * (p.image R * q.image R).coeff i = 0)) ∧
      ∀ k, k + 1 < degreeBound →
        ∃ r, (ofTerms R [.power k]).derivative = .ok r ∧
          (r = ofTerms R [⟨k - 1, k⟩] ↔ k < exponentBound ∨ (degreeBound : R.Element) = 0) := by
  have hword : p.degree + q.degree + 1 < degreeBound := by
    rw [show degreeBound = 2 * exponentBound from rfl]
    omega
  refine ⟨⟨_, derivative_eq_of_lt hp hpd⟩,
    ⟨_, add_derivative_eq hp hq hpd hqd, derivative_add_eq hp hq hpd hqd⟩,
    ⟨_, _, mul_derivative_eq hp hq hword, derivative_mul_eq hp hq hpd hqd hword, ?_⟩,
    fun k hk => ⟨_, derivative_eq (ring_ofTerms R _) (by rwa [degree_ofTerms_power]), ?_⟩⟩
  · rw [representing_inj, wordDerivative_eq_iff]
    refine lt_of_le_of_lt natDegree_mul_le ?_
    rw [natDegree_image hp, natDegree_image hq]
    omega
  · rw [← representing_image (ring_ofTerms R [⟨k - 1, k⟩]), representing_inj, image_ofTerms_power,
      image_ofTerms_singleton, Int.cast_natCast, wordDerivative_power_eq_iff (Nat.lt_of_succ_lt hk)]

/-- Modulo `3`, the derivative of `x ^ 3 + 1` vanishes, and the product rule gives `-x ^ 4 - x` for
    the product with `x ^ 2`. The derivative of `x ^ 3` is its exponent times `x ^ 2`, which is
    zero. -/
theorem derivative_derivation_three :
    let R : CoeffRing := .modular 3 true (by decide)
    let p := ofSlots R [1, 0, 0, 1]
    let q := ofSlots R [0, 0, 1]
    (p.mul q >>= derivative) = .ok (ofSlots R [0, -1, 0, 0, -1]) ∧
      (do (← (← p.derivative).mul q).add (← p.mul (← q.derivative))) =
        .ok (ofSlots R [0, -1, 0, 0, -1]) ∧
      (ofTerms R [.power 3]).derivative = .ok (zero R) := by
  intro R p q
  have hp : p.ring = R := rfl
  have hq : q.ring = R := rfl
  have hpd : p.degree = 3 := by decide +kernel
  have hqd : q.degree = 2 := by decide +kernel
  obtain ⟨-, -, ⟨r, s, hr, hs, hiff⟩, hpower⟩ := derivative_derivation hp hq
    (by rw [hpd]; decide) (by rw [hqd]; decide)
  obtain ⟨t, ht, hthree⟩ := hpower 3 (by decide)
  have hvalue : (p.mul q >>= derivative) = .ok (ofSlots R [0, -1, 0, 0, -1]) := by
    decide +kernel
  have hdegree : (p.image R * q.image R).natDegree ≤ 5 := by
    refine natDegree_mul_le.trans ?_
    rw [natDegree_image hp, natDegree_image hq, hpd, hqd]
  refine ⟨hvalue, ?_, ?_⟩
  · rw [hs, ← hvalue, hr, hiff.2 fun i hi => ?_]
    have hfar : 5 < i := lt_of_lt_of_le (by decide) hi
    rw [coeff_eq_zero_of_natDegree_lt (hdegree.trans_lt hfar), mul_zero]
  · rw [ht, hthree.2 (.inl (by decide))]
    decide +kernel

/-- The power of `x` with the highest exponent has no derivative, since its coefficients are more
    than a machine word can count. Over the integers, the product of `x ^ (2 ^ 62)` and itself has
    one, but not that of the product rule: its exponent is negative as a machine integer. -/
theorem derivative_highestPower :
    (ofTerms .integers [.power (degreeBound - 1)]).derivative =
        .error (.faulted .degreeOverflow) ∧
      let p := ofTerms .integers [.power (2 ^ 62)]
      ∃ r s, (p.mul p >>= derivative) = .ok r ∧
        (do (← (← p.derivative).mul p).add (← p.mul (← p.derivative))) = .ok s ∧ r ≠ s := by
  refine ⟨derivative_eq_error (by rw [degree_ofTerms_power]; decide), ?_⟩
  intro p
  have hp : p.ring = .integers := rfl
  have hpd : p.degree = 2 ^ 62 := degree_ofTerms_power .integers (2 ^ 62)
  have hlt : p.degree < exponentBound := by
    rw [hpd]
    decide
  have hword : p.degree + p.degree + 1 < degreeBound := by
    rw [hpd]
    decide
  refine ⟨_, _, mul_derivative_eq hp hp hword, derivative_mul_eq hp hp hlt hlt hword, ?_⟩
  have hsquare : p.image .integers * p.image .integers = monomial exponentBound 1 := by
    rw [image_ofTerms_power, monomial_mul_monomial, one_mul]
    rfl
  rw [ne_eq, representing_inj, hsquare,
    wordDerivative_eq_iff ((natDegree_monomial_le _).trans_lt (by decide))]
  intro h
  have hlead := h exponentBound le_rfl
  rw [coeff_monomial, if_pos rfl, mul_one] at hlead
  exact absurd hlead (by decide)

end Poly

end Univariate
