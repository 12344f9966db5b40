import Univariate.Proofs.CanonicalEdits
import Univariate.Proofs.Remainders

/-!
# Scaling and exact division by a scalar

An exact division of a buffer by a scalar ends with every coefficient divided, or stops at the first
that the scalar does not divide (`Buffer.unscale_cases`). A quotient times the scalar is the
dividend, whichever of several quotients it is (`Buffer.Divided.image_eq`). So scaling undoes an
exact division (`Buffer.Canonical.run_scale_of_unscale`), while an exact division undoes a scaling
by what is no zero divisor (`Buffer.Canonical.run_unscale_of_scale`). `Buffer.unscale_inverts` puts
it together.
-/

namespace Univariate

open Polynomial

namespace Buffer

variable {R : CoeffRing} {c : Int} {i j : Nat} {t u : Buffer}

/-- Divided slots hold what the scalar divides. -/
theorem Divided.dvd {k : Nat} (h : Divided R c i j t u) (hik : i ≤ k) (hkj : k < j) :
    (c : R.Element) ∣ t.slot k :=
  CoeffRing.dvd_of_exactQuotient (h.quotient k hik hkj)

/-- With all significant slots divided, the scalar times what they hold is what they held. -/
theorem Divided.image_eq (h : Divided R c 0 t.size t u) (ht : t.WellFormed) :
    C (c : R.Element) * u.image R = t.image R := by
  ext k
  rw [coeff_C_mul, coeff_image, coeff_image]
  by_cases hk : k < t.size
  · rw [mul_comm]
    exact (CoeffRing.exactQuotient_mul (h.quotient k (Nat.zero_le k) hk)).2
  · rw [h.slot_eq k (not_lt.1 hk), ht.slot_eq_zero k (not_lt.1 hk), Int.cast_zero, mul_zero]

/-- An exact division of the coefficients succeeds when the scalar divides them all. -/
theorem unscale_succeeds_iff (hc : R.isZero c = false) :
    (∃ u, (unscale R c).run t = .ok () u) ↔ ∀ k < t.size, (c : R.Element) ∣ t.slot k := by
  rcases unscale_cases hc t with ⟨u, hrun, h⟩ | ⟨k, u, hrun, hk, hdvd, -⟩
  · exact iff_of_true ⟨_, hrun⟩ fun k hk => h.dvd (Nat.zero_le k) hk
  · refine iff_of_false ?_ fun hall => hdvd (hall k hk)
    rintro ⟨v, hv⟩
    rw [hrun] at hv
    cases hv

/-- What an exact division of a canonical buffer leaves when it succeeds: a canonical buffer that
    gives the dividend when it is multiplied. -/
theorem Canonical.of_unscale (ht : t.Canonical R) (hc : R.isZero c = false)
    (h : (unscale R c).run t = .ok () u) :
    u.Canonical R ∧ u.capacity = t.capacity ∧ C (c : R.Element) * u.image R = t.image R := by
  have hcanonical := keeps_canonical_unscale c t ht
  rw [Action.leaves_of_run_ok h] at hcanonical
  refine ⟨hcanonical, ?_⟩
  rcases unscale_cases hc t with ⟨v, hrun, hdivided⟩ | ⟨k, v, hrun, -⟩
  · rw [hrun] at h
    cases h
    rw [capacity_trim, image_trim]
    exact ⟨hdivided.capacity_eq, hdivided.image_eq ht.toWellFormed⟩
  · rw [hrun] at h
    cases h

/-- Multiplication undoes an exact division, whichever of several quotients that has chosen. -/
theorem Canonical.run_scale_of_unscale (ht : t.Canonical R) (hc : R.isZero c = false)
    (h : (unscale R c).run t = .ok () u) : (scale R c).run u = .ok () t := by
  obtain ⟨hcanonical, hcapacity, himage⟩ := ht.of_unscale hc h
  rw [run_scale, if_neg (by simp [hc])]
  congr 1
  refine (hcanonical.scaled c).eq_of_image ht ?_ ?_
  · rw [capacity_trim, capacity_mapNonzero, hcapacity]
  · rw [image_scaled hcanonical.toWellFormed, himage]

/-- An exact division undoes a multiplication by a scalar that is no zero divisor. -/
theorem Canonical.run_unscale_of_scale (ht : t.Canonical R) (hc : R.isZero c = false)
    (hregular : IsLeftRegular (c : R.Element)) (h : (scale R c).run t = .ok () u) :
    (unscale R c).run u = .ok () t := by
  rw [run_scale, if_neg (by simp [hc])] at h
  cases h
  obtain ⟨v, hv⟩ := (unscale_succeeds_iff hc).2 fun k _ =>
    ⟨(t.slot k : R.Element), cast_slot_scaled ht.toWellFormed c k⟩
  obtain ⟨hcanonical, hcapacity, himage⟩ := (ht.scaled c).of_unscale hc hv
  rw [hv]
  congr 1
  refine hcanonical.eq_of_image ht ?_ ?_
  · rw [hcapacity, capacity_trim, capacity_mapNonzero]
  · rw [image_scaled ht.toWellFormed] at himage
    ext k
    refine hregular ?_
    have hcoeff := congrArg (coeff · k) himage
    simpa only [coeff_C_mul] using hcoeff

/-- Over the integers, what is not zero is no zero divisor; modulo `m`, a unit is none. -/
theorem isLeftRegular_of_isUnit (hc : R.isZero c = false)
    (hunit : R = .integers ∨ IsUnit (c : R.Element)) : IsLeftRegular (c : R.Element) := by
  rcases hunit with rfl | hunit
  · exact (IsRegular.of_ne_zero (R := CoeffRing.integers.Element)
      (CoeffRing.isZero_eq_false_iff.1 hc)).left
  · exact hunit.isRegular.left

/-- In every ring, an exact division of the coefficients of a canonical buffer by a scalar that is
    not zero succeeds exactly when the scalar divides those that are not zero, and multiplication by
    the scalar then gives the buffer back. By a unit, or by any scalar that is not zero over the
    integers, the division undoes a multiplication as well. If the division fails, it has stopped at
    the first coefficient that the scalar does not divide; those below it hold their quotients, and
    nothing else has changed. -/
theorem unscale_inverts (ht : t.Canonical R) (hc : R.isZero c = false) :
    ((∃ u, (unscale R c).run t = .ok () u) ↔
        ∀ k < t.size, t.slot k ≠ 0 → (c : R.Element) ∣ t.slot k) ∧
      (∀ u, (unscale R c).run t = .ok () u → (scale R c).run u = .ok () t) ∧
      (R = .integers ∨ IsUnit (c : R.Element) →
        ∃ u, (scale R c).run t = .ok () u ∧ (unscale R c).run u = .ok () t) ∧
      ∀ e u, (unscale R c).run t = .error e u →
        ∃ j < t.size, e = .faulted (.indivisible (t.slot j) c R) ∧
          (¬ (c : R.Element) ∣ t.slot j) ∧ (∀ k < j, (c : R.Element) ∣ t.slot k) ∧
          (∀ k < j, R.exactQuotient (t.slot k) c = .ok (u.slot k)) ∧
          (∀ k, j ≤ k → u.slot k = t.slot k) ∧ u.size = t.size ∧ u.capacity = t.capacity := by
  refine ⟨?_, fun u hu => ht.run_scale_of_unscale hc hu, fun hunit => ?_, fun e u hu => ?_⟩
  · rw [unscale_succeeds_iff hc]
    refine forall₂_congr fun k _ => ⟨fun hdvd _ => hdvd, fun hdvd => ?_⟩
    by_cases hzero : t.slot k = 0
    · rw [hzero, Int.cast_zero]
      exact dvd_zero _
    · exact hdvd hzero
  · have hscale : (scale R c).run t = .ok () ((t.mapNonzero (R.mul · c)).trim R) := by
      rw [run_scale, if_neg (by simp [hc])]
    exact ⟨_, hscale, ht.run_unscale_of_scale hc (isLeftRegular_of_isUnit hc hunit) hscale⟩
  · rcases unscale_cases hc t with ⟨v, hrun, -⟩ | ⟨j, v, hrun, hj, hdvd, hdivided⟩
    · rw [hrun] at hu
      cases hu
    · rw [hrun] at hu
      cases hu
      exact ⟨j, hj, rfl, hdvd, fun k hk => hdivided.dvd (Nat.zero_le k) hk,
        fun k hk => hdivided.quotient k (Nat.zero_le k) hk, hdivided.slot_eq,
        hdivided.size_eq, hdivided.capacity_eq⟩

/-- Modulo `12`, the integer `8` is a zero divisor. It divides `4 - 4 * x ^ 2`, and multiplies the
    quotient to that again. In `4 + 3 * x - 4 * x ^ 2` it does not divide the coefficient of `x`,
    where the division stops. The unit `5` divides what it has multiplied. -/
theorem unscale_inverts_twelve :
    let R : CoeffRing := .modular 12 false (by decide)
    let t : Buffer := ⟨3, #[4, 0, -4, 0]⟩
    let t' : Buffer := ⟨3, #[4, 3, -4, 0]⟩
    (∃ u, (unscale R 8).run t = .ok () u ∧ (scale R 8).run u = .ok () t) ∧
      (¬∃ u, (unscale R 8).run t' = .ok () u) ∧
      (∃ u, (scale R 5).run t' = .ok () u ∧ (unscale R 5).run u = .ok () t') ∧
      ∀ u, (unscale R 8).run t' = .error (.faulted (.indivisible 3 8 R)) u →
        u.slot 2 = -4 ∧ u.size = 3 := by
  intro R t t'
  have ht : t.Canonical R := by decide +kernel
  have ht' : t'.Canonical R := by decide +kernel
  have hdivides : ∀ k < 3, R.divides 8 (t.slot k) = true := by decide
  have hunit : IsUnit ((5 : Int) : R.Element) := .of_mul_eq_one 5 (by decide)
  obtain ⟨hsucceeds, hback, -⟩ := unscale_inverts ht (c := 8) (by decide)
  obtain ⟨hsucceeds', -, -, hstopped⟩ := unscale_inverts ht' (c := 8) (by decide)
  obtain ⟨-, -, hundone, -⟩ := unscale_inverts ht' (c := 5) (by decide)
  refine ⟨?_, fun h => ?_, hundone (.inr hunit), fun u hu => ?_⟩
  · obtain ⟨u, hu⟩ := hsucceeds.2 fun k hk _ =>
      (CoeffRing.divides_iff_dvd (by decide)).1 (hdivides k hk)
    exact ⟨u, hu, hback u hu⟩
  · have hthree := hsucceeds'.1 h 1 (by decide) (by decide)
    exact absurd ((CoeffRing.divides_iff_dvd (by decide)).2 hthree) (by decide)
  · obtain ⟨j, hj, -, -, -, -, hslot, hsize, -⟩ := hstopped _ u hu
    exact ⟨hslot 2 (Nat.le_of_lt_succ hj), hsize⟩

end Buffer

end Univariate
