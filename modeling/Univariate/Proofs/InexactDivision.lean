import Univariate.Proofs.CanonicalEdits
import Univariate.Proofs.ExactDivision

/-!
# Where an exact division stops

An exact division that comes to a coefficient which the leading coefficient of the divisor does not
divide stops with what it has so far. The coefficients eliminated until then are in the quotient,
and the rest of the dividend is in the remainder, whose leading coefficient is the one it stopped
at. Neither buffer is left half-way through a step.

* `LongDivision.Stopped` is what then holds of the two buffers.
* `LongDivision.Partial.stopped` reads it off the invariant of the steps: the leading exponent of
  the remainder is the one that was to be eliminated, since there is nothing left past it, and the
  coefficient there is not zero, since zero is divided by anything.
* `LongDivision.run_exact_stopped` is the same for whole divisions.
-/

namespace Univariate.LongDivision

open Polynomial

variable {R : CoeffRing} {dividend divisor : Buffer} {shift : Nat} {s s' : LongDivision}
  {c l : Int}

/-- A division stopped at the coefficient `c`, which the leading coefficient `l` of the divisor does
    not divide: it has divided the dividend down to there. -/
structure Stopped (R : CoeffRing) (dividend divisor : Buffer) (c l : Int) (s : LongDivision) :
    Prop where
  identity : dividend.image R = s.quotient.image R * divisor.image R + s.remainder.image R
  canonical_quotient : s.quotient.Canonical R
  canonical_remainder : s.remainder.Canonical R
  degree_le : divisor.degree ≤ s.remainder.degree
  coefficient_eq : c = s.remainder.leading
  divisor_eq : l = divisor.leading
  not_dvd : ¬(l : R.Element) ∣ (c : R.Element)
  degree_lt_of_slot : ∀ i, s.quotient.slot i ≠ 0 → s.remainder.degree - divisor.degree < i

/-- The coefficient to be eliminated is the leading one, unless it is zero. -/
theorem Partial.degree_remainder {v w : R.Element}
    (h : Partial R dividend divisor v w (shift + 1) s)
    (hc : s.remainder.slot (divisor.degree + shift) ≠ 0) :
    s.remainder.degree = divisor.degree + shift :=
  h.remainder.degree_eq (fun _ hi => h.remainder_eq_zero _ (Nat.succ_le_of_lt hi)) hc

/-- Where the leading coefficient of the divisor does not divide, the invariant of the steps says
    what is left. -/
theorem Partial.stopped (h : Partial R dividend divisor 1 1 (shift + 1) s)
    (hcanonical : s.Canonical R True) (hd : divisor.Canonical R) (hzero : divisor.isZero = false)
    (hdvd : R.divides divisor.leading (s.remainder.slot (divisor.degree + shift)) = false) :
    Stopped R dividend divisor (s.remainder.slot (divisor.degree + shift)) divisor.leading s := by
  have hnot : ¬(divisor.leading : R.Element) ∣
      (s.remainder.slot (divisor.degree + shift) : R.Element) := by
    rw [← CoeffRing.divides_iff_dvd (hd.isZero_leading hzero), hdvd]
    exact Bool.false_ne_true
  have hne : s.remainder.slot (divisor.degree + shift) ≠ 0 := fun hc => by
    rw [hc, Int.cast_zero] at hnot
    exact hnot (dvd_zero _)
  have hdegree := h.degree_remainder hne
  refine ⟨?_, hcanonical.canonical_quotient, hcanonical.remainder, ?_, ?_, rfl, hnot,
    fun i hi => ?_⟩
  · have hidentity := h.identity
    rwa [C_1, one_mul, one_mul] at hidentity
  · omega
  · rw [Buffer.leading, hdegree]
  · -- The steps to come have not put anything in the quotient yet.
    have hlt : ¬i < shift + 1 := fun hlt => hi (h.quotient_eq_zero i hlt)
    omega

/-- An exact division that is refused as inexact has divided its dividend down to the leading
    coefficient of what it leaves in the remainder, which the one of the divisor does not divide.
    The buffers may have held anything before. -/
theorem run_exact_stopped (hp : dividend.Canonical R) (hd : divisor.Canonical R)
    (hzero : divisor.isZero = false) (hdeg : divisor.degree ≤ dividend.degree)
    (hword : dividend.degree < degreeBound) (hq : s.quotient.WellFormed)
    (hr : s.remainder.WellFormed)
    (hrun : (run R .exact dividend divisor).run s = .error (.refused (.inexactDivision c l)) s') :
    Stopped R dividend divisor c l s' := by
  rw [run_run, hzero, if_neg Bool.false_ne_true, if_neg (not_lt.2 hdeg)] at hrun
  split_ifs at hrun with hqcap hrcap
  · cases hrun
  · cases hrun
  · have hfits : ∀ shift < dividend.degree - divisor.degree + 1,
        (s.started R .exact dividend divisor).Fits divisor shift :=
      fits_started hzero hdeg hword (not_le.1 hqcap) (not_le.1 hrcap)
    -- Next to the invariant of the identity, the quotient is normalized at every step.
    have hsteps := exactSteps_induction
      (I := fun count s => Partial R dividend divisor 1 1 count s ∧ s.Canonical R True)
      (fun _ _ hz hs => ⟨hs.1.passed hz, hs.2⟩)
      (fun _ _ _ hfits _ hq hs =>
        ⟨hs.1.exactStepped hd.toWellFormed hfits hq, hs.2.exactStepped hfits hq⟩)
      ⟨.started .exact 1 hp hdeg hq hr (not_le.1 hrcap),
        .of_buffers hq.canonical_clear (.copied hr hp (not_le.1 hrcap))⟩ hfits
    split at hrun
    · cases hrun
    · next e s₁ hstop =>
      cases hrun
      rw [hstop] at hsteps
      obtain ⟨shift, -, s₀, hfits₀, ⟨hpartial, hcanonical⟩, hstep⟩ := hsteps
      obtain ⟨he, hdvd⟩ := refused_of_run_exactStep hfits₀ hstep
      rw [eq_announced_of_run_exactStep hfits₀ hstep]
      cases he
      exact (hpartial.reported _).stopped (hcanonical.reported _) hd hzero hdvd

/-- Modulo `6`, the exact division of `-2 x ^ 3 + x ^ 2` by `2 x + 1` stops after a step. It has
    divided down to the coefficient `-1` of `x ^ 2`, and the quotient so far is `2 x ^ 2`. -/
theorem run_exact_stopped_six :
    let R : CoeffRing := .modular 6 false (by decide)
    let dividend : Buffer := ⟨4, #[0, 0, 1, -2]⟩
    let divisor : Buffer := ⟨2, #[1, 2]⟩
    let s : LongDivision := ⟨⟨1, #[0, 0, 0]⟩, ⟨2, #[5, 3, 0, 0]⟩, #[]⟩
    ((run R .exact dividend divisor).leaves s).quotient = ⟨3, #[0, 0, 2]⟩ ∧
      ((run R .exact dividend divisor).leaves s).remainder = ⟨3, #[0, 0, -1, 0]⟩ ∧
      Stopped R dividend divisor (-1) 2 ((run R .exact dividend divisor).leaves s) := by
  intro R dividend divisor s
  have houtcome : (run R .exact dividend divisor).outcome s =
      .error (.refused (.inexactDivision (-1) 2)) := by
    decide +kernel
  exact ⟨by decide +kernel, by decide +kernel,
    run_exact_stopped (by decide +kernel) (by decide +kernel) (by decide) (by decide) (by decide)
      (by decide +kernel) (by decide +kernel) (Action.run_of_outcome_error houtcome)⟩

end Univariate.LongDivision
