import Univariate.Proofs.CanonicalForm
import Univariate.Proofs.DivisionSteps
import Univariate.Proofs.Quotients

/-!
# The identities of long division

For canonical operands, whatever the quotient and the remainder buffer held before, an exact
division that succeeds ends with `dividend = quotient * divisor + remainder`, and a pseudo-division
does succeed, with `b ^ n * dividend = quotient * divisor + remainder` for the leading coefficient
`b` of the divisor. The remainder is zero or of smaller degree than the divisor, and both results
are canonical. This is so in every ring, also where `b` is a zero divisor.

* `LongDivision.Partial` is the invariant of the steps: the identity, with a weight on the remainder
  that stands for the multiplications to come, and zero where the steps have been or have yet to go.
* `LongDivision.Partial.subtracted` is the step that both kinds share. It needs a factor whose
  product with the leading coefficient is the coefficient to be eliminated, and does not ask where
  the factor is from.
-/

namespace Univariate

open Polynomial

namespace LongDivision

variable {R : CoeffRing} {dividend divisor : Buffer} {v w : R.Element} {shift count : Nat}
  {s s' : LongDivision}

/-- What the steps for the shifts from `count` on have established: `v` times the dividend is the
    quotient times the divisor plus `w` times the remainder, the remainder has nothing left from
    where they have been, and the quotient nothing yet where the others go. -/
structure Partial (R : CoeffRing) (dividend divisor : Buffer) (v w : R.Element) (count : Nat)
    (s : LongDivision) : Prop where
  quotient : s.quotient.WellFormed
  contains_quotient : ∀ i, R.contains (s.quotient.slot i) = true
  quotient_eq_zero : ∀ i < count, s.quotient.slot i = 0
  remainder : s.remainder.Canonical R
  remainder_eq_zero : ∀ i, divisor.degree + count ≤ i → s.remainder.slot i = 0
  identity : C v * dividend.image R =
    s.quotient.image R * divisor.image R + C w * s.remainder.image R

theorem Partial.reported (h : Partial R dividend divisor v w count s) (event : Event) :
    Partial R dividend divisor v w count (s.reported event) :=
  ⟨h.quotient, h.contains_quotient, h.quotient_eq_zero, h.remainder, h.remainder_eq_zero,
    h.identity⟩

/-- At the start, the remainder is the dividend. -/
theorem Partial.started (kind : DivisionKind) (v : R.Element) (hp : dividend.Canonical R)
    (hdeg : divisor.degree ≤ dividend.degree) (hq : s.quotient.WellFormed)
    (hr : s.remainder.WellFormed) (hlt : dividend.degree < s.remainder.capacity) :
    Partial R dividend divisor v v (dividend.degree - divisor.degree + 1)
      (s.started R kind dividend divisor) := by
  have hclear := hq.slot_clear_eq_zero
  refine ⟨hq.clear, fun i => ?_, fun i _ => hclear i, .copied hr hp hlt, fun i hi => ?_, ?_⟩
  · exact (congrArg _ (hclear i)).trans R.contains_zero
  · refine (Buffer.slot_copied hr hp.toWellFormed hlt i).trans ?_
    exact hp.toWellFormed.slot_eq_zero_of_degree_lt (by omega)
  · change _ = s.quotient.clear.image R * _ + C v * (s.remainder.copied dividend).image R
    rw [Buffer.image_clear hq, zero_mul, zero_add, Buffer.image_copied hr hp.toWellFormed hlt]

/-- A multiplication of the remainder takes its factor from the weight. -/
theorem Partial.scaled (h : Partial R dividend divisor v (w * divisor.leading) count s) :
    Partial R dividend divisor v w count (s.scaled R divisor) where
  quotient := h.quotient
  contains_quotient := h.contains_quotient
  quotient_eq_zero := h.quotient_eq_zero
  remainder := h.remainder.scaled divisor.leading
  remainder_eq_zero i hi := by
    refine CoeffRing.eq_zero_of_cast_eq_zero
      ((h.remainder.scaled divisor.leading).contains_slot i) ?_
    refine (Buffer.cast_slot_scaled h.remainder.toWellFormed divisor.leading i).trans ?_
    rw [h.remainder_eq_zero i hi, Int.cast_zero, mul_zero]
  identity := by
    change _ = s.quotient.image R * _ + C w * ((s.remainder.mapNonzero _).trim R).image R
    rw [Buffer.image_scaled h.remainder.toWellFormed, ← mul_assoc, ← C_mul]
    exact h.identity

/-- A coefficient that is zero in the ring is already eliminated. -/
theorem Partial.passed (h : Partial R dividend divisor v w (shift + 1) s)
    (hz : R.isZero (s.remainder.slot (divisor.degree + shift)) = true) :
    Partial R dividend divisor v w shift s where
  quotient := h.quotient
  contains_quotient := h.contains_quotient
  quotient_eq_zero i hi := h.quotient_eq_zero i (by omega)
  remainder := h.remainder
  remainder_eq_zero i hi := by
    rcases Nat.eq_or_lt_of_le hi with rfl | hi
    · exact CoeffRing.eq_zero_of_cast_eq_zero (h.remainder.contains_slot _)
        (CoeffRing.isZero_iff.1 hz)
    · exact h.remainder_eq_zero i (by omega)
  identity := h.identity

/-- Subtracting the multiple of the divisor that eliminates the highest coefficient, and putting it
    in the quotient with the weight, takes the invariant one shift down. -/
theorem Partial.subtracted (h : Partial R dividend divisor v w (shift + 1) s)
    (hd : divisor.WellFormed) (hfits : s.Fits divisor shift) {factor coefficient : Int}
    (hfactor : (factor : R.Element) * divisor.leading = s.remainder.slot (divisor.degree + shift))
    (hcanonical : R.contains coefficient = true)
    (hweight : (coefficient : R.Element) = w * factor) :
    Partial R dividend divisor v w shift (s.subtracted R divisor shift factor coefficient) := by
  rw [LongDivision.subtracted]
  split_ifs with hz
  · -- A factor zero in the ring finds a coefficient that is zero already.
    rw [CoeffRing.isZero_iff.1 hz, zero_mul] at hfactor
    exact h.passed (CoeffRing.isZero_iff.2 hfactor.symm)
  · have himage : (s.remainder.subShifted R divisor ⟨shift, factor⟩).image R =
        s.remainder.image R - monomial shift (factor : R.Element) * divisor.image R :=
      Buffer.image_subShifted hd hfits.degree_lt_remainder
    refine ⟨h.quotient.written hfits.shift_lt_quotient coefficient,
      Buffer.contains_put h.contains_quotient hcanonical shift, fun i hi => ?_,
      h.remainder.subShifted hfits.degree_lt_remainder, fun i hi => ?_, ?_⟩
    · change (s.quotient.written shift coefficient).slot i = 0
      rw [Buffer.slot_written, if_neg fun hij => by omega]
      exact h.quotient_eq_zero i (by omega)
    · exact h.remainder.slot_eliminated hd (a := ⟨shift, factor⟩) hfits.degree_lt_remainder hfactor
        (fun k hk => h.remainder_eq_zero k (Nat.succ_le_of_lt hk)) hi
    · -- What is taken from the remainder, times the weight, is what the quotient gains.
      change _ = (s.quotient.written shift coefficient).image R * _ + C w *
        ((s.remainder.subShifted R divisor ⟨shift, factor⟩).resize R _).image R
      rw [Buffer.image_written hfits.shift_lt_quotient
        (h.quotient_eq_zero shift (Nat.lt_succ_self shift)), Buffer.image_resize, himage, hweight,
        ← C_mul_monomial, h.identity]
      ring

/-- At the end, the quotient is trimmed. -/
theorem Partial.finished (h : Partial R dividend divisor v 1 0 s) :
    (C v * dividend.image R = (s.finished R).quotient.image R * divisor.image R +
        (s.finished R).remainder.image R) ∧
      ((s.finished R).remainder.isZero = true ∨
        (s.finished R).remainder.degree < divisor.degree) ∧
      (s.finished R).quotient.Canonical R ∧ (s.finished R).remainder.Canonical R := by
  refine ⟨?_, h.remainder.isZero_or_degree_lt h.remainder_eq_zero,
    h.quotient.canonical_trim h.contains_quotient, h.remainder⟩
  change _ = (s.quotient.trim R).image R * _ + s.remainder.image R
  rw [h.identity, Buffer.image_trim, C_1, one_mul]

/-! ## Exact division -/

/-- The step of an exact division that divides keeps the invariant: the exact quotient solves the
    equation for the coefficient to be eliminated. -/
theorem Partial.exactStepped (h : Partial R dividend divisor 1 1 (shift + 1) s)
    (hd : divisor.WellFormed) (hfits : s.Fits divisor shift) {factor : Int}
    (hq : R.exactQuotient (s.remainder.slot (divisor.degree + shift)) divisor.leading =
      .ok factor) :
    Partial R dividend divisor 1 1 shift
      ((s.announced divisor shift).subtracted R divisor shift factor factor) := by
  obtain ⟨hcanonical, hfactor⟩ := CoeffRing.exactQuotient_mul hq
  exact (h.reported _).subtracted hd hfits.announced hfactor hcanonical (one_mul _).symm

/-- The steps of an exact division that come to their end keep the invariant. -/
theorem partial_exactSteps (hd : divisor.WellFormed)
    (h : Partial R dividend divisor 1 1 count s) (hfits : ∀ shift < count, s.Fits divisor shift)
    (hrun : (steps R .exact divisor count).run s = .ok () s') :
    Partial R dividend divisor 1 1 0 s' := by
  have hsteps := exactSteps_induction (I := Partial R dividend divisor 1 1)
    (fun _ _ hz hs => hs.passed hz) (fun _ _ _ hfits _ hq hs => hs.exactStepped hd hfits hq) h hfits
  rw [hrun] at hsteps
  exact hsteps

/-- An exact division that succeeds writes the dividend as the quotient times the divisor plus a
    remainder that is zero or of smaller degree than the divisor, in every ring and whatever its
    buffers held before. -/
theorem run_exact_identity (hp : dividend.Canonical R) (hd : divisor.Canonical R)
    (hzero : divisor.isZero = false) (hdeg : divisor.degree ≤ dividend.degree)
    (hword : dividend.degree < degreeBound) (hq : s.quotient.WellFormed)
    (hr : s.remainder.WellFormed) (hrun : (run R .exact dividend divisor).run s = .ok () s') :
    dividend.image R = s'.quotient.image R * divisor.image R + s'.remainder.image R ∧
      (s'.remainder.isZero = true ∨ s'.remainder.degree < divisor.degree) ∧
      s'.quotient.Canonical R ∧ s'.remainder.Canonical R := by
  rw [run_run, hzero, if_neg Bool.false_ne_true, if_neg (not_lt.2 hdeg)] at hrun
  split_ifs at hrun with hqcap hrcap
  split at hrun
  · next s₁ hsteps =>
    cases hrun
    have hstart := Partial.started .exact 1 hp hdeg hq hr (not_le.1 hrcap)
    have hfits : ∀ shift < dividend.degree - divisor.degree + 1,
        (s.started R .exact dividend divisor).Fits divisor shift :=
      fits_started hzero hdeg hword (not_le.1 hqcap) (not_le.1 hrcap)
    have hend := (partial_exactSteps hd.toWellFormed hstart hfits hsteps).finished
    rwa [C_1, one_mul] at hend
  · cases hrun

/-- Modulo `10`, where the leading coefficient `2` of the divisor is a zero divisor, the exact
    division of `4 x ^ 2 - 2 x + 3` by `2 x + 1` finds `2 x + 3`. -/
theorem run_exact_identity_zero_divisor :
    let R : CoeffRing := .modular 10 false (by decide)
    ∃ s', (run R .exact ⟨3, #[3, -2, 4]⟩ ⟨2, #[1, 2]⟩).run
        ⟨⟨1, #[0, 0]⟩, ⟨1, #[0, 0, 0]⟩, #[]⟩ = .ok () s' ∧
      s'.quotient = ⟨2, #[3, 2]⟩ ∧ s'.remainder = ⟨1, #[0, 0, 0]⟩ ∧
      (⟨3, #[3, -2, 4]⟩ : Buffer).image R =
        s'.quotient.image R * (⟨2, #[1, 2]⟩ : Buffer).image R + s'.remainder.image R := by
  intro R
  have hfinal : ((run R .exact ⟨3, #[3, -2, 4]⟩ ⟨2, #[1, 2]⟩).finalState
      ⟨⟨1, #[0, 0]⟩, ⟨1, #[0, 0, 0]⟩, #[]⟩).map (fun s => (s.quotient, s.remainder)) =
      .ok (⟨2, #[3, 2]⟩, ⟨1, #[0, 0, 0]⟩) := by
    decide +kernel
  cases hrun : (run R .exact ⟨3, #[3, -2, 4]⟩ ⟨2, #[1, 2]⟩).run
      ⟨⟨1, #[0, 0]⟩, ⟨1, #[0, 0, 0]⟩, #[]⟩ with
  | error e s' =>
    rw [Action.finalState, hrun] at hfinal
    cases hfinal
  | ok a s' =>
    rw [Action.finalState, hrun] at hfinal
    obtain ⟨hquotient, hremainder⟩ := Prod.mk.inj (Except.ok.inj hfinal)
    obtain ⟨hidentity, -⟩ := run_exact_identity (by decide +kernel) (by decide +kernel) (by decide)
      (by decide) (by decide) (by decide +kernel) (by decide +kernel) hrun
    exact ⟨s', rfl, hquotient, hremainder, hidentity⟩

/-! ## Pseudo-division -/

/-- The step of a pseudo-division keeps the invariant. What it puts in the quotient is weighted for
    the multiplications that are still to come. -/
theorem Partial.pseudoStepped
    (h : Partial R dividend divisor v ((divisor.leading : R.Element) ^ (shift + 1)) (shift + 1) s)
    (hd : divisor.WellFormed) (hfits : s.Fits divisor shift) :
    Partial R dividend divisor v ((divisor.leading : R.Element) ^ shift) shift
      (s.pseudoStepped R divisor shift) := by
  rw [pow_succ] at h
  refine (h.reported _).scaled.subtracted hd (hfits.scaled R) ?_ ?_ ?_
  · -- The remainder is multiplied before the step, its coefficient was read before that.
    refine (mul_comm _ _).trans (Eq.symm ?_)
    exact Buffer.cast_slot_scaled h.remainder.toWellFormed divisor.leading _
  · exact R.contains_normalize _
  · rw [CoeffRing.cast_mul, CoeffRing.cast_pow, mul_comm]

/-- The steps of a pseudo-division come to their end and keep the invariant. -/
theorem partial_pseudoSteps (hd : divisor.WellFormed) (hlead : R.isZero divisor.leading = false)
    (h : Partial R dividend divisor v ((divisor.leading : R.Element) ^ count) count s)
    (hfits : ∀ shift < count, s.Fits divisor shift) :
    ∃ s', (steps R .pseudo divisor count).run s = .ok () s' ∧
      Partial R dividend divisor v 1 0 s' := by
  obtain ⟨s', hrun, hend⟩ := pseudoSteps_induction
    (I := fun count => Partial R dividend divisor v ((divisor.leading : R.Element) ^ count) count)
    hlead (fun _ _ hfits hs => hs.pseudoStepped hd hfits) h hfits
  rw [pow_zero] at hend
  exact ⟨s', hrun, hend⟩

/-- A pseudo-division that has room succeeds, and has nothing left to multiply in the end. -/
theorem exists_run_pseudo (hp : dividend.Canonical R) (hd : divisor.Canonical R)
    (hzero : divisor.isZero = false) (hdeg : divisor.degree ≤ dividend.degree)
    (hword : dividend.degree < degreeBound) (hroom : s.Room dividend divisor) :
    ∃ s', (run R .pseudo dividend divisor).run s = .ok () (s'.finished R) ∧
      Partial R dividend divisor
        ((divisor.leading : R.Element) ^ (dividend.degree - divisor.degree + 1)) 1 0 s' := by
  obtain ⟨s', hsteps, hend⟩ := partial_pseudoSteps hd.toWellFormed (hd.isZero_leading hzero)
    (Partial.started .pseudo _ hp hdeg hroom.quotient hroom.remainder hroom.degree_lt_remainder)
    (hroom.fits hzero hdeg hword)
  refine ⟨s', ?_, hend⟩
  rw [hroom.run_eq hzero hdeg, hsteps]

/-- A pseudo-division succeeds, and writes the dividend, multiplied by the leading coefficient of
    the divisor once for each step, as the quotient times the divisor plus a remainder that is zero
    or of smaller degree than the divisor, in every ring and whatever its buffers held before. -/
theorem run_pseudo_identity (hp : dividend.Canonical R) (hd : divisor.Canonical R)
    (hzero : divisor.isZero = false) (hdeg : divisor.degree ≤ dividend.degree)
    (hword : dividend.degree < degreeBound) (hq : s.quotient.WellFormed)
    (hqcap : dividend.degree - divisor.degree < s.quotient.capacity)
    (hr : s.remainder.WellFormed) (hrcap : dividend.degree < s.remainder.capacity) :
    ∃ s', (run R .pseudo dividend divisor).run s = .ok () s' ∧
      C ((divisor.leading : R.Element) ^ (dividend.degree - divisor.degree + 1)) *
          dividend.image R =
        s'.quotient.image R * divisor.image R + s'.remainder.image R ∧
      (s'.remainder.isZero = true ∨ s'.remainder.degree < divisor.degree) ∧
      s'.quotient.Canonical R ∧ s'.remainder.Canonical R := by
  obtain ⟨s₁, hrun, hend⟩ :=
    exists_run_pseudo hp hd hzero hdeg hword ⟨hq, hqcap, hr, hrcap⟩
  exact ⟨s₁.finished R, hrun, hend.finished⟩

/-- Modulo `6`, the pseudo-division of `x ^ 2` by `2 x + 1` succeeds, although the leading
    coefficient `2` is a zero divisor. -/
theorem run_pseudo_identity_zero_divisor :
    let R : CoeffRing := .modular 6 false (by decide)
    ∃ s', (run R .pseudo ⟨3, #[0, 0, 1]⟩ ⟨2, #[1, 2]⟩).run
        ⟨⟨1, #[0, 0]⟩, ⟨1, #[0, 0, 0]⟩, #[]⟩ = .ok () s' ∧
      C (((2 : Int) : R.Element) ^ 2) * (⟨3, #[0, 0, 1]⟩ : Buffer).image R =
        s'.quotient.image R * (⟨2, #[1, 2]⟩ : Buffer).image R + s'.remainder.image R := by
  intro R
  have hdividend : (⟨3, #[0, 0, 1]⟩ : Buffer).Canonical R := by decide +kernel
  have hdivisor : (⟨2, #[1, 2]⟩ : Buffer).Canonical R := by decide +kernel
  have hquotient : (⟨1, #[0, 0]⟩ : Buffer).WellFormed := by decide +kernel
  have hremainder : (⟨1, #[0, 0, 0]⟩ : Buffer).WellFormed := by decide +kernel
  obtain ⟨s', hrun, hidentity, -⟩ := run_pseudo_identity (s := ⟨_, _, #[]⟩) hdividend hdivisor
    (by decide) (by decide) (by decide) hquotient (by decide) hremainder (by decide)
  exact ⟨s', hrun, hidentity⟩

end LongDivision

end Univariate
