import Univariate.Proofs.ExactDivision

/-!
# Exact division and pseudo-division agree

Where an exact division succeeds, the pseudo-division gives its quotient and its remainder, both
multiplied by `b ^ n` for the leading coefficient `b` of the divisor and the number `n` of the
steps. This is so in every ring. If `b` is a zero divisor, it does not follow from the identities of
the two divisions, which then have more than one solution.

* `LongDivision.Lockstep` relates the two divisions step by step: what remains to the
  pseudo-division is multiplied by `b` once for each step done, and its quotient has all powers from
  the start.
* One step of the pseudo-division keeps up with one of the exact division, whichever exact quotient
  this takes, and also where it passes over a zero (`LongDivision.Lockstep.advanced`).
-/

namespace Univariate

open Polynomial

variable {R : CoeffRing}

namespace LongDivision

variable {dividend divisor : Buffer} {shift count total : Nat} {s s' t : LongDivision}

/-! ## Images of a step -/

/-- The quotient gains what it is given, also where this is zero in the ring and nothing is done. -/
theorem image_subtracted (hd : divisor.WellFormed) (hfits : s.Fits divisor shift)
    (hslot : s.quotient.slot shift = 0) {factor coefficient : Int} {w : R.Element}
    (hweight : (coefficient : R.Element) = w * factor) :
    (s.subtracted R divisor shift factor coefficient).quotient.image R =
        s.quotient.image R + monomial shift (coefficient : R.Element) ∧
      (s.subtracted R divisor shift factor coefficient).remainder.image R =
        s.remainder.image R - monomial shift (factor : R.Element) * divisor.image R := by
  rw [subtracted]
  split_ifs with hz
  · rw [hweight, CoeffRing.isZero_iff.1 hz, mul_zero, monomial_zero_right, add_zero, zero_mul,
      sub_zero]
    exact ⟨rfl, rfl⟩
  · refine ⟨Buffer.image_written hfits.shift_lt_quotient hslot coefficient, ?_⟩
    exact (Buffer.image_resize ..).trans
      (Buffer.image_subShifted hd (a := ⟨shift, factor⟩) hfits.degree_lt_remainder)

theorem image_pseudoStepped (hd : divisor.WellFormed) (hfits : s.Fits divisor shift)
    (hslot : s.quotient.slot shift = 0) (hr : s.remainder.WellFormed) :
    let b : R.Element := divisor.leading
    let c : R.Element := s.remainder.slot (divisor.degree + shift)
    (s.pseudoStepped R divisor shift).quotient.image R =
        s.quotient.image R + monomial shift (c * b ^ shift) ∧
      (s.pseudoStepped R divisor shift).remainder.image R =
        C b * s.remainder.image R - monomial shift c * divisor.image R := by
  intro b c
  have hweight : (R.mul (s.remainder.slot (divisor.degree + shift))
      (R.pow divisor.leading shift) : R.Element) = c * b ^ shift := by
    rw [CoeffRing.cast_mul, CoeffRing.cast_pow]
  obtain ⟨hquotient, hremainder⟩ :=
    image_subtracted hd (hfits.scaled R) hslot (hweight.trans (mul_comm _ _))
  rw [hweight] at hquotient
  refine ⟨hquotient, hremainder.trans ?_⟩
  rw [← Buffer.image_scaled hr]
  rfl

/-! ## The two divisions step by step -/

/-- An exact division that has come to `s`, and a pseudo-division of the same buffers that has come
    to `t`, after the same steps of `total`, with `count` still to come. -/
structure Lockstep (R : CoeffRing) (dividend divisor : Buffer) (total count : Nat)
    (s t : LongDivision) : Prop where
  exact : Partial R dividend divisor 1 1 count s
  pseudo : Partial R dividend divisor ((divisor.leading : R.Element) ^ total)
    ((divisor.leading : R.Element) ^ count) count t
  quotient : t.quotient.image R =
    C ((divisor.leading : R.Element) ^ total) * s.quotient.image R
  remainder : ∃ done, done + count = total ∧
    t.remainder.image R = C ((divisor.leading : R.Element) ^ done) * s.remainder.image R

/-- A step of the pseudo-division follows a step of the exact division that subtracts the multiple
    of the divisor by `f * x ^ shift`, for a solution `f` of the equation for the coefficient that
    is to be eliminated. -/
theorem Lockstep.advanced (h : Lockstep R dividend divisor total (shift + 1) s t)
    (hd : divisor.WellFormed) (hfits : t.Fits divisor shift) {f : R.Element}
    (hf : f * divisor.leading = s.remainder.slot (divisor.degree + shift))
    (hexact : Partial R dividend divisor 1 1 shift s')
    (hquotient : s'.quotient.image R = s.quotient.image R + monomial shift f)
    (hremainder : s'.remainder.image R =
      s.remainder.image R - monomial shift f * divisor.image R) :
    Lockstep R dividend divisor total shift s' (t.pseudoStepped R divisor shift) := by
  obtain ⟨done, hdone, hremainder'⟩ := h.remainder
  have hslot := h.pseudo.quotient_eq_zero shift (Nat.lt_succ_self shift)
  obtain ⟨hquotient₁, hremainder₁⟩ :=
    image_pseudoStepped hd hfits hslot h.pseudo.remainder.toWellFormed
  -- The coefficient that the pseudo-division eliminates is `b ^ (done + 1) * f`.
  have hcoeff : (t.remainder.slot (divisor.degree + shift) : R.Element) =
      (divisor.leading : R.Element) ^ (done + 1) * f := by
    rw [← Buffer.coeff_image, hremainder', coeff_C_mul, Buffer.coeff_image, ← hf]
    ring
  rw [hcoeff, ← C_mul_monomial] at hremainder₁
  refine ⟨hexact, h.pseudo.pseudoStepped hd hfits, ?_, done + 1, by omega, ?_⟩
  · have hpow : (divisor.leading : R.Element) ^ (done + 1) * f * divisor.leading ^ shift =
        divisor.leading ^ total * f := by
      rw [← hdone]
      ring
    rw [hquotient₁, h.quotient, hquotient, hcoeff, hpow, mul_add, C_mul_monomial]
  · rw [hremainder₁, hremainder', hremainder, pow_succ', C_mul]
    ring

/-- It follows a step that passes over a coefficient zero. -/
theorem Lockstep.passed (h : Lockstep R dividend divisor total (shift + 1) s t)
    (hd : divisor.WellFormed) (hfits : t.Fits divisor shift)
    (hz : R.isZero (s.remainder.slot (divisor.degree + shift)) = true) :
    Lockstep R dividend divisor total shift s (t.pseudoStepped R divisor shift) := by
  refine h.advanced hd hfits (f := 0) ?_ (h.exact.passed hz) ?_ ?_
  · rw [zero_mul, CoeffRing.isZero_iff.1 hz]
  · rw [monomial_zero_right, add_zero]
  · rw [monomial_zero_right, zero_mul, sub_zero]

/-- It follows a step that subtracts. -/
theorem Lockstep.subtracted (h : Lockstep R dividend divisor total (shift + 1) s t)
    (hd : divisor.WellFormed) (hfits : s.Fits divisor shift) (hfits' : t.Fits divisor shift)
    {factor : Int}
    (hq : R.exactQuotient (s.remainder.slot (divisor.degree + shift)) divisor.leading =
      .ok factor) :
    Lockstep R dividend divisor total shift
      ((s.announced divisor shift).subtracted R divisor shift factor factor)
      (t.pseudoStepped R divisor shift) := by
  have hslot : (s.announced divisor shift).quotient.slot shift = 0 :=
    h.exact.quotient_eq_zero shift (Nat.lt_succ_self shift)
  obtain ⟨hquotient, hremainder⟩ :=
    image_subtracted hd hfits.announced hslot (one_mul (factor : R.Element)).symm
  exact h.advanced hd hfits' (CoeffRing.exactQuotient_mul hq).2 (h.exact.exactStepped hd hfits hq)
    hquotient hremainder

/-- At the start, both have the dividend and no quotient. -/
theorem Lockstep.started (hp : dividend.Canonical R) (hdeg : divisor.degree ≤ dividend.degree)
    (hs : s.Room dividend divisor) (ht : t.Room dividend divisor) :
    Lockstep R dividend divisor (dividend.degree - divisor.degree + 1)
      (dividend.degree - divisor.degree + 1) (s.started R .exact dividend divisor)
      (t.started R .pseudo dividend divisor) where
  exact := .started .exact 1 hp hdeg hs.quotient hs.remainder hs.degree_lt_remainder
  pseudo := .started .pseudo _ hp hdeg ht.quotient ht.remainder ht.degree_lt_remainder
  quotient := by
    change t.quotient.clear.image R = _ * s.quotient.clear.image R
    rw [Buffer.image_clear hs.quotient, Buffer.image_clear ht.quotient, mul_zero]
  remainder := by
    refine ⟨0, Nat.zero_add _, ?_⟩
    change (t.remainder.copied dividend).image R = _ * (s.remainder.copied dividend).image R
    rw [Buffer.image_copied hs.remainder hp.toWellFormed hs.degree_lt_remainder,
      Buffer.image_copied ht.remainder hp.toWellFormed ht.degree_lt_remainder, pow_zero, C_1,
      one_mul]

/-- Where the steps of the exact division come to their end, those of the pseudo-division do. -/
theorem Lockstep.exists_run_steps (h : Lockstep R dividend divisor total count s t)
    (hd : divisor.WellFormed) (hlead : R.isZero divisor.leading = false)
    (hfits : ∀ shift < count, s.Fits divisor shift)
    (hfits' : ∀ shift < count, t.Fits divisor shift)
    (hrun : (steps R .exact divisor count).run s = .ok () s') :
    ∃ t', (steps R .pseudo divisor count).run t = .ok () t' ∧
      Lockstep R dividend divisor total 0 s' t' := by
  -- Along the exact division, the pseudo-division has come to where it is in lockstep.
  have hsteps := exactSteps_induction (R := R) (I := fun k s => ∃ t₁,
      (steps R .pseudo divisor count).run t = (steps R .pseudo divisor k).run t₁ ∧
        Lockstep R dividend divisor total k s t₁ ∧ ∀ shift < k, t₁.Fits divisor shift)
    (fun shift s hz hs => ?_) (fun shift s factor hfits _ hq hs => ?_) ⟨t, rfl, h, hfits'⟩ hfits
  · rw [hrun] at hsteps
    obtain ⟨t', hrun', hend, -⟩ := hsteps
    exact ⟨t', hrun', hend⟩
  all_goals
    obtain ⟨t₁, hrun₁, hlock, hfits₁⟩ := hs
    have hlast := hfits₁ shift (Nat.lt_succ_self shift)
    have hnext : ∀ k < shift, (t₁.pseudoStepped R divisor shift).Fits divisor k := fun k hk =>
      (hfits₁ k (Nat.lt_succ_of_lt hk)).mono le_rfl (capacity_quotient_pseudoStepped ..)
        (capacity_remainder_pseudoStepped ..)
    rw [run_steps_succ, step, run_pseudoStep hlast hlead] at hrun₁
  · exact ⟨_, hrun₁, hlock.passed hd hlast hz, hnext⟩
  · exact ⟨_, hrun₁, hlock.subtracted hd hfits hlast hq, hnext⟩

/-- Where an exact division succeeds, a pseudo-division does, with the quotient and the remainder
    multiplied by the leading coefficient of the divisor once for each step. -/
theorem exists_run_pseudo_of_exact (hp : dividend.Canonical R) (hd : divisor.Canonical R)
    (hzero : divisor.isZero = false) (hdeg : divisor.degree ≤ dividend.degree)
    (hword : dividend.degree < degreeBound) (hs : s.Room dividend divisor)
    (ht : t.Room dividend divisor)
    (hrun : (run R .exact dividend divisor).run s = .ok () s') :
    ∃ t', (run R .pseudo dividend divisor).run t = .ok () t' ∧
      let b : R.Element := divisor.leading
      let n := dividend.degree - divisor.degree + 1
      (s'.quotient.WellFormed ∧ t'.quotient.WellFormed ∧
          t'.quotient.image R = C (b ^ n) * s'.quotient.image R) ∧
        s'.remainder.WellFormed ∧ t'.remainder.WellFormed ∧
          t'.remainder.image R = C (b ^ n) * s'.remainder.image R := by
  rw [hs.run_eq hzero hdeg] at hrun
  split at hrun
  · next s₁ hsteps =>
    cases hrun
    obtain ⟨t₁, hsteps', hend⟩ :=
      (Lockstep.started hp hdeg hs ht).exists_run_steps hd.toWellFormed (hd.isZero_leading hzero)
        (hs.fits hzero hdeg hword) (ht.fits hzero hdeg hword) hsteps
    refine ⟨t₁.finished R, ?_,
      ⟨hend.exact.quotient.trim R, hend.pseudo.quotient.trim R, ?_⟩,
      hend.exact.remainder.toWellFormed, hend.pseudo.remainder.toWellFormed, ?_⟩
    · rw [ht.run_eq hzero hdeg, hsteps']
    · change (t₁.quotient.trim R).image R = _ * (s₁.quotient.trim R).image R
      rw [Buffer.image_trim, Buffer.image_trim, hend.quotient]
    · obtain ⟨done, hdone, hremainder⟩ := hend.remainder
      obtain rfl : done = _ := hdone
      exact hremainder
  · cases hrun

end LongDivision

namespace Poly

variable {p d q r : Poly} {b : Int} {trace trace' : Array Event}

/-- Where an exact division of polynomials succeeds, so does the pseudo-division, and gives the
    quotient and the remainder multiplied by `b ^ n`, for the leading coefficient `b` of the divisor
    and the number `n` of the exponents that are eliminated. -/
theorem dividePseudo_of_divideExact (hp : p.ring = R) (hd : d.ring = R) (hb : d.leading? = some b)
    (hle : d.degree ≤ p.degree) (hrun : (p.divide .exact d).run trace = .ok (q, r) trace')
    (start : Array Event) :
    let power : R.Element[X] := C ((b : R.Element) ^ (p.degree - d.degree + 1))
    q.ring = R ∧ r.ring = R ∧ ∃ finish, (p.divide .pseudo d).run start =
      .ok (representing R (power * q.image R), representing R (power * r.image R)) finish := by
  intro power
  obtain ⟨hz, rfl⟩ := leading?_eq_some_iff.1 hb
  have hword : p.degree + 1 < degreeBound := by
    by_contra hword
    rw [run_divide_overflow hp hd hz hle hword] at hrun
    cases hrun
  obtain ⟨dividend, divisor, hdividend, hdivisor, hdivide⟩ := exists_run_divide hp hd hz hle hword
  rw [← hdividend.degree_eq] at hle hword
  rw [← hdivisor.degree_eq] at hle
  rw [hdivide] at hrun
  split at hrun
  · next s' hexact =>
    cases hrun
    obtain ⟨t', hpseudo, ⟨hs, ht, hquotient⟩, hs', ht', hremainder⟩ :=
      LongDivision.exists_run_pseudo_of_exact (hdividend.canonical_ring hp)
        (hdivisor.canonical_ring hd) (hdivisor.isZero_eq_false hz) hle (by omega)
        (Buffer.room_fresh dividend divisor trace) (Buffer.room_fresh dividend divisor start) hexact
    rw [hdivisor.leading_eq, hdividend.degree_eq, hdivisor.degree_eq] at hquotient hremainder
    refine ⟨rfl, rfl, t'.trace, ?_⟩
    rw [hdivide, hpseudo, Buffer.image_toPoly hs, Buffer.image_toPoly hs', ← hquotient,
      ← hremainder, ← Buffer.toPoly_eq_representing ht, ← Buffer.toPoly_eq_representing ht']
  · cases hrun

/-- Modulo `10`, where the leading coefficient `2` of the divisor is a zero divisor, the exact
    division of `4 x ^ 2 - 2 x + 4` by `2 x + 1` gives `2 x + 3` and `1`. The pseudo-division gives
    `-2 x + 2` and `4`, which are their multiples by `4`. -/
theorem dividePseudo_of_divideExact_ten :
    let R : CoeffRing := .modular 10 false (by decide)
    let p := ofSlots R [4, -2, 4]
    let d := ofSlots R [1, 2]
    let power : R.Element[X] := C (((2 : Int) : R.Element) ^ 2)
    (∃ trace', (p.divide .exact d).run #[] = .ok (ofSlots R [3, 2], ofSlots R [1]) trace') ∧
      (∃ finish, (p.divide .pseudo d).run #[] = .ok (ofSlots R [2, -2], ofSlots R [4]) finish) ∧
      ofSlots R [2, -2] = representing R (power * (ofSlots R [3, 2]).image R) ∧
      ofSlots R [4] = representing R (power * (ofSlots R [1]).image R) := by
  intro R p d power
  have hexact : (p.divide .exact d).run' #[] = some (ofSlots R [3, 2], ofSlots R [1]) := by
    decide +kernel
  have hpseudo : (p.divide .pseudo d).run' #[] = some (ofSlots R [2, -2], ofSlots R [4]) := by
    decide +kernel
  obtain ⟨trace', hrun⟩ := Action.exists_run_of_run' hexact
  obtain ⟨-, -, finish, hfinish⟩ := dividePseudo_of_divideExact (R := R) (p := p) (d := d) (b := 2)
    rfl rfl (by decide +kernel) (by decide +kernel) hrun #[]
  refine ⟨⟨trace', hrun⟩, Action.exists_run_of_run' hpseudo, ?_⟩
  rw [Action.run'_of_run_ok hfinish] at hpseudo
  obtain ⟨hquotient, hremainder⟩ := Prod.mk.inj (Option.some.inj hpseudo)
  exact ⟨hquotient.symm, hremainder.symm⟩

end Poly

end Univariate
