import Univariate.Proofs.DivisionIdentity
import Univariate.Proofs.DivisionInBuffers

/-!
# When an exact division succeeds

An exact division stops at a coefficient that the leading coefficient of the divisor does not
divide, and for no other reason. If whatever annihilates this leading coefficient annihilates the
divisor, there are then no quotient and remainder at all. If it is not even a zero divisor, there
are no others where the division succeeds.

* `LongDivision.run_exact_cases` is the invariant at the end of an exact division, or where it
  stops.
* `LongDivision.Partial.not_hasRemainder` turns the coefficient where it stops into the conclusion
  that the dividend has no remainder: the steps so far have subtracted a multiple of the divisor
  from it, which does not change whether it has one.
* `Poly.divideExact_ends` is the same for polynomials, in every ring, and `Poly.divideExact_cases`
  for a leading coefficient that is not a zero divisor. Over the integers, none is
  (`Poly.leadingCoeff_mem_nonZeroDivisors`).
-/

namespace Univariate

open Polynomial

variable {R : CoeffRing}

/-! ## Buffers -/

namespace LongDivision

variable {dividend divisor : Buffer} {shift : Nat} {s s' : LongDivision} {e : Failure}

/-- A step of an exact division fails only where the leading coefficient does not divide. -/
theorem refused_of_run_exactStep (h : s.Fits divisor shift)
    (hrun : (exactStep R divisor shift).run s = .error e s') :
    let c := s.remainder.slot (divisor.degree + shift)
    e = .refused (.inexactDivision c divisor.leading) ∧ R.divides divisor.leading c = false := by
  rw [run_exactStep h] at hrun
  dsimp only at hrun ⊢
  split_ifs at hrun with hz hdvd
  · -- What divides has an exact quotient.
    obtain ⟨factor, hfactor⟩ := CoeffRing.exists_exactQuotient hdvd
    rw [hfactor] at hrun
    cases hrun
  · cases hrun
    exact ⟨rfl, by simpa using hdvd⟩

/-- An exact division ends with the invariant of its steps, or stops in a step that had it. -/
theorem run_exact_cases (hp : dividend.Canonical R) (hd : divisor.WellFormed)
    (hzero : divisor.isZero = false) (hdeg : divisor.degree ≤ dividend.degree)
    (hword : dividend.degree < degreeBound) (hroom : s.Room dividend divisor) :
    match (run R .exact dividend divisor).run s with
    | .ok _ s' => ∃ s₁ : LongDivision, s' = s₁.finished R ∧ Partial R dividend divisor 1 1 0 s₁
    | .error e s' => ∃ shift s₀, s₀.Fits divisor shift ∧
        Partial R dividend divisor 1 1 (shift + 1) s₀ ∧
        (exactStep R divisor shift).run s₀ = .error e s' := by
  have hsteps := exactSteps_induction (I := Partial R dividend divisor 1 1)
    (fun _ _ hz hs => hs.passed hz) (fun _ _ _ hfits _ hq hs => hs.exactStepped hd hfits hq)
    (Partial.started .exact 1 hp hdeg hroom.quotient hroom.remainder hroom.degree_lt_remainder)
    (hroom.fits hzero hdeg hword)
  rw [hroom.run_eq hzero hdeg]
  cases hrun : (steps R .exact divisor (dividend.degree - divisor.degree + 1)).run
    (s.started R .exact dividend divisor) with
  | ok a s₁ =>
    rw [hrun] at hsteps
    exact ⟨s₁, rfl, hsteps⟩
  | error e s₁ =>
    rw [hrun] at hsteps
    obtain ⟨shift, -, s₀, hfits, hs₀, hstep⟩ := hsteps
    exact ⟨shift, s₀, hfits, hs₀, hstep⟩

/-- Where the leading coefficient does not divide the coefficient to be eliminated, and is faithful,
    the dividend has no remainder. -/
theorem Partial.not_hasRemainder (h : Partial R dividend divisor 1 1 (shift + 1) s)
    (hd : divisor.Canonical R) (hzero : divisor.isZero = false)
    (hfaithful : FaithfulLead (divisor.image R))
    (hdvd : R.divides divisor.leading (s.remainder.slot (divisor.degree + shift)) = false) :
    ¬HasRemainder (divisor.image R) (dividend.image R) := by
  intro hdividend
  have hidentity := h.identity
  rw [C_1, one_mul, one_mul] at hidentity
  -- What has been subtracted is a multiple of the divisor.
  have hremainder : HasRemainder (divisor.image R) (s.remainder.image R) := by
    rw [hidentity] at hdividend
    rwa [← hasRemainder_sub_mul_iff (g := s.quotient.image R), add_sub_cancel_left] at hdividend
  obtain ⟨x, hx⟩ := hremainder.exists_mul_leadingCoeff hfaithful (k := shift) fun i hi => by
    rw [hd.natDegree_image] at hi
    rw [Buffer.coeff_image, h.remainder_eq_zero i (by omega), Int.cast_zero]
  rw [hd.natDegree_image, hd.leadingCoeff_image, Buffer.coeff_image, mul_comm] at hx
  have hdivides := (CoeffRing.divides_iff_dvd (hd.isZero_leading hzero)).2 ⟨x, hx.symm⟩
  rw [hdvd] at hdivides
  cases hdivides

end LongDivision

/-! ## Polynomials -/

namespace Poly

variable {p d q r : Poly}

/-- The polynomials `q` and `r` are a quotient and a remainder of `p` by `d`, over the ring. -/
structure IsDivision (R : CoeffRing) (p d q r : Poly) : Prop where
  ring_quotient : q.ring = R
  ring_remainder : r.ring = R
  identity : p.image R = q.image R * d.image R + r.image R
  isRemainder : IsRemainder (d.image R) (r.image R)

theorem IsDivision.hasRemainder (h : IsDivision R p d q r) :
    HasRemainder (d.image R) (p.image R) :=
  ⟨q.image R, r.image R, h.identity, h.isRemainder⟩

/-- By a divisor whose leading coefficient is not a zero divisor, there are no others. -/
theorem IsDivision.unique (h : IsDivision R p d q r)
    (hregular : (d.image R).leadingCoeff ∈ nonZeroDivisors R.Element) {f g : R.Element[X]}
    (hfg : p.image R = f * d.image R + g) (hg : IsRemainder (d.image R) g) :
    q.image R = f ∧ r.image R = g :=
  IsRemainder.unique hregular (h.identity.symm.trans hfg) h.isRemainder hg

/-- A dividend of smaller degree is its own remainder. -/
theorem isDivision_zero (hp : p.ring = R) (hd : d.ring = R) (hlt : p.degree < d.degree) :
    IsDivision R p d (zero R) p where
  ring_quotient := rfl
  ring_remainder := hp
  identity := by rw [image_zero, zero_mul, zero_add]
  isRemainder := (isRemainder_image_iff hp hd).2 (.inr hlt)

/-- What the steps of a division end with, packed, is a quotient and a remainder of the dividend,
    or of what it was multiplied to. -/
theorem isDivision_toPoly {dividend divisor : Buffer} {s : LongDivision} {v : R.Element}
    (h : LongDivision.Partial R dividend divisor v 1 0 s)
    (himage : p.image R = C v * dividend.image R) (hd : divisor.Holds d) (hring : d.ring = R) :
    IsDivision R p d ((s.finished R).quotient.toPoly R) ((s.finished R).remainder.toPoly R) := by
  obtain ⟨hidentity, hdegree, hquotient, hremainder⟩ := h.finished
  refine ⟨rfl, rfl, ?_, ?_⟩
  · rw [himage, hidentity, Buffer.image_toPoly hquotient.toWellFormed,
      Buffer.image_toPoly hremainder.toWellFormed, ← hd.image_eq]
  · rw [Buffer.image_toPoly hremainder.toWellFormed, ← hd.image_eq]
    exact hremainder.isRemainder_image (hd.canonical_ring hring) hdegree

/-- An exact division finds a quotient and a remainder, or is refused at a coefficient that the
    leading coefficient of the divisor does not divide. If this is faithful, it is refused only
    where there are no quotient and remainder. -/
theorem divideExact_ends (hp : p.ring = R) (hd : d.ring = R) (hz : d.isZero = false)
    (hword : d.degree ≤ p.degree → p.degree + 1 < degreeBound) (trace : Array Event) :
    (∃ q r trace', (p.divide .exact d).run trace = .ok (q, r) trace' ∧ IsDivision R p d q r) ∨
      (∃ c trace', (p.divide .exact d).run trace =
        .error (.refused (.inexactDivision c (d.coeff d.degree))) trace' ∧
          R.divides (d.coeff d.degree) c = false) ∧
      (FaithfulLead (d.image R) → ¬HasRemainder (d.image R) (p.image R)) := by
  rcases Nat.lt_or_ge p.degree d.degree with hlt | hle
  · left
    exact ⟨zero R, p, trace, run_divide_of_degree_lt hp hd hz hlt .exact trace,
      isDivision_zero hp hd hlt⟩
  have hword := hword hle
  obtain ⟨dividend, divisor, hdividend, hdivisor, hdivide⟩ := exists_run_divide hp hd hz hle hword
  rw [← hdividend.degree_eq] at hle hword
  rw [← hdivisor.degree_eq] at hle
  have hzero := hdivisor.isZero_eq_false hz
  have hcanonical := hdivisor.canonical_ring hd
  have hcases := LongDivision.run_exact_cases (hdividend.canonical_ring hp) hdivisor.wellFormed
    hzero hle (by omega) (Buffer.room_fresh dividend divisor trace)
  have hresult := hdivide .exact trace
  split at hcases
  · next s' hrun =>
    obtain ⟨s₁, rfl, hend⟩ := hcases
    rw [hrun] at hresult
    refine .inl ⟨_, _, _, hresult, isDivision_toPoly hend ?_ hdivisor hd⟩
    rw [C_1, one_mul, hdividend.image_eq]
  · next e s' hrun =>
    obtain ⟨shift, s₀, hfits, hs₀, hstep⟩ := hcases
    obtain ⟨rfl, hdvd⟩ := LongDivision.refused_of_run_exactStep hfits hstep
    rw [hrun, hdivisor.leading_eq] at hresult
    refine .inr ⟨⟨_, _, hresult, hdivisor.leading_eq ▸ hdvd⟩, fun hfaithful => ?_⟩
    rw [← hdivisor.image_eq] at hfaithful ⊢
    rw [← hdividend.image_eq]
    exact hs₀.not_hasRemainder hcanonical hzero hfaithful hdvd

/-- By a divisor whose leading coefficient is not a zero divisor, an exact division is refused only
    where there are no quotient and remainder. -/
theorem divideExact_cases (hp : p.ring = R) (hd : d.ring = R) (hz : d.isZero = false)
    (hword : d.degree ≤ p.degree → p.degree + 1 < degreeBound) (trace : Array Event) :
    (∃ q r trace', (p.divide .exact d).run trace = .ok (q, r) trace' ∧ IsDivision R p d q r) ∨
      (∃ c trace', (p.divide .exact d).run trace =
        .error (.refused (.inexactDivision c (d.coeff d.degree))) trace') ∧
      ((d.image R).leadingCoeff ∈ nonZeroDivisors R.Element →
        ¬HasRemainder (d.image R) (p.image R)) := by
  refine (divideExact_ends hp hd hz hword trace).imp_right ?_
  rintro ⟨⟨c, trace', hrun, -⟩, hnone⟩
  exact ⟨⟨c, trace', hrun⟩, fun hregular => hnone (faithfulLead_of_mem_nonZeroDivisors hregular)⟩

/-- A product of degrees that a machine word can count is there, also where a factor is zero. -/
theorem exists_mul_eq (hp : p.ring = R) (hd : d.ring = R)
    (hword : p.isZero = false → d.isZero = false → p.degree + d.degree + 1 < degreeBound) :
    ∃ product, p.mul d = .ok product ∧ product.ring = R ∧
      product.image R = p.image R * d.image R ∧ product.degree + 1 < degreeBound := by
  by_cases hz : (p.isZero || d.isZero) = true
  · refine ⟨zero R, ?_, rfl, ?_, by rw [degree_zero]; decide⟩
    · simp [mul, requireSameRing_eq hp hd, hz, hp, pure, Except.pure]
    · rw [image_zero, image_mul_of_isZero hz]
  · obtain ⟨hp', hd'⟩ := Bool.or_eq_false_iff.1 (Bool.not_eq_true _ ▸ hz)
    have hdegree := degree_representing_mul_le hp hd
    have hword := hword hp' hd'
    exact ⟨_, mul_eq hp hd hword, rfl, image_representing R _, by omega⟩

/-- A product is divided without remainder by a factor whose leading coefficient is faithful. -/
theorem exists_divideExact_mul_of_faithful (hp : p.ring = R) (hd : d.ring = R)
    (hz : d.isZero = false) (hfaithful : FaithfulLead (d.image R))
    (hword : p.isZero = false → p.degree + d.degree + 1 < degreeBound) (trace : Array Event) :
    ∃ product q trace', p.mul d = .ok product ∧ product.image R = p.image R * d.image R ∧
      (product.divide .exact d).run trace = .ok (q, zero R) trace' ∧
      IsDivision R product d q (zero R) := by
  obtain ⟨product, hmul, hring, himage, hproduct⟩ := exists_mul_eq hp hd fun h _ => hword h
  have hidentity : product.image R = p.image R * d.image R + 0 := by
    rw [himage, add_zero]
  rcases divideExact_ends hring hd hz (fun _ => hproduct) trace with
    ⟨q, r, trace', hrun, hdivision⟩ | ⟨-, hnone⟩
  · have hr := hfaithful.remainder_unique (hdivision.identity.symm.trans hidentity)
      hdivision.isRemainder (isRemainder_zero _)
    obtain rfl : r = zero R :=
      image_injective hdivision.ring_remainder rfl (hr.trans (image_zero R).symm)
    exact ⟨product, q, trace', hmul, himage, hrun, hdivision⟩
  · exact absurd ⟨_, _, hidentity, isRemainder_zero _⟩ (hnone hfaithful)

/-- Where the leading coefficient is not a zero divisor, this gives the other factor. -/
theorem exists_divideExact_mul (hp : p.ring = R) (hd : d.ring = R) (hz : d.isZero = false)
    (hregular : (d.image R).leadingCoeff ∈ nonZeroDivisors R.Element)
    (hword : p.isZero = false → p.degree + d.degree + 1 < degreeBound) (trace : Array Event) :
    ∃ product trace', p.mul d = .ok product ∧
      (product.divide .exact d).run trace = .ok (p, zero R) trace' := by
  obtain ⟨product, q, trace', hmul, himage, hrun, hdivision⟩ :=
    exists_divideExact_mul_of_faithful hp hd hz (faithfulLead_of_mem_nonZeroDivisors hregular)
      hword trace
  obtain ⟨hq, -⟩ := hdivision.unique hregular (f := p.image R) (g := 0) (by rw [himage, add_zero])
    (isRemainder_zero _)
  obtain rfl := image_injective hdivision.ring_quotient hp hq
  exact ⟨product, trace', hmul, hrun⟩

/-! ## Over the integers -/

/-- An exact division over the integers succeeds exactly when the dividend has a remainder. It gives
    the only quotient and remainder there are, and is refused as inexact if there are none. In
    particular, dividing a product by one factor gives the other. The coefficients that a division
    or a product asks for have to be counted by a machine word. -/
theorem divideExact_complete (hp : p.ring = .integers) (hd : d.ring = .integers)
    (hz : d.isZero = false) (hword : d.degree ≤ p.degree → p.degree + 1 < degreeBound)
    (trace : Array Event) :
    ((∃ q r trace', (p.divide .exact d).run trace = .ok (q, r) trace') ↔
        HasRemainder (d.image .integers) (p.image .integers)) ∧
      (∀ q r trace', (p.divide .exact d).run trace = .ok (q, r) trace' →
        IsDivision .integers p d q r ∧
          ∀ f g, p.image .integers = f * d.image .integers + g →
            IsRemainder (d.image .integers) g → q.image .integers = f ∧ r.image .integers = g) ∧
      (¬HasRemainder (d.image .integers) (p.image .integers) →
        ∃ c trace', (p.divide .exact d).run trace =
          .error (.refused (.inexactDivision c (d.coeff d.degree))) trace') ∧
      ((p.isZero = false → p.degree + d.degree + 1 < degreeBound) →
        ∃ product trace', p.mul d = .ok product ∧
          (product.divide .exact d).run trace = .ok (p, zero .integers) trace') := by
  have hregular := leadingCoeff_mem_nonZeroDivisors hd hz
  have hproduct := fun hword => exists_divideExact_mul hp hd hz hregular hword trace
  rcases divideExact_cases hp hd hz hword trace with
    ⟨q, r, trace', hrun, hdivision⟩ | ⟨⟨c, trace', hrun⟩, hnone⟩
  · refine ⟨⟨fun _ => hdivision.hasRemainder, fun _ => ⟨q, r, trace', hrun⟩⟩, ?_,
      fun hnone => absurd hdivision.hasRemainder hnone, hproduct⟩
    rintro q' r' trace'' hrun'
    rw [hrun] at hrun'
    cases hrun'
    exact ⟨hdivision, fun f g => hdivision.unique hregular⟩
  · refine ⟨⟨?_, fun hremainder => absurd hremainder (hnone hregular)⟩, ?_,
      fun _ => ⟨c, trace', hrun⟩, hproduct⟩
    · rintro ⟨q, r, trace'', hrun'⟩
      rw [hrun] at hrun'
      cases hrun'
    · intro q r trace'' hrun'
      rw [hrun] at hrun'
      cases hrun'

/-- Over the integers, `x ^ 2` has no quotient and remainder by `2 x + 1`, since its exact division
    is refused, but its product with `2 x + 1` is divided exactly. -/
theorem divideExact_complete_square :
    let p := ofSlots .integers [0, 0, 1]
    let d := ofSlots .integers [1, 2]
    ¬HasRemainder (d.image .integers) (p.image .integers) ∧
      ∃ product trace', p.mul d = .ok product ∧
        (product.divide .exact d).run #[] = .ok (p, zero .integers) trace' := by
  intro p d
  obtain ⟨hiff, -, -, hproduct⟩ := divideExact_complete (p := p) (d := d) rfl rfl
    (by decide +kernel) (fun _ => by decide +kernel) #[]
  refine ⟨fun hremainder => ?_, hproduct fun _ => by decide +kernel⟩
  obtain ⟨q, r, trace', hrun⟩ := hiff.2 hremainder
  have hvalue : (p.divide .exact d).run' #[] = none := by
    decide +kernel
  rw [Action.run'_of_run_ok hrun] at hvalue
  cases hvalue

/-- Every polynomial has a remainder by one. -/
theorem hasRemainder_const_one (f : R.Element[X]) : HasRemainder ((const R 1).image R) f := by
  refine ⟨f, 0, ?_, isRemainder_zero _⟩
  rw [image_const, Int.cast_one, C_1, mul_one, add_zero]

/-- The power of `x` with the highest exponent has a quotient and a remainder by one, but its
    coefficients are more than a machine word can count: the division fails. -/
theorem divideExact_highestPower :
    (const .integers 1).isZero = false ∧
      HasRemainder ((const .integers 1).image .integers)
        ((highestPower .integers).image .integers) ∧
      ¬∃ q r trace', ((highestPower .integers).divide .exact (const .integers 1)).run #[] =
        .ok (q, r) trace' := by
  have hdivisor : (const .integers 1).isZero = false := by decide
  have hle : (const .integers 1).degree ≤ (highestPower .integers).degree := by decide
  refine ⟨hdivisor, hasRemainder_const_one _, ?_⟩
  rintro ⟨q, r, trace', hrun⟩
  rw [run_divide_overflow (p := highestPower .integers) (d := const .integers 1) rfl rfl hdivisor
    hle not_degree_highestPower_lt] at hrun
  cases hrun

end Poly

end Univariate
