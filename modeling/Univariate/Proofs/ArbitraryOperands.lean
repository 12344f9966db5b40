import Univariate.Proofs.CanonicalForm
import Univariate.Proofs.DivisionSteps
import Univariate.Proofs.Quotients
import Univariate.Proofs.Sessions

/-!
# Eliminations from arbitrary operands

A long division and a reduction work on any buffers, also on those that were made significant past
their coefficients or were built in another ring. The dividend is copied as it is, and it is the
steps that subtract or multiply which trim the copy. Where there are none, what is left is the
copy, with a highest significant slot that may be zero in the ring.

* `Buffer.Cleared` is the invariant of the steps: zero in the ring where they have been, and either
  something was eliminated and the buffer is normalized, or it is still the copy.
* `Buffer.Cleared.normalized_iff` reads off when the result is normalized, and
  `Buffer.Normalized.image_eq_zero_or_degree_lt` that it then is zero or of small degree.
* A pseudo-division multiplies at every step, so that its remainder is canonical
  (`LongDivision.PseudoCleared`). An exact division passes over what is zero in the ring
  (`LongDivision.cleared_exactSteps`).
* `Session.division_remainder` says it of the divisions of all sessions.
-/

namespace Univariate

variable {R : CoeffRing}

namespace Buffer

variable {dividend source t u : Buffer} {d : Nat}

/-- Trimming to the size that a write claims normalizes. -/
theorem WellFormed.normalized_resize (h : t.WellFormed) (hsize : u.size = t.size) (d : Nat) :
    (u.resize R d).Normalized R := by
  refine normalized_trim R (t := { u with size := max u.size (d + 1) }) ?_
  exact (hsize ▸ h.one_le_size).trans (Nat.le_max_left _ _)

/-- A normalized buffer that is zero in the ring from the exponent `d` on is zero there altogether,
    or of smaller degree. -/
theorem Normalized.image_eq_zero_or_degree_lt (h : t.Normalized R) (ht : t.WellFormed)
    (hzero : ∀ i, d ≤ i → R.isZero (t.slot i) = true) : t.image R = 0 ∨ t.degree < d := by
  by_cases hlt : t.degree < d
  · exact .inr hlt
  · left
    have hlead := hzero t.degree (not_lt.1 hlt)
    have hone : t.size = 1 := h.resolve_right fun hne => by
      rw [leading, hlead] at hne
      cases hne
    -- All that is left is the constant coefficient, which is zero in the ring.
    ext i
    rw [coeff_image, Polynomial.coeff_zero]
    rcases Nat.eq_zero_or_pos i with rfl | hi
    · rw [degree, hone] at hlead
      exact CoeffRing.isZero_iff.1 hlead
    · rw [ht.slot_eq_zero i (by omega), Int.cast_zero]

/-- What eliminations that started from a copy of `dividend` have left when they have come down to
    the exponent `d`: zero in the ring from there on, and a normalized buffer if there was anything
    to eliminate. If there was not, it is still the copy. -/
structure Cleared (R : CoeffRing) (dividend : Buffer) (d : Nat) (t : Buffer) : Prop
    extends t.WellFormed where
  isZero_slot : ∀ i, d ≤ i → R.isZero (t.slot i) = true
  settled_or_copy : (∃ k, d ≤ k ∧ R.isZero (dividend.slot k) = false) ∧ t.Normalized R ∨
    t.size = dividend.size ∧ ∀ i, t.slot i = dividend.slot i

/-- The copy has nothing to eliminate where the dividend has nothing. -/
theorem cleared_copied (ht : t.WellFormed) (hp : dividend.WellFormed)
    (hlt : dividend.degree < t.capacity)
    (hzero : ∀ i, d ≤ i → R.isZero (dividend.slot i) = true) :
    Cleared R dividend d (t.copied dividend) where
  toWellFormed := ht.copied hp hlt
  isZero_slot i hi := by
    rw [slot_copied ht hp hlt]
    exact hzero i hi
  settled_or_copy := .inr ⟨rfl, slot_copied ht hp hlt⟩

/-- That is so past its degree. -/
theorem WellFormed.isZero_slot_of_degree_lt (h : t.WellFormed) {i : Nat} (hi : t.degree < i) :
    R.isZero (t.slot i) = true := by
  rw [h.slot_eq_zero_of_degree_lt hi]
  exact R.isZero_zero

/-- A coefficient that is zero in the ring is passed over. -/
theorem Cleared.passed (h : Cleared R dividend (d + 1) t) (hz : R.isZero (t.slot d) = true) :
    Cleared R dividend d t where
  toWellFormed := h.toWellFormed
  isZero_slot i hi := by
    rcases Nat.eq_or_lt_of_le hi with rfl | hlt
    · exact hz
    · exact h.isZero_slot i hlt
  settled_or_copy := h.settled_or_copy.imp_left
    fun ⟨⟨k, hk, hne⟩, hnormalized⟩ => ⟨⟨k, Nat.le_of_succ_le hk, hne⟩, hnormalized⟩

/-- Any other is eliminated, perhaps after `t` was multiplied to `u`, by a subtraction that ends by
    trimming. -/
theorem Cleared.eliminated {a : Term} (h : Cleared R dividend (source.degree + a.degree + 1) t)
    (hne : R.isZero (t.slot (source.degree + a.degree)) = false) (hs : source.WellFormed)
    (hu : u.WellFormed) (hlt : source.degree + a.degree < u.capacity)
    (hcancel : (a.coefficient : R.Element) * source.leading = u.slot (source.degree + a.degree))
    (hzero : ∀ i, source.degree + a.degree < i → R.isZero (u.slot i) = true) :
    Cleared R dividend (source.degree + a.degree)
      ((u.subShifted R source a).resize R (source.degree + a.degree)) where
  toWellFormed := hu.resize (size_subShifted ..) (capacity_subShifted ..) hlt
    fun _ hi => slot_subShifted_of_lt _ _ _ hi
  isZero_slot i hi := isZero_slot_eliminated hs hlt hcancel hzero hi
  settled_or_copy := by
    refine .inl ⟨?_, hu.normalized_resize (size_subShifted ..) _⟩
    -- What is eliminated was there before, or is from the dividend as long as this is a copy.
    rcases h.settled_or_copy with ⟨⟨k, hk, hk'⟩, -⟩ | ⟨-, hslot⟩
    · exact ⟨k, Nat.le_of_succ_le hk, hk'⟩
    · exact ⟨source.degree + a.degree, le_rfl, hslot _ ▸ hne⟩

/-- What is left is normalized if the dividend was, or if there was anything to eliminate, and only
    then. -/
theorem Cleared.normalized_iff (h : Cleared R dividend d t) :
    t.Normalized R ↔
      dividend.Normalized R ∨ ∃ k, d ≤ k ∧ R.isZero (dividend.slot k) = false := by
  rcases h.settled_or_copy with ⟨hsome, hnormalized⟩ | ⟨hsize, hslot⟩
  · exact ⟨fun _ => .inr hsome, fun _ => hnormalized⟩
  · have hcopy : t.Normalized R ↔ dividend.Normalized R := by
      rw [Normalized, Normalized, leading, leading, degree, degree, hsize, hslot]
    refine hcopy.trans ⟨.inl, fun hor => hor.resolve_right ?_⟩
    rintro ⟨k, hk, hne⟩
    rw [← hslot, h.isZero_slot k hk] at hne
    cases hne

end Buffer

/-! ## Long division -/

namespace LongDivision

variable {kind : DivisionKind} {dividend divisor : Buffer} {shift count : Nat}
  {s s' : LongDivision}

/-- The steps of an exact division clear the remainder. -/
theorem cleared_exactSteps (hd : divisor.WellFormed)
    (h : Buffer.Cleared R dividend (divisor.degree + count) s.remainder)
    (hfits : ∀ shift < count, s.Fits divisor shift)
    (hrun : (steps R .exact divisor count).run s = .ok () s') :
    Buffer.Cleared R dividend divisor.degree s'.remainder := by
  have hsteps := exactSteps_induction
    (I := fun count s => Buffer.Cleared R dividend (divisor.degree + count) s.remainder)
    (fun _ _ hz hs => hs.passed hz) (fun shift s factor hfits hne hq hs => ?_) h hfits
  · rw [hrun] at hsteps
    exact hsteps
  · obtain ⟨-, hfactor⟩ := CoeffRing.exactQuotient_mul hq
    -- The exact quotient of what is not zero is not zero either.
    have hfactor_ne : R.isZero factor = false := by
      rw [CoeffRing.isZero_eq_false_iff] at hne ⊢
      intro hzero
      rw [hzero, zero_mul] at hfactor
      exact hne hfactor.symm
    rw [subtracted, hfactor_ne, if_neg Bool.false_ne_true]
    exact hs.eliminated (a := ⟨shift, factor⟩) hne hd hs.toWellFormed hfits.degree_lt_remainder
      hfactor fun i hi => hs.isZero_slot i hi

/-- What the steps of a pseudo-division for the shifts from `count` on have left in the remainder:
    zero in the ring where they have been and, once there was a step, canonical integers. -/
structure PseudoCleared (R : CoeffRing) (divisor : Buffer) (total count : Nat) (s : LongDivision) :
    Prop where
  wellFormed : s.remainder.WellFormed
  isZero_slot : ∀ i, divisor.degree + count ≤ i → R.isZero (s.remainder.slot i) = true
  canonical : count < total → s.remainder.Canonical R

theorem PseudoCleared.pseudoStepped {total : Nat} (h : PseudoCleared R divisor total (shift + 1) s)
    (hd : divisor.WellFormed) (hfits : s.Fits divisor shift) :
    PseudoCleared R divisor total shift (s.pseudoStepped R divisor shift) := by
  have hscaled := h.wellFormed.canonical_scaled (R := R) divisor.leading
  have hzero : ∀ i, divisor.degree + shift < i →
      R.isZero (((s.announced divisor shift).scaled R divisor).remainder.slot i) = true :=
    fun i hi => Buffer.isZero_slot_scaled h.wellFormed divisor.leading (h.isZero_slot i hi)
  rw [LongDivision.pseudoStepped, subtracted]
  split_ifs with hc
  · -- A coefficient that is zero in the ring is multiplied to zero.
    refine ⟨hscaled.toWellFormed, fun i hi => ?_, fun _ => hscaled⟩
    rcases Nat.eq_or_lt_of_le hi with rfl | hlt
    · exact Buffer.isZero_slot_scaled h.wellFormed divisor.leading hc
    · exact hzero i hlt
  · have hlt := (hfits.scaled R).degree_lt_remainder
    have hsubtracted :=
      hscaled.subShifted (a := ⟨shift, s.remainder.slot (divisor.degree + shift)⟩) hlt
    refine ⟨hsubtracted.toWellFormed, fun i hi => ?_, fun _ => hsubtracted⟩
    exact Buffer.isZero_slot_eliminated hd
      (a := ⟨shift, s.remainder.slot (divisor.degree + shift)⟩) hlt
      ((mul_comm _ _).trans (Buffer.cast_slot_scaled h.wellFormed divisor.leading _).symm) hzero hi

/-- A pseudo-division that succeeds leaves a canonical remainder, zero from the degree of the
    divisor on. -/
theorem canonical_remainder_pseudoSteps {total : Nat} (hd : divisor.WellFormed)
    (h : PseudoCleared R divisor total total s) (htotal : 0 < total)
    (hfits : ∀ shift < total, s.Fits divisor shift)
    (hrun : (steps R .pseudo divisor total).run s = .ok () s') :
    s'.remainder.Canonical R ∧
      ∀ i, divisor.degree ≤ i → R.isZero (s'.remainder.slot i) = true := by
  cases hlead : R.isZero divisor.leading with
  | true =>
    obtain ⟨shift, rfl⟩ := Nat.exists_eq_succ_of_ne_zero htotal.ne'
    rw [run_steps_succ, step, run_pseudoStep_zero hlead] at hrun
    cases hrun
  | false =>
    obtain ⟨s₁, hsteps, hend⟩ := pseudoSteps_induction (I := PseudoCleared R divisor total) hlead
      (fun _ _ hfits hs => hs.pseudoStepped hd hfits) h hfits
    rw [hrun] at hsteps
    cases hsteps
    exact ⟨hend.canonical htotal, hend.isZero_slot⟩

/-- Whatever the operands hold, a division that succeeds leaves nothing in the remainder from the
    degree of the divisor on. This is normalized, and hence zero or of smaller degree, exactly if
    the division multiplied, if the dividend was normalized, or if there was something to
    eliminate. -/
theorem run_remainder (hp : dividend.WellFormed) (hd : divisor.WellFormed)
    (hword : dividend.degree < degreeBound) (hr : s.remainder.WellFormed)
    (hrun : (run R kind dividend divisor).run s = .ok () s') :
    (∀ i, divisor.degree ≤ i → R.isZero (s'.remainder.slot i) = true) ∧
      (s'.remainder.Normalized R ∧
          (s'.remainder.image R = 0 ∨ s'.remainder.degree < divisor.degree) ↔
        kind = .pseudo ∨ dividend.Normalized R ∨
          ∃ k, divisor.degree ≤ k ∧ R.isZero (dividend.slot k) = false) := by
  rw [run_run] at hrun
  split_ifs at hrun with hzero hdeg hqcap hrcap
  have hdeg := not_lt.1 hdeg
  have hlt := not_le.1 hrcap
  have hfits : ∀ shift < dividend.degree - divisor.degree + 1,
      (s.started R kind dividend divisor).Fits divisor shift :=
    fits_started (by simpa using hzero) hdeg hword (not_le.1 hqcap) hlt
  have hstart : Buffer.Cleared R dividend
      (divisor.degree + (dividend.degree - divisor.degree + 1)) (s.remainder.copied dividend) :=
    Buffer.cleared_copied hr hp hlt fun i hi => hp.isZero_slot_of_degree_lt (by omega)
  split at hrun
  · next s₁ hsteps =>
    cases hrun
    cases kind with
    | exact =>
      have hend := cleared_exactSteps hd hstart hfits hsteps
      refine ⟨hend.isZero_slot, ?_⟩
      rw [or_iff_right (show ¬DivisionKind.exact = .pseudo by decide), ← hend.normalized_iff]
      exact and_iff_left_of_imp fun hnormalized =>
        hnormalized.image_eq_zero_or_degree_lt hend.toWellFormed hend.isZero_slot
    | pseudo =>
      have hclear : PseudoCleared R divisor (dividend.degree - divisor.degree + 1)
          (dividend.degree - divisor.degree + 1) (s.started R .pseudo dividend divisor) :=
        ⟨hstart.toWellFormed, hstart.isZero_slot, fun hlt => absurd hlt (lt_irrefl _)⟩
      obtain ⟨hcanonical, hisZero⟩ :=
        canonical_remainder_pseudoSteps hd hclear (Nat.succ_pos _) hfits hsteps
      exact ⟨hisZero, fun _ => .inl rfl, fun _ => ⟨hcanonical.normalized,
        hcanonical.normalized.image_eq_zero_or_degree_lt hcanonical.toWellFormed hisZero⟩⟩
  · cases hrun

end LongDivision

namespace Session

variable {calls : List Call} {p d r : Register}

/-- In every session, a division that succeeds leaves nothing in the remainder from the degree of
    the divisor on, in the ring that it is over. The remainder is normalized, and zero or of smaller
    degree than the divisor, exactly if it is that of a pseudo-division, if the dividend was
    normalized in this ring, or if the dividend had anything to eliminate. Otherwise it is the
    dividend as it was. -/
theorem division_remainder {kind : DivisionKind} {quotient : Buffer} {trace : Array Event}
    {s : LongDivision} (hp : p ∈ run calls) (hd : d ∈ run calls) (hr : r ∈ run calls)
    (hrun : (LongDivision.run R kind p.buffer d.buffer).run ⟨quotient, r.buffer, trace⟩ =
      .ok () s) :
    (∀ i, d.buffer.degree ≤ i → R.isZero (s.remainder.slot i) = true) ∧
      (s.remainder.Normalized R ∧
          (s.remainder.image R = 0 ∨ s.remainder.degree < d.buffer.degree) ↔
        kind = .pseudo ∨ p.buffer.Normalized R ∨
          ∃ k, d.buffer.degree ≤ k ∧ R.isZero (p.buffer.slot k) = false) := by
  have hsound := sound_run calls
  exact LongDivision.run_remainder (hsound p hp).buffer.toWellFormed
    (hsound d hd).buffer.toWellFormed (hsound p hp).degree_lt_bound
    (hsound r hr).buffer.toWellFormed hrun

/-- Modulo `5`, the exact division of `5 x ^ 2 + x + 1`, built over the integers, by `x` passes over
    the leading coefficient and eliminates the next one. The remainder is the constant `1`. -/
theorem division_remainder_five :
    let R : CoeffRing := .modular 5 false (by decide)
    let left := (LongDivision.run R .exact ⟨3, #[1, 1, 5]⟩ ⟨2, #[0, 1]⟩).leaves
      ⟨⟨1, #[0, 0]⟩, ⟨1, #[0, 0, 0]⟩, #[]⟩
    left.remainder = ⟨1, #[1, 0, 0]⟩ ∧ left.remainder.Normalized R ∧
      (left.remainder.image R = 0 ∨ left.remainder.degree < 1) := by
  intro R left
  let calls : List Call := [.construct (.ofCoefficients .integers 3 [1, 1, 5]),
    .construct (.ofCoefficients .integers 2 [0, 1]), .construct (.ofCapacity 3)]
  have hp : (⟨⟨3, #[1, 1, 5]⟩, 3⟩ : Register) ∈ run calls := by decide +kernel
  have hd : (⟨⟨2, #[0, 1]⟩, 2⟩ : Register) ∈ run calls := by decide +kernel
  have hr : (⟨⟨1, #[0, 0, 0]⟩, 3⟩ : Register) ∈ run calls := by decide +kernel
  have houtcome : (LongDivision.run R .exact ⟨3, #[1, 1, 5]⟩ ⟨2, #[0, 1]⟩).outcome
      ⟨⟨1, #[0, 0]⟩, ⟨1, #[0, 0, 0]⟩, #[]⟩ = .ok () := by
    decide +kernel
  have hremainder := division_remainder hp hd hr (Action.run_of_outcome_ok houtcome)
  exact ⟨by decide +kernel, hremainder.2.2 (.inr (.inr ⟨1, by decide, by decide +kernel⟩))⟩

/-- Modulo `5`, the exact division of `5 x ^ 2 + 1`, built over the integers, by `x` finds nothing
    to eliminate. It succeeds and leaves the dividend as it was, with a highest significant slot
    that is zero in the ring and past the degree of the divisor. -/
theorem division_untrimmed_five :
    let R : CoeffRing := .modular 5 false (by decide)
    let remainder : Buffer := ⟨3, #[1, 0, 5]⟩
    run [.construct (.ofCoefficients .integers 3 [1, 0, 5]),
        .construct (.ofCoefficients .integers 2 [0, 1]), .construct (.ofCapacity 2),
        .construct (.ofCapacity 3)] =
      [⟨⟨3, #[1, 0, 5]⟩, 3⟩, ⟨⟨2, #[0, 1]⟩, 2⟩, ⟨⟨1, #[0, 0]⟩, 2⟩, ⟨⟨1, #[0, 0, 0]⟩, 3⟩] ∧
      ((LongDivision.run R .exact ⟨3, #[1, 0, 5]⟩ ⟨2, #[0, 1]⟩).finalState
        ⟨⟨1, #[0, 0]⟩, ⟨1, #[0, 0, 0]⟩, #[]⟩).map LongDivision.remainder = .ok remainder ∧
      ¬remainder.Normalized R ∧ ¬(remainder.image R = 0 ∨ remainder.degree < 1) := by
  intro R remainder
  refine ⟨by decide +kernel, by decide +kernel, by decide +kernel, ?_⟩
  rintro (hzero | hdegree)
  · have hconstant := congrArg (·.coeff 0) hzero
    simp only [Buffer.coeff_image, Polynomial.coeff_zero] at hconstant
    exact absurd (CoeffRing.isZero_iff.2 hconstant) (by decide +kernel)
  · exact absurd hdegree (by decide)

end Session

end Univariate
