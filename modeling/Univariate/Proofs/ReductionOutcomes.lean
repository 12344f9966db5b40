import Univariate.Proofs.ArbitraryOperands
import Univariate.Proofs.ReductionIdentity

/-!
# How reductions end

A reduction checks its divisor by the zero test, which looks at the size and at one slot. This does
not find a zero in the highest of several significant slots, and the reduction then divides by that
slot when it comes to something to eliminate.

* `Reduction.refusal` is what the operands and the target are refused for, and
  `Reduction.DividesByZero` what makes a reduction fault past that
  (`Reduction.outcome_of_dividesByZero`). There is no other way to fail
  (`Reduction.exists_run_of_not_dividesByZero`).
* By any other divisor the steps come to their end and clear the buffer
  (`Reduction.exists_run_cleared`), which then is zero or of small degree if it is trimmed
  (`Buffer.Cleared.isZero_or_degree_lt_iff`).
* `Session.reduction_ends` says it of the reductions of all sessions. Where nothing is made
  significant without being written, they are total.
-/

namespace Univariate

namespace Buffer

variable {dividend t : Buffer} {d : Nat}

theorem normalized_integers_iff : t.Normalized .integers ↔ t.Trimmed := by
  rw [Normalized, Trimmed, CoeffRing.isZero_integers_eq_false_iff]

/-- What eliminations over the integers have left is zero or of small degree if the dividend was
    trimmed, or if there was anything to eliminate, and only then. -/
theorem Cleared.isZero_or_degree_lt_iff (h : Cleared .integers dividend d t)
    (hd : d ≤ dividend.degree) :
    t.isZero = true ∨ t.degree < d ↔
      dividend.Trimmed ∨ ∃ k, d ≤ k ∧ dividend.slot k ≠ 0 := by
  have hiff := h.normalized_iff
  simp only [normalized_integers_iff, CoeffRing.isZero_integers_eq_false_iff] at hiff
  rw [← hiff]
  constructor
  · rintro (hzero | hlt)
    · exact .inl (isZero_iff.1 hzero).1
    · rcases h.settled_or_copy with ⟨-, hnormalized⟩ | ⟨hsize, -⟩
      · exact normalized_integers_iff.1 hnormalized
      · -- The copy has the degree of the dividend.
        rw [degree, hsize] at hlt
        exact absurd hd (not_le.2 hlt)
  · intro htrimmed
    have hcanonical : t.Canonical .integers :=
      ⟨h.toWellFormed, fun _ => rfl, normalized_integers_iff.2 htrimmed⟩
    exact hcanonical.isZero_or_degree_lt fun i hi =>
      CoeffRing.isZero_integers_iff.1 (h.isZero_slot i hi)

end Buffer

namespace Reduction

variable {dividend divisor : Buffer} {shift count : Nat} {s : Reduction}

/-! ## The steps -/

theorem slot_scaledUp (h : s.reduced.WellFormed) (c lead : Int) (i : Nat) :
    (s.scaledUp c lead).reduced.slot i = Int.lcm c lead / c * s.reduced.slot i := by
  refine CoeffRing.eq_of_contains (R := .integers) rfl rfl ?_
  exact (Buffer.cast_slot_scaled h _ i).trans (Int.cast_mul _ _).symm

/-- A step clears the buffer down to its exponent. -/
theorem cleared_stepped (hd : divisor.WellFormed) (hfits : s.Fits divisor shift)
    (h : Buffer.Cleared .integers dividend (divisor.degree + (shift + 1)) s.reduced) :
    Buffer.Cleared .integers dividend (divisor.degree + shift)
      (s.stepped divisor shift).reduced := by
  rw [stepped]
  generalize hcoeff : s.reduced.slot (divisor.degree + shift) = c
  split_ifs with hc hdvd
  · exact h.passed (CoeffRing.isZero_integers_iff.2 (hcoeff.trans hc))
  · have hne := CoeffRing.isZero_integers_eq_false (hcoeff.trans_ne hc)
    have hcancel :
        c / divisor.leading * divisor.leading = s.reduced.slot (divisor.degree + shift) := by
      rw [Int.ediv_mul_cancel hdvd, hcoeff]
    exact h.eliminated (a := ⟨shift, _⟩) hne hd h.toWellFormed hfits.degree_lt_reduced
      ((Int.cast_mul _ _).symm.trans (congrArg _ hcancel)) fun i hi => h.isZero_slot i hi
  · have hne := CoeffRing.isZero_integers_eq_false (hcoeff.trans_ne hc)
    have hlt : divisor.degree + shift < (s.scaledUp c divisor.leading).reduced.capacity := by
      rw [capacity_scaledUp]
      exact hfits.degree_lt_reduced
    -- On both sides is the least common multiple.
    have hcancel : Int.lcm c divisor.leading / divisor.leading * divisor.leading =
        (s.scaledUp c divisor.leading).reduced.slot (divisor.degree + shift) := by
      rw [slot_scaledUp h.toWellFormed, hcoeff, lcm_ediv_mul,
        Int.ediv_mul_cancel (Int.dvd_lcm_right ..)]
    exact h.eliminated (a := ⟨shift, _⟩) hne hd (h.toWellFormed.canonical_scaled _).toWellFormed hlt
      ((Int.cast_mul _ _).symm.trans (congrArg _ hcancel))
      fun i hi => Buffer.isZero_slot_scaled h.toWellFormed _ (h.isZero_slot i hi)

/-- By a divisor whose leading coefficient is not zero, the steps come to their end and clear the
    buffer. -/
theorem exists_run_cleared (hlead : divisor.leading ≠ 0) (hd : divisor.WellFormed)
    (h : Buffer.Cleared .integers dividend (divisor.degree + count) s.reduced)
    (hfits : ∀ shift < count, s.Fits divisor shift) :
    ∃ s', (steps divisor count).run s = .ok () s' ∧
      Buffer.Cleared .integers dividend divisor.degree s'.reduced :=
  steps_induction
    (I := fun count s => Buffer.Cleared .integers dividend (divisor.degree + count) s.reduced) hlead
    (fun _ _ hfits hs => cleared_stepped hd hfits hs) h hfits

/-- The steps pass over zeros. -/
theorem run_steps_of_forall (hfits : ∀ shift < count, s.Fits divisor shift)
    (hzero : ∀ shift < count, s.reduced.slot (divisor.degree + shift) = 0) :
    (steps divisor count).run s = .ok () s := by
  induction count with
  | zero => rfl
  | succ shift ih =>
    have hlast := Nat.lt_succ_self shift
    rw [run_steps_succ, run_step (hfits shift hlast)]
    dsimp only
    rw [if_pos (hzero shift hlast)]
    exact ih (fun k hk => hfits k (Nat.lt_succ_of_lt hk)) fun k hk => hzero k (Nat.lt_succ_of_lt hk)

/-- By a divisor that is zero in its highest significant slot, they break off at anything else. -/
theorem exists_run_steps_error (hlead : divisor.leading = 0)
    (hfits : ∀ shift < count, s.Fits divisor shift)
    (hne : ∃ shift < count, s.reduced.slot (divisor.degree + shift) ≠ 0) :
    ∃ s', (steps divisor count).run s = .error (.faulted .zeroDivide) s' := by
  induction count with
  | zero =>
    obtain ⟨shift, hshift, -⟩ := hne
    exact absurd hshift (Nat.not_lt_zero shift)
  | succ shift ih =>
    rw [run_steps_succ, run_step_of_eq_zero (hfits shift (Nat.lt_succ_self shift)) hlead]
    by_cases hc : s.reduced.slot (divisor.degree + shift) = 0
    · -- What is not zero is still to come.
      rw [if_pos hc]
      refine ih (fun k hk => hfits k (Nat.lt_succ_of_lt hk)) ?_
      obtain ⟨k, hk, hne⟩ := hne
      rcases Nat.lt_succ_iff_lt_or_eq.1 hk with hk | rfl
      · exact ⟨k, hk, hne⟩
      · exact absurd hc hne
    · rw [if_neg hc]
      exact ⟨_, rfl⟩

/-! ## The whole reduction -/

/-- What a reduction into `target` is refused for, in the order of its checks. -/
def refusal (dividend divisor target : Buffer) : Option Refusal :=
  if divisor.isZero then some .divisionByZero
  else if dividend.degree < divisor.degree then
    some (.divisorTooLong dividend.degree divisor.degree)
  else if target.capacity ≤ dividend.degree then
    some (.noSlotFor dividend.degree target.capacity)
  else none

/-- There is something to eliminate, but the divisor holds zero in its highest significant slot. -/
structure DividesByZero (dividend divisor : Buffer) : Prop where
  leading_eq_zero : divisor.leading = 0
  exists_ne_zero : ∃ k, divisor.degree ≤ k ∧ dividend.slot k ≠ 0

theorem outcome_of_refusal {reason : Refusal}
    (h : refusal dividend divisor s.reduced = some reason) :
    (run dividend divisor).outcome s = .error (.refused reason) := by
  rw [refusal] at h
  rw [Action.outcome, run_run]
  split_ifs at h ⊢ <;> cases h <;> rfl

/-- Past the checks, a reduction is its steps. -/
theorem run_of_refusal (h : refusal dividend divisor s.reduced = none) :
    (divisor.isZero = false ∧ divisor.degree ≤ dividend.degree ∧
      dividend.degree < s.reduced.capacity) ∧
    (run dividend divisor).run s =
      match (steps divisor (dividend.degree - divisor.degree + 1)).run
        (s.started dividend divisor) with
      | .ok _ s' => .ok s'.multiplier (s'.reported (.reductionDone s'.multiplier s'.reduced))
      | .error e s' => .error e s' := by
  rw [refusal] at h
  rw [run_run]
  split_ifs at h ⊢ with hzero hdeg hr
  exact ⟨⟨by simpa using hzero, not_lt.1 hdeg, not_le.1 hr⟩, rfl⟩

/-- The steps of a reduction by a divisor that is zero in its highest significant slot break off, if
    there is anything for them to eliminate. -/
theorem outcome_of_dividesByZero (hp : dividend.WellFormed) (hword : dividend.degree < degreeBound)
    (hr : s.reduced.WellFormed) (hpass : refusal dividend divisor s.reduced = none)
    (h : DividesByZero dividend divisor) :
    (run dividend divisor).outcome s = .error (.faulted .zeroDivide) := by
  obtain ⟨⟨hzero, hdeg, hlt⟩, hrun⟩ := run_of_refusal hpass
  obtain ⟨k, hk, hne⟩ := h.exists_ne_zero
  have hle : k ≤ dividend.degree := not_lt.1 fun hlt => hne (hp.slot_eq_zero_of_degree_lt hlt)
  obtain ⟨s', hsteps⟩ := exists_run_steps_error h.leading_eq_zero
    (fits_started hzero hdeg hword hlt) ⟨k - divisor.degree, by omega, by
      rw [Nat.add_sub_cancel' hk]
      exact (Buffer.slot_copied hr hp hlt k).trans_ne hne⟩
  rw [Action.outcome, hrun, hsteps]

/-- Otherwise a reduction that passes its checks succeeds. What it gives is zero or of smaller
    degree than the divisor exactly if the dividend was trimmed, or had anything to eliminate. -/
theorem exists_run_of_not_dividesByZero (hp : dividend.WellFormed) (hd : divisor.WellFormed)
    (hword : dividend.degree < degreeBound) (hr : s.reduced.WellFormed)
    (hpass : refusal dividend divisor s.reduced = none)
    (h : ¬DividesByZero dividend divisor) :
    ∃ a s', (run dividend divisor).run s = .ok a s' ∧
      (s'.reduced.isZero = true ∨ s'.reduced.degree < divisor.degree ↔
        dividend.Trimmed ∨ ∃ k, divisor.degree ≤ k ∧ dividend.slot k ≠ 0) := by
  obtain ⟨⟨hzero, hdeg, hlt⟩, hrun⟩ := run_of_refusal hpass
  have hfits : ∀ shift < dividend.degree - divisor.degree + 1,
      (s.started dividend divisor).Fits divisor shift :=
    fits_started hzero hdeg hword hlt
  have hsteps : ∃ s', (steps divisor (dividend.degree - divisor.degree + 1)).run
      (s.started dividend divisor) = .ok () s' ∧
        Buffer.Cleared .integers dividend divisor.degree s'.reduced := by
    by_cases hlead : divisor.leading = 0
    · -- There is nothing to eliminate, so that the copy stays as it is.
      have hnone : ∀ i, divisor.degree ≤ i → dividend.slot i = 0 := fun i hi => by
        by_contra hne
        exact h ⟨hlead, i, hi, hne⟩
      refine ⟨s.started dividend divisor, run_steps_of_forall hfits fun shift _ => ?_,
        Buffer.cleared_copied hr hp hlt fun i hi => CoeffRing.isZero_integers_iff.2 (hnone i hi)⟩
      exact (Buffer.slot_copied hr hp hlt _).trans (hnone _ (Nat.le_add_right ..))
    · exact exists_run_cleared hlead hd (Buffer.cleared_copied hr hp hlt fun i hi =>
        hp.isZero_slot_of_degree_lt (by omega)) hfits
  obtain ⟨s', hok, hcleared⟩ := hsteps
  rw [hok] at hrun
  exact ⟨_, _, hrun, hcleared.isZero_or_degree_lt_iff hdeg⟩

end Reduction

/-! ## Sessions -/

namespace Session

open Reduction

variable {calls : List Call} {p d t : Register}

/-- In every session, a reduction is refused for what its operands and its target call for, faults
    if it would divide by zero, and succeeds otherwise. It then gives what is zero or of smaller
    degree than the divisor exactly if the dividend was trimmed, or had anything to eliminate. In a
    session that never makes slots significant without writing them, a reduction that is not refused
    succeeds, and gives what is zero or of smaller degree. -/
theorem reduction_ends (hp : p ∈ run calls) (hd : d ∈ run calls) (ht : t ∈ run calls) (a : Int)
    (trace : Array Event) :
    let reduction := Reduction.run p.buffer d.buffer
    let s : Reduction := ⟨t.buffer, a, trace⟩
    (∀ reason, refusal p.buffer d.buffer t.buffer = some reason →
      reduction.outcome s = .error (.refused reason)) ∧
    (refusal p.buffer d.buffer t.buffer = none →
      (DividesByZero p.buffer d.buffer → reduction.outcome s = .error (.faulted .zeroDivide)) ∧
      (¬DividesByZero p.buffer d.buffer → ∃ b s', reduction.run s = .ok b s' ∧
        (s'.reduced.isZero = true ∨ s'.reduced.degree < d.buffer.degree ↔
          p.buffer.Trimmed ∨ ∃ k, d.buffer.degree ≤ k ∧ p.buffer.slot k ≠ 0)) ∧
      ((∀ call ∈ calls, call.exposes = false) → ∃ b s', reduction.run s = .ok b s' ∧
        (s'.reduced.isZero = true ∨ s'.reduced.degree < d.buffer.degree))) := by
  intro reduction s
  have hsound := sound_run calls
  have hp' := (hsound p hp).buffer.toWellFormed
  have hd' := (hsound d hd).buffer.toWellFormed
  have ht' := (hsound t ht).buffer.toWellFormed
  have hword := (hsound p hp).degree_lt_bound
  refine ⟨fun reason h => outcome_of_refusal h,
    fun hpass => ⟨fun h => ?_, fun h => ?_, fun h => ?_⟩⟩
  · exact outcome_of_dividesByZero hp' hword ht' hpass h
  · exact exists_run_of_not_dividesByZero hp' hd' hword ht' hpass h
  · -- A trimmed divisor that is not zero has a leading coefficient.
    have hp'' := (sound_run_trimmed calls p hp).buffer.trimmed h
    have hd'' := (sound_run_trimmed calls d hd).buffer.trimmed h
    have hlead := hd''.leading_ne_zero (run_of_refusal hpass (s := s)).1.1
    obtain ⟨b, s', hrun, hiff⟩ := exists_run_of_not_dividesByZero (s := s) hp' hd' hword ht' hpass
      fun h => hlead h.leading_eq_zero
    exact ⟨b, s', hrun, hiff.2 (.inl hp'')⟩

/-- The reduction of `2 x + 1`, with the slot of `x ^ 2` made significant, by `3 x + 1` passes over
    this slot. It succeeds, and gives a constant. -/
theorem reduction_ends_three :
    ∃ b s', (Reduction.run ⟨3, #[1, 2, 0]⟩ ⟨2, #[1, 3]⟩).run ⟨⟨1, #[0, 0, 0]⟩, 1, #[]⟩ = .ok b s' ∧
      (s'.reduced.isZero = true ∨ s'.reduced.degree < 1) := by
  let calls : List Call := [.construct (.ofCoefficients .integers 3 [1, 2]), .edit 0 (.expose 2),
    .construct (.ofCoefficients .integers 2 [1, 3]), .construct (.ofCapacity 3)]
  have hp : (⟨⟨3, #[1, 2, 0]⟩, 3⟩ : Register) ∈ run calls := by decide +kernel
  have hd : (⟨⟨2, #[1, 3]⟩, 2⟩ : Register) ∈ run calls := by decide +kernel
  have ht : (⟨⟨1, #[0, 0, 0]⟩, 3⟩ : Register) ∈ run calls := by decide +kernel
  obtain ⟨-, hpass⟩ := reduction_ends hp hd ht 1 #[]
  obtain ⟨b, s', hrun, hiff⟩ := (hpass (by decide)).2.1 fun h =>
    absurd h.leading_eq_zero (by decide)
  exact ⟨b, s', hrun, hiff.2 (.inr ⟨1, by decide, by decide⟩)⟩

/-- The zero polynomial with the slot of `x` made significant is not found by the zero test, and the
    reduction of `x` by it divides by zero. -/
theorem reduction_faults_exposed :
    run [.construct (.ofCoefficients .integers 2 [0, 1]), .construct (.ofCapacity 2),
        .edit 1 (.expose 1), .construct (.ofCapacity 2)] =
      [⟨⟨2, #[0, 1]⟩, 2⟩, ⟨⟨2, #[0, 0]⟩, 2⟩, ⟨⟨1, #[0, 0]⟩, 2⟩] ∧
      (Reduction.run ⟨2, #[0, 1]⟩ ⟨2, #[0, 0]⟩).outcome ⟨⟨1, #[0, 0]⟩, 1, #[]⟩ =
        .error (.faulted .zeroDivide) := by
  decide +kernel

end Session

end Univariate
