import Univariate.Elimination.Reduction
import Univariate.Proofs.EditInvariance

/-!
# The steps of a reduction

What each step of a reduction does to the polynomial and the multiplier, and when it succeeds.

* `Reduction.Fits` is what a step relies on: the divisor is not zero, and there are slots for what
  the step writes.
* Only a divisor whose highest significant slot holds zero makes a step fail
  (`Reduction.run_step`), with a fault (`Reduction.faulted_of_run_steps`). By any other, what holds
  along all steps is shown on one of them (`Reduction.steps_induction`).
* `Reduction.run_run` opens the whole reduction around its steps, and `Buffer.run_reduce` a
  reduction into a fresh buffer.
-/

namespace Univariate.Reduction

variable {divisor : Buffer} {shift : Nat} {s : Reduction}

/-- A step for the exponent of the divisor raised by `shift` finds its slots. -/
structure Fits (s : Reduction) (divisor : Buffer) (shift : Nat) : Prop where
  divisor_ne_zero : divisor.isZero = false
  degree_lt_bound : divisor.degree + shift < degreeBound
  degree_lt_reduced : divisor.degree + shift < s.reduced.capacity

theorem Fits.mono (h : s.Fits divisor shift) {s' : Reduction} {shift' : Nat} (hle : shift' ≤ shift)
    (hr : s'.reduced.capacity = s.reduced.capacity) : s'.Fits divisor shift' where
  divisor_ne_zero := h.divisor_ne_zero
  degree_lt_bound := by
    have := h.degree_lt_bound
    omega
  degree_lt_reduced := by
    have := h.degree_lt_reduced
    omega

/-- With an event added. -/
def reported (s : Reduction) (event : Event) : Reduction :=
  { s with trace := s.trace.push event }

/-- With `a * x ^ shift` times the divisor subtracted. -/
def eliminated (s : Reduction) (divisor : Buffer) (shift : Nat) (a : Int) : Reduction :=
  { s with
    reduced := (s.reduced.subShifted .integers divisor ⟨shift, a⟩).resize .integers
      (divisor.degree + shift) }

/-- Multiplied so that its coefficient `c` becomes the least common multiple of `c` and `lead`. -/
def scaledUp (s : Reduction) (c lead : Int) : Reduction where
  reduced := (s.reduced.mapNonzero (CoeffRing.integers.mul · (Int.lcm c lead / c))).trim .integers
  multiplier := s.multiplier * (Int.lcm c lead / c)
  trace := s.trace.push
    (.reductionScaled (Int.lcm c lead) (Int.lcm c lead / c) (Int.lcm c lead / lead))

@[simp] theorem capacity_eliminated (s : Reduction) (divisor : Buffer) (shift : Nat) (a : Int) :
    (s.eliminated divisor shift a).reduced.capacity = s.reduced.capacity := by
  simp [eliminated]

@[simp] theorem capacity_scaledUp (s : Reduction) (c lead : Int) :
    (s.scaledUp c lead).reduced.capacity = s.reduced.capacity := by
  simp [scaledUp]

@[simp] theorem run_report (event : Reduction → Event) (s : Reduction) :
    (report event).run s = .ok () (s.reported (event s)) :=
  rfl

theorem run_onReduced (edit : Edit Unit) (s : Reduction) :
    (onReduced edit).run s =
      match edit.run s.reduced with
      | .ok a t => .ok a { s with reduced := t }
      | .error e t => .error e { s with reduced := t } := by
  rw [onReduced, Action.run_onPart]
  cases edit.run s.reduced <;> rfl

/-! ## Quotients of a least common multiple -/

theorem lcm_ediv_left_ne_zero {c lead : Int} (hc : c ≠ 0) (hlead : lead ≠ 0) :
    (Int.lcm c lead : Int) / c ≠ 0 := by
  intro h
  have hmul := Int.mul_ediv_cancel' (Int.dvd_lcm_left (a := c) (b := lead))
  rw [h, mul_zero] at hmul
  exact Int.lcm_ne_zero hc hlead (by exact_mod_cast hmul.symm)

theorem lcm_ediv_right_ne_zero {c lead : Int} (hc : c ≠ 0) (hlead : lead ≠ 0) :
    (Int.lcm c lead : Int) / lead ≠ 0 := by
  rw [Int.lcm_comm]
  exact lcm_ediv_left_ne_zero hlead hc

/-! ## Steps -/

theorem run_scaleUp {c lead : Int} (hc : c ≠ 0) (hlead : lead ≠ 0) (s : Reduction) :
    (scaleUp c lead).run s = .ok (Int.lcm c lead / lead) (s.scaledUp c lead) := by
  -- The scale is not zero, so that the scaling is not refused.
  have hscale : CoeffRing.integers.isZero (Int.lcm c lead / c) = false :=
    CoeffRing.isZero_integers_eq_false (lcm_ediv_left_ne_zero hc hlead)
  simp [scaleUp, hlead, run_onReduced, Buffer.run_scale, hscale, scaledUp, reported,
    -bind_pure_comp]

theorem run_scaleUp_zero (c : Int) (s : Reduction) :
    (scaleUp c 0).run s = .error (.faulted .zeroDivide) s := by
  simp [scaleUp]

theorem run_subtraction (h : s.Fits divisor shift) {a : Int} (ha : a ≠ 0) :
    (onReduced (Buffer.subBufferMultiple .integers divisor ⟨shift, a⟩)).run s =
      .ok () (s.eliminated divisor shift a) := by
  simp [run_onReduced, Buffer.run_subBufferMultiple, Term.isTrivial, ha, h.divisor_ne_zero,
    addDegrees, h.degree_lt_bound, Nat.not_le.2 h.degree_lt_reduced, eliminated]

/-- A step passes over the coefficient zero, eliminates what the leading coefficient of the divisor
    divides, scales up before it eliminates anything else, and faults where it would have to divide
    by zero. -/
theorem run_step (h : s.Fits divisor shift) :
    (step divisor shift).run s =
      let c := s.reduced.slot (divisor.degree + shift)
      let s' := s.reported (.reductionStep (divisor.degree + shift) s.reduced)
      if c = 0 then
        .ok () s
      else if divisor.leading ∣ c then
        .ok () (s'.eliminated divisor shift (c / divisor.leading))
      else if divisor.leading = 0 then
        .error (.faulted .zeroDivide) s'
      else
        .ok () ((s'.scaledUp c divisor.leading).eliminated divisor shift
          (Int.lcm c divisor.leading / divisor.leading)) := by
  dsimp only
  generalize hcoeff : s.reduced.slot (divisor.degree + shift) = c
  have hfits : (s.reported (.reductionStep (divisor.degree + shift) s.reduced)).Fits divisor
      shift := h.mono le_rfl rfl
  split_ifs with hc hdvd hlead
  · simp [step, hcoeff, hc]
  · -- With the factor zero, the subtraction would be refused at the shift zero.
    have hquot : c / divisor.leading ≠ 0 := fun hq => hc (Int.eq_zero_of_ediv_eq_zero hdvd hq)
    simp only [step, ne_eq, factor, ite_not, EStateM.run_bind, EStateM.run_get, hcoeff, hc,
      ↓reduceIte, hdvd, pure_bind, run_report]
    exact run_subtraction hfits hquot
  · simp [step, hcoeff, hc, factor, hlead, run_scaleUp_zero]
  · simp only [step, ne_eq, factor, ite_not, EStateM.run_bind, EStateM.run_get, hcoeff, hc,
      ↓reduceIte, hdvd, run_report, run_scaleUp hc hlead]
    exact run_subtraction (hfits.mono le_rfl (capacity_scaledUp ..))
      (lcm_ediv_right_ne_zero hc hlead)

/-- After a step, for a divisor whose leading coefficient is not zero. -/
def stepped (s : Reduction) (divisor : Buffer) (shift : Nat) : Reduction :=
  let c := s.reduced.slot (divisor.degree + shift)
  let s' := s.reported (.reductionStep (divisor.degree + shift) s.reduced)
  if c = 0 then s
  else if divisor.leading ∣ c then s'.eliminated divisor shift (c / divisor.leading)
  else
    (s'.scaledUp c divisor.leading).eliminated divisor shift
      (Int.lcm c divisor.leading / divisor.leading)

theorem run_step_of_ne_zero (h : s.Fits divisor shift) (hlead : divisor.leading ≠ 0) :
    (step divisor shift).run s = .ok () (s.stepped divisor shift) := by
  rw [run_step h, stepped]
  dsimp only
  split_ifs <;> rfl

@[simp] theorem capacity_stepped (s : Reduction) (divisor : Buffer) (shift : Nat) :
    (s.stepped divisor shift).reduced.capacity = s.reduced.capacity := by
  rw [stepped]
  split_ifs <;> simp [reported]

/-- What the steps of a reduction keep from each shift to the next lower one holds at their end, and
    they do come to their end, for a divisor whose leading coefficient is not zero. -/
theorem steps_induction {I : Nat → Reduction → Prop} {count : Nat} (hlead : divisor.leading ≠ 0)
    (hstep : ∀ shift s, s.Fits divisor shift → I (shift + 1) s →
      I shift (s.stepped divisor shift))
    (h : I count s) (hfits : ∀ shift < count, s.Fits divisor shift) :
    ∃ s', (steps divisor count).run s = .ok () s' ∧ I 0 s' := by
  induction count generalizing s with
  | zero => exact ⟨s, rfl, h⟩
  | succ shift ih =>
    have hlast := hfits shift (Nat.lt_succ_self shift)
    rw [run_steps_succ, run_step_of_ne_zero hlast hlead]
    refine ih (hstep shift s hlast h) fun k hk => ?_
    exact (hfits k (Nat.lt_succ_of_lt hk)).mono le_rfl (capacity_stepped ..)

/-- By a divisor whose highest significant slot holds zero, a step passes over zero or faults. -/
theorem run_step_of_eq_zero {shift : Nat} (h : s.Fits divisor shift) (hlead : divisor.leading = 0) :
    (step divisor shift).run s =
      if s.reduced.slot (divisor.degree + shift) = 0 then
        .ok () s
      else
        .error (.faulted .zeroDivide)
          (s.reported (.reductionStep (divisor.degree + shift) s.reduced)) := by
  rw [run_step h]
  dsimp only
  by_cases hc : s.reduced.slot (divisor.degree + shift) = 0
  · rw [if_pos hc, if_pos hc]
  · have hdvd : ¬divisor.leading ∣ s.reduced.slot (divisor.degree + shift) := by
      rwa [hlead, zero_dvd_iff]
    rw [if_neg hc, if_neg hdvd, if_pos hlead, if_neg hc]

/-- The steps of a reduction are never refused: where they fail, they fault. -/
theorem faulted_of_run_steps {s' : Reduction} {count : Nat} {e : Failure}
    (hfits : ∀ shift < count, s.Fits divisor shift)
    (hrun : (steps divisor count).run s = .error e s') : e = .faulted .zeroDivide := by
  by_cases hlead : divisor.leading = 0
  · induction count with
    | zero => cases hrun
    | succ shift ih =>
      rw [run_steps_succ, run_step_of_eq_zero (hfits shift (Nat.lt_succ_self shift)) hlead] at hrun
      split_ifs at hrun
      · exact ih (fun k hk => hfits k (Nat.lt_succ_of_lt hk)) hrun
      · cases hrun
        rfl
  · -- By any other divisor, the steps come to their end.
    obtain ⟨s₁, hok, -⟩ := steps_induction (I := fun _ _ => True) hlead (fun _ _ _ _ => trivial)
      trivial hfits
    rw [hok] at hrun
    cases hrun

/-! ## The whole reduction -/

/-- Where the steps of a reduction start: with the dividend, and the multiplier one. -/
def started (s : Reduction) (dividend divisor : Buffer) : Reduction where
  reduced := s.reduced.copied dividend
  multiplier := 1
  trace := s.trace.push (.reductionStarted dividend divisor)

/-- Past the checks of a reduction, every step finds its slots. -/
theorem fits_started {dividend : Buffer} (hzero : divisor.isZero = false)
    (hdeg : divisor.degree ≤ dividend.degree) (hword : dividend.degree < degreeBound)
    (hr : dividend.degree < s.reduced.capacity) :
    ∀ shift < dividend.degree - divisor.degree + 1,
      (s.started dividend divisor).Fits divisor shift := by
  intro shift hshift
  refine ⟨hzero, by omega, ?_⟩
  change _ < (s.reduced.copied dividend).capacity
  rw [Buffer.capacity_copied]
  omega

theorem run_run (dividend divisor : Buffer) (s : Reduction) :
    (run dividend divisor).run s =
      if divisor.isZero then
        .error (.refused .divisionByZero) s
      else if dividend.degree < divisor.degree then
        .error (.refused (.divisorTooLong dividend.degree divisor.degree)) s
      else if s.reduced.capacity ≤ dividend.degree then
        .error (.refused (.noSlotFor dividend.degree s.reduced.capacity))
          { s.reported (.reductionStarted dividend divisor) with multiplier := 1 }
      else
        match (steps divisor (dividend.degree - divisor.degree + 1)).run
          (s.started dividend divisor) with
        | .ok _ s' => .ok s'.multiplier (s'.reported (.reductionDone s'.multiplier s'.reduced))
        | .error e s' => .error e s' := by
  by_cases hz : divisor.isZero
  · simp [run, hz]
  by_cases hd : dividend.degree < divisor.degree
  · simp [run, hz, hd]
  by_cases hr : s.reduced.capacity ≤ dividend.degree
  · simp [run, hz, hd, hr, run_onReduced, Buffer.run_copy, reported]
  · cases hs : (steps divisor (dividend.degree - divisor.degree + 1)).run
      (s.started dividend divisor) <;>
    · rw [started] at hs
      simp [run, hz, hd, hr, run_onReduced, Buffer.run_copy, reported, hs, -bind_pure_comp]

end Univariate.Reduction

namespace Univariate.Buffer

/-- A reduction into a fresh buffer is a reduction into a zero buffer of just the capacity that the
    degree asks for, if this is a machine word. -/
theorem run_reduce (dividend divisor : Buffer) (trace : Array Event) :
    (reduce dividend divisor).run trace =
      if dividend.degree + 1 < degreeBound then
        match (Reduction.run dividend divisor).run
          ⟨⟨1, .replicate (dividend.degree + 1) 0⟩, 1, trace⟩ with
        | .ok a s => .ok (a, s.reduced) s.trace
        | .error e s => .error e s.trace
      else
        .error (.faulted .degreeOverflow) trace := by
  split_ifs with hp
  · rw [reduce, ofDegreeBound_eq hp]
    rfl
  · rw [reduce, ofDegreeBound_eq_error hp]
    rfl

end Univariate.Buffer
