import Univariate.Elimination.LongDivision
import Univariate.Proofs.EditInvariance

/-!
# The steps of a long division

What each step of a long division does to the quotient and the remainder, and when it succeeds.

* `LongDivision.Fits` is what a step relies on: the divisor is not zero, and there are slots for
  what the step writes. Every step keeps the capacities, so that it then holds for the lower shifts
  too.
* A pseudo-division by a divisor whose leading coefficient is not zero in the ring succeeds at every
  step (`LongDivision.run_pseudoStep`), by a zero one at none (`LongDivision.run_pseudoStep_zero`).
* An exact division stops where the leading coefficient does not divide
  (`LongDivision.run_exactStep`).
* What holds along all steps is shown on one of them (`LongDivision.pseudoSteps_induction`,
  `LongDivision.exactSteps_induction`), and what a whole division keeps, on its start, its steps and
  its end (`LongDivision.Invariant.keeps_run`).
* `LongDivision.run_run` opens the whole division around its steps, and `Buffer.run_divide` a
  division into fresh buffers. With room in its buffers, a division passes its checks
  (`LongDivision.Room.run_eq`).
-/

namespace Univariate.LongDivision

variable {R : CoeffRing} {divisor : Buffer} {shift : Nat} {s : LongDivision}

/-- A step for the exponent of the divisor raised by `shift` finds its slots. -/
structure Fits (s : LongDivision) (divisor : Buffer) (shift : Nat) : Prop where
  divisor_ne_zero : divisor.isZero = false
  degree_lt_bound : divisor.degree + shift < degreeBound
  degree_lt_remainder : divisor.degree + shift < s.remainder.capacity
  shift_lt_quotient : shift < s.quotient.capacity

theorem Fits.mono (h : s.Fits divisor shift) {s' : LongDivision} {shift' : Nat}
    (hle : shift' ≤ shift) (hq : s'.quotient.capacity = s.quotient.capacity)
    (hr : s'.remainder.capacity = s.remainder.capacity) : s'.Fits divisor shift' where
  divisor_ne_zero := h.divisor_ne_zero
  degree_lt_bound := by
    have := h.degree_lt_bound
    omega
  degree_lt_remainder := by
    have := h.degree_lt_remainder
    omega
  shift_lt_quotient := by
    have := h.shift_lt_quotient
    omega

/-- With `factor * x ^ shift` times the divisor subtracted from the remainder, and `coefficient` put
    in the quotient. -/
def subtracted (s : LongDivision) (R : CoeffRing) (divisor : Buffer) (shift : Nat)
    (factor coefficient : Int) : LongDivision :=
  if R.isZero factor then s
  else
    { s with
      quotient := s.quotient.written shift coefficient
      remainder :=
        (s.remainder.subShifted R divisor ⟨shift, factor⟩).resize R (divisor.degree + shift) }

/-- With an event added. -/
def reported (s : LongDivision) (event : Event) : LongDivision :=
  { s with trace := s.trace.push event }

/-- With the event of the step that eliminates the leading exponent of the divisor raised by
    `shift`. -/
def announced (s : LongDivision) (divisor : Buffer) (shift : Nat) : LongDivision :=
  s.reported (.divisionStep (divisor.degree + shift) s.remainder s.quotient)

theorem Fits.announced (h : s.Fits divisor shift) :
    (s.announced divisor shift).Fits divisor shift :=
  h.mono le_rfl rfl rfl

@[simp] theorem run_report (event : LongDivision → Event) (s : LongDivision) :
    (report event).run s = .ok () (s.reported (event s)) :=
  rfl

theorem run_onQuotient (edit : Edit Unit) (s : LongDivision) :
    (onQuotient edit).run s =
      match edit.run s.quotient with
      | .ok a t => .ok a { s with quotient := t }
      | .error e t => .error e { s with quotient := t } := by
  rw [onQuotient, Action.run_onPart]
  cases edit.run s.quotient <;> rfl

theorem run_onRemainder (edit : Edit Unit) (s : LongDivision) :
    (onRemainder edit).run s =
      match edit.run s.remainder with
      | .ok a t => .ok a { s with remainder := t }
      | .error e t => .error e { s with remainder := t } := by
  rw [onRemainder, Action.run_onPart]
  cases edit.run s.remainder <;> rfl

theorem run_subtract (h : s.Fits divisor shift) (R : CoeffRing) (factor coefficient : Int) :
    (subtract R divisor shift factor coefficient).run s =
      .ok () (s.subtracted R divisor shift factor coefficient) := by
  cases hz : R.isZero factor with
  | true => simp [subtract, subtracted, hz]
  | false =>
    have hne := CoeffRing.ne_zero_of_isZero_eq_false hz
    have hsub : (Buffer.subBufferMultiple R divisor ⟨shift, factor⟩).run s.remainder = .ok ()
        ((s.remainder.subShifted R divisor ⟨shift, factor⟩).resize R (divisor.degree + shift)) := by
      simp [Buffer.run_subBufferMultiple, Term.isTrivial, hne, h.divisor_ne_zero, addDegrees,
        h.degree_lt_bound, Nat.not_le.2 h.degree_lt_remainder]
    simp [subtract, subtracted, hz, run_onRemainder, run_onQuotient, hsub,
      Buffer.run_write_of_lt h.shift_lt_quotient]

@[simp] theorem capacity_quotient_subtracted (s : LongDivision) (R : CoeffRing) (divisor : Buffer)
    (shift : Nat) (factor coefficient : Int) :
    (s.subtracted R divisor shift factor coefficient).quotient.capacity = s.quotient.capacity := by
  rw [subtracted]
  split
  · rfl
  · exact s.quotient.capacity_written ..

@[simp] theorem capacity_remainder_subtracted (s : LongDivision) (R : CoeffRing) (divisor : Buffer)
    (shift : Nat) (factor coefficient : Int) :
    (s.subtracted R divisor shift factor coefficient).remainder.capacity =
      s.remainder.capacity := by
  rw [subtracted]
  split
  · rfl
  · simp

/-! ## Pseudo-division -/

/-- With the remainder multiplied by the leading coefficient of the divisor. -/
def scaled (s : LongDivision) (R : CoeffRing) (divisor : Buffer) : LongDivision :=
  { s with remainder := (s.remainder.mapNonzero (R.mul · divisor.leading)).trim R }

/-- After the step of a pseudo-division. -/
def pseudoStepped (s : LongDivision) (R : CoeffRing) (divisor : Buffer) (shift : Nat) :
    LongDivision :=
  let c := s.remainder.slot (divisor.degree + shift)
  ((s.announced divisor shift).scaled R divisor).subtracted R divisor shift c
    (R.mul c (R.pow divisor.leading shift))

@[simp] theorem capacity_quotient_pseudoStepped (s : LongDivision) (R : CoeffRing)
    (divisor : Buffer) (shift : Nat) :
    (s.pseudoStepped R divisor shift).quotient.capacity = s.quotient.capacity :=
  capacity_quotient_subtracted ..

@[simp] theorem capacity_remainder_pseudoStepped (s : LongDivision) (R : CoeffRing)
    (divisor : Buffer) (shift : Nat) :
    (s.pseudoStepped R divisor shift).remainder.capacity = s.remainder.capacity := by
  rw [pseudoStepped, capacity_remainder_subtracted]
  simp [scaled, announced, reported]

theorem Fits.scaled (h : s.Fits divisor shift) (R : CoeffRing) :
    ((s.announced divisor shift).scaled R divisor).Fits divisor shift :=
  h.mono le_rfl rfl (by simp [LongDivision.scaled, LongDivision.announced, reported])

/-- The step of a pseudo-division succeeds when the leading coefficient is not zero in the ring. -/
theorem run_pseudoStep (h : s.Fits divisor shift) (hlead : R.isZero divisor.leading = false) :
    (pseudoStep R divisor shift).run s = .ok () (s.pseudoStepped R divisor shift) := by
  simp only [pseudoStep, reportStep, EStateM.run_bind, EStateM.run_get, run_report,
    run_onRemainder, Buffer.run_scale, hlead, Bool.false_eq_true, ↓reduceIte]
  exact run_subtract (h.scaled R) R _ _

/-- It fails, before it changes anything, when the leading coefficient is zero in the ring. -/
theorem run_pseudoStep_zero (hlead : R.isZero divisor.leading = true) :
    (pseudoStep R divisor shift).run s =
      .error (.refused .zeroScalar) (s.announced divisor shift) := by
  simp [pseudoStep, reportStep, run_onRemainder, Buffer.run_scale, hlead, announced]

/-- What the steps of a pseudo-division keep from each shift to the next lower one holds at their
    end, and they do come to their end. -/
theorem pseudoSteps_induction {I : Nat → LongDivision → Prop} {count : Nat}
    (hlead : R.isZero divisor.leading = false)
    (hstep : ∀ shift s, s.Fits divisor shift → I (shift + 1) s →
      I shift (s.pseudoStepped R divisor shift))
    (h : I count s) (hfits : ∀ shift < count, s.Fits divisor shift) :
    ∃ s', (steps R .pseudo divisor count).run s = .ok () s' ∧ I 0 s' := by
  induction count generalizing s with
  | zero => exact ⟨s, rfl, h⟩
  | succ shift ih =>
    have hlast := hfits shift (Nat.lt_succ_self shift)
    rw [run_steps_succ, step, run_pseudoStep hlast hlead]
    refine ih (hstep shift s hlast h) fun k hk => ?_
    exact (hfits k (Nat.lt_succ_of_lt hk)).mono le_rfl (capacity_quotient_pseudoStepped ..)
      (capacity_remainder_pseudoStepped ..)

/-! ## Exact division -/

/-- The step of an exact division passes over a coefficient that is zero in the ring, and stops
    where the leading coefficient of the divisor does not divide. -/
theorem run_exactStep (h : s.Fits divisor shift) (R : CoeffRing) :
    (exactStep R divisor shift).run s =
      let c := s.remainder.slot (divisor.degree + shift)
      if R.isZero c then
        .ok () s
      else if R.divides divisor.leading c then
        match R.exactQuotient c divisor.leading with
        | .ok factor =>
          .ok () ((s.announced divisor shift).subtracted R divisor shift factor factor)
        | .error e => .error e (s.announced divisor shift)
      else
        .error (.refused (.inexactDivision c divisor.leading)) (s.announced divisor shift) := by
  dsimp only
  split_ifs with hz hd
  · simp [exactStep, hz]
  · cases hq : R.exactQuotient (s.remainder.slot (divisor.degree + shift)) divisor.leading with
    | error e => simp [exactStep, reportStep, hz, hd, hq, announced]
    | ok factor =>
      simp only [exactStep, Bool.not_eq_eq_eq_not, Bool.not_true, reportStep, EStateM.run_bind,
        EStateM.run_get, hz, ↓reduceIte, hd, Bool.true_eq_false, hq, run_report,
        Action.run_give_ok]
      exact run_subtract h.announced R _ _
  · simp [exactStep, reportStep, hz, hd, announced]

/-- A step of an exact division that fails has only announced itself. -/
theorem eq_announced_of_run_exactStep (h : s.Fits divisor shift) {e : Failure} {s' : LongDivision}
    (hrun : (exactStep R divisor shift).run s = .error e s') : s' = s.announced divisor shift := by
  rw [run_exactStep h] at hrun
  dsimp only at hrun
  split_ifs at hrun
  · split at hrun <;> cases hrun
    rfl
  · cases hrun
    rfl

/-- What the steps of an exact division keep from each shift to the next lower one holds at their
    end, or where they stop. -/
theorem exactSteps_induction {I : Nat → LongDivision → Prop} {count : Nat}
    (hpass : ∀ shift s, R.isZero (s.remainder.slot (divisor.degree + shift)) = true →
      I (shift + 1) s → I shift s)
    (hsubtract : ∀ shift s factor, s.Fits divisor shift →
      R.isZero (s.remainder.slot (divisor.degree + shift)) = false →
      R.exactQuotient (s.remainder.slot (divisor.degree + shift)) divisor.leading = .ok factor →
      I (shift + 1) s →
      I shift ((s.announced divisor shift).subtracted R divisor shift factor factor))
    (h : I count s) (hfits : ∀ shift < count, s.Fits divisor shift) :
    match (steps R .exact divisor count).run s with
    | .ok _ s' => I 0 s'
    | .error e s' => ∃ shift < count, ∃ s₀, s₀.Fits divisor shift ∧ I (shift + 1) s₀ ∧
        (exactStep R divisor shift).run s₀ = .error e s' := by
  -- The shifts come from the highest one down, so that the last of them is done first.
  induction count generalizing s with
  | zero => exact h
  | succ shift ih =>
    have hlast := hfits shift (Nat.lt_succ_self shift)
    rw [run_steps_succ, step]
    cases hstep : (exactStep R divisor shift).run s with
    | error e s' => exact ⟨shift, Nat.lt_succ_self shift, s, hlast, h, hstep⟩
    | ok a s₁ =>
      -- A step that succeeds passes over its coefficient or eliminates it.
      have hnext : I shift s₁ ∧ ∀ k < shift, s₁.Fits divisor k := by
        rw [run_exactStep hlast] at hstep
        dsimp only at hstep
        split_ifs at hstep with hz hdvd
        · cases hstep
          exact ⟨hpass shift s hz h, fun k hk => hfits k (Nat.lt_succ_of_lt hk)⟩
        · split at hstep
          · next factor hq =>
            cases hstep
            refine ⟨hsubtract shift s factor hlast (by simpa using hz) hq h, fun k hk => ?_⟩
            exact (hfits k (Nat.lt_succ_of_lt hk)).mono le_rfl (capacity_quotient_subtracted ..)
              (capacity_remainder_subtracted ..)
          · cases hstep
      have hrest := ih hnext.1 hnext.2
      dsimp only
      cases hrun : (steps R .exact divisor shift).run s₁ with
      | ok a s' =>
        rw [hrun] at hrest
        exact hrest
      | error e s' =>
        rw [hrun] at hrest
        obtain ⟨k, hk, s₀, hs₀⟩ := hrest
        exact ⟨k, Nat.lt_succ_of_lt hk, s₀, hs₀⟩

/-! ## The whole division -/

/-- Where the steps of a division start: with the dividend in the remainder, and no quotient. -/
def started (s : LongDivision) (R : CoeffRing) (kind : DivisionKind) (dividend divisor : Buffer) :
    LongDivision where
  quotient := s.quotient.clear
  remainder := s.remainder.copied dividend
  trace := s.trace.push (.divisionStarted R kind dividend divisor)

/-- What the end of a division makes of what its steps have left. -/
def finished (s : LongDivision) (R : CoeffRing) : LongDivision where
  quotient := s.quotient.trim R
  remainder := s.remainder
  trace := s.trace.push (.divisionDone (s.quotient.trim R) s.remainder)

/-- Past the checks of a division, every step finds its slots. -/
theorem fits_started {kind : DivisionKind} {dividend : Buffer} (hzero : divisor.isZero = false)
    (hdeg : divisor.degree ≤ dividend.degree) (hword : dividend.degree < degreeBound)
    (hq : dividend.degree - divisor.degree < s.quotient.capacity)
    (hr : dividend.degree < s.remainder.capacity) :
    ∀ shift < dividend.degree - divisor.degree + 1,
      (s.started R kind dividend divisor).Fits divisor shift := by
  intro shift hshift
  refine ⟨hzero, by omega, ?_, ?_⟩
  · change _ < (s.remainder.copied dividend).capacity
    rw [Buffer.capacity_copied]
    omega
  · change _ < s.quotient.clear.capacity
    rw [Buffer.capacity_clear]
    omega

theorem run_run (R : CoeffRing) (kind : DivisionKind) (dividend divisor : Buffer)
    (s : LongDivision) :
    (run R kind dividend divisor).run s =
      if divisor.isZero then
        .error (.refused .divisionByZero) s
      else if dividend.degree < divisor.degree then
        .error (.refused (.divisorTooLong dividend.degree divisor.degree)) s
      else if s.quotient.capacity ≤ dividend.degree - divisor.degree then
        .error (.refused (.noSlotFor (dividend.degree - divisor.degree) s.quotient.capacity)) s
      else if s.remainder.capacity ≤ dividend.degree then
        .error (.refused (.noSlotFor dividend.degree s.remainder.capacity))
          (s.reported (.divisionStarted R kind dividend divisor))
      else
        match (steps R kind divisor (dividend.degree - divisor.degree + 1)).run
          (s.started R kind dividend divisor) with
        | .ok _ s' => .ok () (s'.finished R)
        | .error e s' => .error e s' := by
  by_cases hz : divisor.isZero
  · simp [run, hz]
  by_cases hd : dividend.degree < divisor.degree
  · simp [run, hz, hd]
  by_cases hq : s.quotient.capacity ≤ dividend.degree - divisor.degree
  · simp [run, hz, hd, hq, run_onQuotient, Buffer.run_requireSlot]
  by_cases hr : s.remainder.capacity ≤ dividend.degree
  · simp [run, hz, hd, hq, hr, run_onQuotient, run_onRemainder, Buffer.run_requireSlot,
      Buffer.run_copy, reported]
  · cases hs : (steps R kind divisor (dividend.degree - divisor.degree + 1)).run
      (s.started R kind dividend divisor) <;>
    · rw [started] at hs
      simp [run, hz, hd, hq, hr, run_onQuotient, run_onRemainder, Buffer.run_requireSlot,
        Buffer.run_copy, reported, finished, hs]

/-- The buffers of a division have slots for what it writes. -/
structure Room (s : LongDivision) (dividend divisor : Buffer) : Prop where
  quotient : s.quotient.WellFormed
  degree_lt_quotient : dividend.degree - divisor.degree < s.quotient.capacity
  remainder : s.remainder.WellFormed
  degree_lt_remainder : dividend.degree < s.remainder.capacity

/-- Past its checks, a division is its steps. -/
theorem Room.run_eq {dividend : Buffer} (h : s.Room dividend divisor)
    (hzero : divisor.isZero = false) (hdeg : divisor.degree ≤ dividend.degree) (R : CoeffRing)
    (kind : DivisionKind) :
    (run R kind dividend divisor).run s =
      match (steps R kind divisor (dividend.degree - divisor.degree + 1)).run
        (s.started R kind dividend divisor) with
      | .ok _ s' => .ok () (s'.finished R)
      | .error e s' => .error e s' := by
  rw [run_run, hzero, if_neg Bool.false_ne_true, if_neg (not_lt.2 hdeg),
    if_neg (not_le.2 h.degree_lt_quotient), if_neg (not_le.2 h.degree_lt_remainder)]

/-- Every step finds its slots. -/
theorem Room.fits {kind : DivisionKind} {dividend : Buffer} (h : s.Room dividend divisor)
    (hzero : divisor.isZero = false) (hdeg : divisor.degree ≤ dividend.degree)
    (hword : dividend.degree < degreeBound) :
    ∀ shift < dividend.degree - divisor.degree + 1,
      (s.started R kind dividend divisor).Fits divisor shift :=
  fits_started hzero hdeg hword h.degree_lt_quotient h.degree_lt_remainder

/-- An invariant `I` of the states of a division, with what its steps keep of it. Between the steps
    of a pseudo-division this may be the weaker `J`, if the end restores the invariant. -/
structure Invariant (R : CoeffRing) (kind : DivisionKind) (dividend divisor : Buffer)
    (I J : LongDivision → Prop) : Prop where
  reported : ∀ s event, I s → I (s.reported event)
  started : ∀ s : LongDivision, dividend.degree < s.remainder.capacity → I s →
    I (s.started R kind dividend divisor)
  exactStepped : ∀ (s : LongDivision) (shift : Nat) (factor : Int), s.Fits divisor shift →
    R.exactQuotient (s.remainder.slot (divisor.degree + shift)) divisor.leading = .ok factor →
    I s → I ((s.announced divisor shift).subtracted R divisor shift factor factor)
  weaken : ∀ s, I s → J s
  pseudoStepped : ∀ (s : LongDivision) (shift : Nat), s.Fits divisor shift → J s →
    J (s.pseudoStepped R divisor shift)
  finished : ∀ s, J s → I (s.finished R)

/-- A division keeps its invariants, however it ends. -/
theorem Invariant.keeps_run {I J : LongDivision → Prop} {kind : DivisionKind} {dividend : Buffer}
    (h : Invariant R kind dividend divisor I J) (hword : dividend.degree < degreeBound) :
    (run R kind dividend divisor).Keeps I := by
  intro s hs
  rw [Action.leaves, run_run]
  split_ifs with hzero hdeg hq hr
  · exact hs
  · exact hs
  · exact hs
  · exact h.reported s _ hs
  · have hfits : ∀ shift < dividend.degree - divisor.degree + 1,
        (s.started R kind dividend divisor).Fits divisor shift :=
      fits_started (by simpa using hzero) (not_lt.1 hdeg) hword (not_le.1 hq) (not_le.1 hr)
    have hstart := h.started s (not_le.1 hr) hs
    cases kind with
    | exact =>
      have hsteps := exactSteps_induction (R := R) (I := fun _ s => I s) (fun _ _ _ hs => hs)
        (fun shift s factor hfits _ hq hs => h.exactStepped s shift factor hfits hq hs) hstart hfits
      split
      · next s' hrun =>
        rw [hrun] at hsteps
        exact h.finished s' (h.weaken s' hsteps)
      · next e s' hrun =>
        rw [hrun] at hsteps
        -- The step that stopped has changed nothing but the trace.
        obtain ⟨shift, _, s₀, hs₀, hI, hstep⟩ := hsteps
        rw [eq_announced_of_run_exactStep hs₀ hstep]
        exact h.reported s₀ _ hI
    | pseudo =>
      cases hlead : R.isZero divisor.leading with
      | true =>
        -- The first step fails before it changes anything.
        rw [run_steps_succ, step, run_pseudoStep_zero hlead]
        exact h.reported _ _ hstart
      | false =>
        obtain ⟨s', hrun, hs'⟩ := pseudoSteps_induction (I := fun _ s => J s) hlead
          (fun shift s hfits hs => h.pseudoStepped s shift hfits hs) (h.weaken _ hstart) hfits
        rw [hrun]
        exact h.finished s' hs'

end Univariate.LongDivision

namespace Univariate.Buffer

/-- A division into fresh buffers is a division into zero buffers of just the capacities that the
    degrees ask for, if these are machine words. -/
theorem run_divide (R : CoeffRing) (kind : DivisionKind) (dividend divisor : Buffer)
    (trace : Array Event) :
    (divide R kind dividend divisor).run trace =
      if dividend.degree + 1 < degreeBound then
        match (LongDivision.run R kind dividend divisor).run
          ⟨⟨1, .replicate (dividend.degree - divisor.degree + 1) 0⟩,
            ⟨1, .replicate (dividend.degree + 1) 0⟩, trace⟩ with
        | .ok _ s => .ok (s.quotient, s.remainder) s.trace
        | .error e s => .error e s.trace
      else
        .error (.faulted .degreeOverflow) trace := by
  split_ifs with hp
  · rw [divide, ofDegreeBound_eq hp, ofDegreeBound_eq (show _ - _ + 1 < degreeBound by omega)]
    rfl
  · rw [divide, ofDegreeBound_eq_error hp]
    by_cases hq : dividend.degree - divisor.degree + 1 < degreeBound
    · rw [ofDegreeBound_eq hq]
      rfl
    · rw [ofDegreeBound_eq_error hq]
      rfl

end Univariate.Buffer
