import Univariate.Proofs.InexactDivision
import Univariate.Proofs.ReductionIdentity

/-!
# What the events of an elimination show

An elimination announces each exponent before it eliminates it, with the buffer that it is about to
subtract from. In an exact division and in a reduction the exponents announced descend, and each is
the degree of the buffer shown: all that an elimination leaves is below its exponent, and trimming
passes over whatever has been cancelled along with it. A pseudo-division announces every exponent,
also one where there is nothing to eliminate.

* `Descends` is what the eliminations of a trace (`eliminations`) have in common.
* `LongDivision.ExactTrace`, `LongDivision.PseudoTrace` and `Reduction.StepTrace` are the invariants
  of the steps, next to those of the identities. That of exact divisions compares the exponents with
  those that have come into the quotient.
* `eliminations_show` puts the three eliminations together.
-/

namespace Univariate

/-! ## Eliminations in a trace -/

/-- The exponent whose elimination an event announces, with the buffer shown. -/
def Event.elimination? : Event → Option (Nat × Buffer)
  | divisionStep k remainder _ => some (k, remainder)
  | reductionStep k reduced => some (k, reduced)
  | _ => none

/-- The eliminations that are announced. -/
def eliminations (events : List Event) : List (Nat × Buffer) :=
  events.filterMap Event.elimination?

theorem eliminations_concat (events : List Event) (event : Event) :
    eliminations (events ++ [event]) = eliminations events ++ event.elimination?.toList := by
  rw [eliminations, List.filterMap_append, eliminations]
  cases event <;> rfl

/-- The eliminations go down, no further than to the exponent `d`, and show buffers of the degrees
    that they eliminate. -/
structure Descends (d : Nat) (steps : List (Nat × Buffer)) : Prop where
  le : ∀ a ∈ steps, d ≤ a.1
  descending : steps.Pairwise fun a b => b.1 < a.1
  degree_eq : ∀ a ∈ steps, a.2.degree = a.1

namespace Descends

variable {d k : Nat} {steps : List (Nat × Buffer)}

theorem nil : Descends d [] where
  le := List.forall_mem_nil _
  descending := .nil
  degree_eq := List.forall_mem_nil _

theorem mono (h : Descends k steps) (hle : d ≤ k) : Descends d steps where
  le a ha := hle.trans (h.le a ha)
  descending := h.descending
  degree_eq := h.degree_eq

theorem concat (h : Descends (k + 1) steps) {t : Buffer} (ht : t.degree = k) :
    Descends k (steps ++ [(k, t)]) where
  le := List.forall_mem_append.2 ⟨(h.mono k.le_succ).le, List.forall_mem_singleton.2 le_rfl⟩
  descending := List.pairwise_append.2 ⟨h.descending, List.pairwise_singleton _ _,
    fun a ha => List.forall_mem_singleton.2 (h.le a ha)⟩
  degree_eq := List.forall_mem_append.2 ⟨h.degree_eq, List.forall_mem_singleton.2 ht⟩

end Descends

/-- The trace goes on from `start` with `events`, none of which ends a division. -/
structure Continues (start : Array Event) (events : List Event) (trace : Array Event) : Prop where
  trace_eq : trace.toList = start.toList ++ events
  not_done : ∀ quotient remainder, .divisionDone quotient remainder ∉ events

theorem Continues.push {start trace : Array Event} {events : List Event}
    (h : Continues start events trace) {event : Event}
    (hevent : ∀ quotient remainder, .divisionDone quotient remainder ≠ event) :
    Continues start (events ++ [event]) (trace.push event) where
  trace_eq := by rw [Array.toList_push, h.trace_eq, List.append_assoc]
  not_done quotient remainder hmem := by
    rcases List.mem_append.1 hmem with hmem | hmem
    · exact h.not_done _ _ hmem
    · exact hevent _ _ (List.mem_singleton.1 hmem)

theorem Continues.start (trace : Array Event) {event : Event}
    (hevent : ∀ quotient remainder, .divisionDone quotient remainder ≠ event) :
    Continues trace [event] (trace.push event) :=
  Continues.push ⟨(List.append_nil _).symm, fun _ _ => List.not_mem_nil⟩ hevent

namespace LongDivision

variable {R : CoeffRing} {dividend divisor : Buffer} {shift total : Nat} {start : Array Event}
  {events : List Event} {s : LongDivision}

/-! ## Exact division -/

/-- What the steps of an exact division for the shifts from `count` on have reported, next to what
    they have established: descending eliminations, of the exponents that have come into the
    quotient. -/
structure ExactTrace (R : CoeffRing) (dividend divisor : Buffer) (start : Array Event)
    (count : Nat) (events : List Event) (s : LongDivision) : Prop
    extends Partial R dividend divisor 1 1 count s where
  continues : Continues start events s.trace
  descends : Descends (divisor.degree + count) (eliminations events)
  slot_ne_zero_iff : ∀ i, s.quotient.slot i ≠ 0 ↔
    divisor.degree + i ∈ (eliminations events).map Prod.fst

theorem ExactTrace.started (hp : dividend.Canonical R) (hdeg : divisor.degree ≤ dividend.degree)
    (hroom : s.Room dividend divisor) :
    ExactTrace R dividend divisor s.trace (dividend.degree - divisor.degree + 1)
      [.divisionStarted R .exact dividend divisor] (s.started R .exact dividend divisor) where
  toPartial := .started .exact 1 hp hdeg hroom.quotient hroom.remainder hroom.degree_lt_remainder
  continues := .start _ (by simp)
  descends := .nil
  slot_ne_zero_iff i :=
    iff_of_false (fun hi => hi (hroom.quotient.slot_clear_eq_zero i)) List.not_mem_nil

theorem ExactTrace.passed (h : ExactTrace R dividend divisor start (shift + 1) events s)
    (hz : R.isZero (s.remainder.slot (divisor.degree + shift)) = true) :
    ExactTrace R dividend divisor start shift events s where
  toPartial := h.toPartial.passed hz
  continues := h.continues
  descends := h.descends.mono (Nat.le_succ _)
  slot_ne_zero_iff := h.slot_ne_zero_iff

/-- What is eliminated is the leading coefficient of the buffer shown, and its exponent comes into
    the quotient: the factor is not zero, since the coefficient is not. -/
theorem ExactTrace.exactStepped (h : ExactTrace R dividend divisor start (shift + 1) events s)
    (hd : divisor.WellFormed) (hfits : s.Fits divisor shift) {factor : Int}
    (hc : R.isZero (s.remainder.slot (divisor.degree + shift)) = false)
    (hq : R.exactQuotient (s.remainder.slot (divisor.degree + shift)) divisor.leading =
      .ok factor) :
    ExactTrace R dividend divisor start shift
      (events ++ [.divisionStep (divisor.degree + shift) s.remainder s.quotient])
      ((s.announced divisor shift).subtracted R divisor shift factor factor) := by
  have hfactor : R.isZero factor = false := by
    rw [CoeffRing.isZero_eq_false_iff] at hc ⊢
    exact fun hfactor => hc (by rw [← (CoeffRing.exactQuotient_mul hq).2, hfactor, zero_mul])
  have hpartial := h.toPartial.exactStepped hd hfits hq
  rw [LongDivision.subtracted, if_neg (hfactor ▸ Bool.false_ne_true)] at hpartial ⊢
  refine ⟨hpartial, h.continues.push (by simp), ?_, fun i => ?_⟩
  · rw [eliminations_concat]
    exact h.descends.concat (h.degree_remainder (CoeffRing.ne_zero_of_isZero_eq_false hc))
  · change (s.quotient.written shift factor).slot i ≠ 0 ↔ _
    rw [eliminations_concat, List.map_append, List.mem_append, ← h.slot_ne_zero_iff,
      Buffer.slot_written]
    split_ifs with hi
    · obtain rfl : shift = i := hi.1
      exact iff_of_true (CoeffRing.ne_zero_of_isZero_eq_false hfactor)
        (.inr (List.mem_singleton_self _))
    · have hne : divisor.degree + i ≠ divisor.degree + shift := fun heq =>
        hi ⟨by omega, by have := hfits.shift_lt_quotient; omega⟩
      exact (or_iff_left fun hmem => hne (List.mem_singleton.1 hmem)).symm

/-- An exact division comes to its end, or stops at the leading coefficient of the remainder, and
    has reported what has come into the quotient. The end is reported as well, but no stop. -/
theorem run_exact_trace (hp : dividend.Canonical R) (hd : divisor.Canonical R)
    (hzero : divisor.isZero = false) (hdeg : divisor.degree ≤ dividend.degree)
    (hword : dividend.degree < degreeBound) (hroom : s.Room dividend divisor) :
    ∃ events s', (∀ quotient remainder, .divisionDone quotient remainder ∉ events) ∧
      Descends divisor.degree (eliminations events) ∧
      (∀ i, s'.quotient.slot i ≠ 0 ↔ divisor.degree + i ∈ (eliminations events).map Prod.fst) ∧
      ((run R .exact dividend divisor).run s = .ok () s' ∧
          s'.trace.toList = s.trace.toList ++ events ++
            [.divisionDone s'.quotient s'.remainder] ∨
        ∃ c k, (run R .exact dividend divisor).run s =
            .error (.refused (.inexactDivision c divisor.leading)) s' ∧
          s'.trace.toList = s.trace.toList ++ events ++
            [.divisionStep k s'.remainder s'.quotient] ∧
          Descends divisor.degree (eliminations events ++ [(k, s'.remainder)])) := by
  have hsteps := exactSteps_induction
    (I := fun count s' => ∃ events, ExactTrace R dividend divisor s.trace count events s')
    (fun _ _ hz ⟨_, hs⟩ => ⟨_, hs.passed hz⟩)
    (fun _ _ _ hfits hc hq ⟨_, hs⟩ => ⟨_, hs.exactStepped hd.toWellFormed hfits hc hq⟩)
    ⟨_, .started hp hdeg hroom⟩ (hroom.fits hzero hdeg hword)
  rw [hroom.run_eq hzero hdeg]
  cases hrun : (steps R .exact divisor (dividend.degree - divisor.degree + 1)).run
    (s.started R .exact dividend divisor) with
  | ok a s₁ =>
    rw [hrun] at hsteps
    obtain ⟨events, hs₁⟩ := hsteps
    refine ⟨events, s₁.finished R, hs₁.continues.not_done, hs₁.descends, fun i => ?_,
      .inl ⟨rfl, ?_⟩⟩
    · rw [← hs₁.slot_ne_zero_iff]
      exact (Buffer.slot_trim_of_contains hs₁.contains_quotient i).congr_left.not
    · exact Array.toList_push.trans (congrArg (· ++ _) hs₁.continues.trace_eq)
  | error e s₁ =>
    rw [hrun] at hsteps
    obtain ⟨shift, -, s₀, hfits, ⟨events, hs₀⟩, hstep⟩ := hsteps
    obtain ⟨rfl, hdvd⟩ := refused_of_run_exactStep hfits hstep
    obtain rfl := eq_announced_of_run_exactStep hfits hstep
    have hne : s₀.remainder.slot (divisor.degree + shift) ≠ 0 := fun hc => by
      rw [hc, CoeffRing.divides_zero (hd.isZero_leading hzero)] at hdvd
      cases hdvd
    refine ⟨events, s₀.announced divisor shift, hs₀.continues.not_done, hs₀.descends.mono (by omega),
      hs₀.slot_ne_zero_iff, .inr ⟨_, divisor.degree + shift, rfl, ?_, ?_⟩⟩
    · exact Array.toList_push.trans (congrArg (· ++ _) hs₀.continues.trace_eq)
    · exact (hs₀.descends.concat (hs₀.degree_remainder hne)).mono (Nat.le_add_right _ _)

/-! ## Pseudo-division -/

/-- What the steps of a pseudo-division for the shifts from `count` to below `total` have reported,
    next to what they have established: all their exponents from the highest one down. -/
structure PseudoTrace (R : CoeffRing) (dividend divisor : Buffer) (start : Array Event)
    (total count : Nat) (events : List Event) (s : LongDivision) : Prop
    extends Partial R dividend divisor ((divisor.leading : R.Element) ^ total)
      ((divisor.leading : R.Element) ^ count) count s where
  continues : Continues start events s.trace
  exponents_eq : (eliminations events).map Prod.fst ++ (List.range' divisor.degree count).reverse =
    (List.range' divisor.degree total).reverse
  degree_le : ∀ a ∈ eliminations events, a.2.degree ≤ a.1

theorem PseudoTrace.started (hp : dividend.Canonical R) (hdeg : divisor.degree ≤ dividend.degree)
    (hroom : s.Room dividend divisor) :
    PseudoTrace R dividend divisor s.trace (dividend.degree - divisor.degree + 1)
      (dividend.degree - divisor.degree + 1) [.divisionStarted R .pseudo dividend divisor]
      (s.started R .pseudo dividend divisor) where
  toPartial := .started .pseudo _ hp hdeg hroom.quotient hroom.remainder hroom.degree_lt_remainder
  continues := .start _ (by simp)
  exponents_eq := rfl
  degree_le := List.forall_mem_nil _

/-- Past the exponent announced, the buffer shown has nothing. -/
theorem PseudoTrace.pseudoStepped
    (h : PseudoTrace R dividend divisor start total (shift + 1) events s)
    (hd : divisor.WellFormed) (hfits : s.Fits divisor shift) :
    PseudoTrace R dividend divisor start total shift
      (events ++ [.divisionStep (divisor.degree + shift) s.remainder s.quotient])
      (s.pseudoStepped R divisor shift) where
  toPartial := h.toPartial.pseudoStepped hd hfits
  continues := by
    have htrace : (s.pseudoStepped R divisor shift).trace =
        s.trace.push (.divisionStep (divisor.degree + shift) s.remainder s.quotient) := by
      rw [LongDivision.pseudoStepped, subtracted]
      split_ifs <;> rfl
    rw [htrace]
    exact h.continues.push (by simp)
  exponents_eq := by
    have hexponents := h.exponents_eq
    rw [List.range'_1_concat, List.reverse_concat] at hexponents
    rw [eliminations_concat, List.map_append, List.append_assoc]
    exact hexponents
  degree_le := by
    rw [eliminations_concat]
    exact List.forall_mem_append.2 ⟨h.degree_le, List.forall_mem_singleton.2
      (h.remainder.degree_le fun _ hi => h.remainder_eq_zero _ (Nat.succ_le_of_lt hi))⟩

/-- A pseudo-division comes to its end, and has announced all exponents from the degree of the
    dividend down to that of the divisor. -/
theorem run_pseudo_trace (hp : dividend.Canonical R) (hd : divisor.Canonical R)
    (hzero : divisor.isZero = false) (hdeg : divisor.degree ≤ dividend.degree)
    (hword : dividend.degree < degreeBound) (hroom : s.Room dividend divisor) :
    ∃ events s', (run R .pseudo dividend divisor).run s = .ok () s' ∧
      s'.trace.toList = s.trace.toList ++ events ++ [.divisionDone s'.quotient s'.remainder] ∧
      (eliminations events).map Prod.fst =
        (List.range' divisor.degree (dividend.degree - divisor.degree + 1)).reverse ∧
      ∀ a ∈ eliminations events, a.2.degree ≤ a.1 := by
  obtain ⟨s₁, hrun, events, hs₁⟩ := pseudoSteps_induction
    (I := fun count s' => ∃ events, PseudoTrace R dividend divisor s.trace
      (dividend.degree - divisor.degree + 1) count events s')
    (hd.isZero_leading hzero)
    (fun _ _ hfits ⟨_, hs⟩ => ⟨_, hs.pseudoStepped hd.toWellFormed hfits⟩)
    ⟨_, .started hp hdeg hroom⟩ (hroom.fits hzero hdeg hword)
  refine ⟨events, s₁.finished R, by rw [hroom.run_eq hzero hdeg, hrun], ?_, ?_, hs₁.degree_le⟩
  · exact Array.toList_push.trans (congrArg (· ++ _) hs₁.continues.trace_eq)
  · exact (List.append_nil _).symm.trans hs₁.exponents_eq

end LongDivision

/-! ## Reduction -/

namespace Reduction

variable {dividend divisor : Buffer} {shift total : Nat} {start : Array Event}
  {events : List Event} {s : Reduction}

/-- What the steps of a reduction for the shifts from `count` on have reported, next to what they
    have established: descending eliminations. -/
structure StepTrace (dividend divisor : Buffer) (start : Array Event) (total count : Nat)
    (events : List Event) (s : Reduction) : Prop
    extends Partial dividend divisor total count s where
  continues : Continues start events s.trace
  descends : Descends (divisor.degree + count) (eliminations events)

theorem StepTrace.started (hp : dividend.Canonical .integers)
    (hdeg : divisor.degree ≤ dividend.degree) (hr : s.reduced.WellFormed)
    (hlt : dividend.degree < s.reduced.capacity) :
    StepTrace dividend divisor s.trace (dividend.degree - divisor.degree + 1)
      (dividend.degree - divisor.degree + 1) [.reductionStarted dividend divisor]
      (s.started dividend divisor) where
  toPartial := .started hp hdeg hr hlt
  continues := .start _ (by simp)
  descends := .nil

/-- The coefficient to be eliminated is the leading one, unless it is zero. -/
theorem StepTrace.descends_announced
    (h : StepTrace dividend divisor start total (shift + 1) events s)
    (hc : s.reduced.slot (divisor.degree + shift) ≠ 0) :
    Descends (divisor.degree + shift)
      (eliminations (events ++ [.reductionStep (divisor.degree + shift) s.reduced])) := by
  rw [eliminations_concat]
  exact h.descends.concat
    (h.reduced.degree_eq (fun _ hi => h.reduced_eq_zero _ (Nat.succ_le_of_lt hi)) hc)

/-- A step that eliminates something announces its exponent, and then perhaps that it scales. -/
theorem StepTrace.stepped (h : StepTrace dividend divisor start total (shift + 1) events s)
    (hd : divisor.Canonical .integers) (hfits : s.Fits divisor shift) :
    ∃ events', StepTrace dividend divisor start total shift events' (s.stepped divisor shift) := by
  have hpartial := h.toPartial.stepped hd hfits
  have hannounced : Continues start
      (events ++ [.reductionStep (divisor.degree + shift) s.reduced])
      (s.reported (.reductionStep (divisor.degree + shift) s.reduced)).trace :=
    h.continues.push (by simp)
  rw [Reduction.stepped] at hpartial ⊢
  generalize hcoeff : s.reduced.slot (divisor.degree + shift) = c at hpartial ⊢
  split_ifs at hpartial ⊢ with hc hdvd
  · exact ⟨events, hpartial, h.continues, h.descends.mono (Nat.le_succ _)⟩
  · exact ⟨_, hpartial, hannounced, h.descends_announced (hcoeff ▸ hc)⟩
  · refine ⟨_ ++ [.reductionScaled (Int.lcm c divisor.leading) (Int.lcm c divisor.leading / c)
      (Int.lcm c divisor.leading / divisor.leading)], hpartial, hannounced.push (by simp), ?_⟩
    rw [eliminations_concat]
    exact (List.append_nil _).symm ▸ h.descends_announced (hcoeff ▸ hc)

/-- A reduction comes to its end, and has announced descending exponents. -/
theorem run_trace (hp : dividend.Canonical .integers) (hd : divisor.Canonical .integers)
    (hzero : divisor.isZero = false) (hdeg : divisor.degree ≤ dividend.degree)
    (hword : dividend.degree < degreeBound) (hr : s.reduced.WellFormed)
    (hlt : dividend.degree < s.reduced.capacity) :
    ∃ events a s', (run dividend divisor).run s = .ok a s' ∧
      s'.trace.toList = s.trace.toList ++ events ++ [.reductionDone a s'.reduced] ∧
      Descends divisor.degree (eliminations events) := by
  obtain ⟨s₁, hsteps, events, hs₁⟩ := steps_induction
    (I := fun count s' => ∃ events, StepTrace dividend divisor s.trace
      (dividend.degree - divisor.degree + 1) count events s')
    (hd.leading_ne_zero hzero) (fun _ _ hfits ⟨_, hs⟩ => hs.stepped hd hfits)
    ⟨_, .started hp hdeg hr hlt⟩ (fits_started hzero hdeg hword hlt)
  refine ⟨events, s₁.multiplier, s₁.reported (.reductionDone s₁.multiplier s₁.reduced), ?_, ?_,
    hs₁.descends⟩
  · rw [run_run, hzero, if_neg Bool.false_ne_true, if_neg (not_lt.2 hdeg), if_neg (not_le.2 hlt),
      hsteps]
  · exact Array.toList_push.trans (congrArg (· ++ _) hs₁.continues.trace_eq)

end Reduction

/-! ## All eliminations -/

section Eliminations

variable {R : CoeffRing} {dividend divisor : Buffer}

/-- What the three eliminations show as they go, whatever buffers they work in.

    A pseudo-division announces each exponent from the degree of the dividend down to that of the
    divisor, with a remainder of no higher degree. An exact division announces descending exponents,
    with remainders of just those degrees; they are the exponents of the quotient raised by the
    degree of the divisor, and where the division is refused, one more is announced that has no
    coefficient in the quotient. A reduction announces descending exponents as well, with
    polynomials of just those degrees. -/
theorem eliminations_show (hp : dividend.Canonical R) (hd : divisor.Canonical R)
    (hzero : divisor.isZero = false) (hdeg : divisor.degree ≤ dividend.degree)
    (hword : dividend.degree < degreeBound) :
    (∀ s : LongDivision, s.Room dividend divisor →
      (∃ events s', (LongDivision.run R .pseudo dividend divisor).run s = .ok () s' ∧
        s'.trace.toList = s.trace.toList ++ events ++ [.divisionDone s'.quotient s'.remainder] ∧
        (eliminations events).map Prod.fst =
          (List.range' divisor.degree (dividend.degree - divisor.degree + 1)).reverse ∧
        ∀ a ∈ eliminations events, a.2.degree ≤ a.1) ∧
      ∃ events s', (∀ quotient remainder, .divisionDone quotient remainder ∉ events) ∧
        Descends divisor.degree (eliminations events) ∧
        (∀ i, s'.quotient.slot i ≠ 0 ↔
          divisor.degree + i ∈ (eliminations events).map Prod.fst) ∧
        ((LongDivision.run R .exact dividend divisor).run s = .ok () s' ∧
            s'.trace.toList = s.trace.toList ++ events ++
              [.divisionDone s'.quotient s'.remainder] ∨
          ∃ c k, (LongDivision.run R .exact dividend divisor).run s =
              .error (.refused (.inexactDivision c divisor.leading)) s' ∧
            s'.trace.toList = s.trace.toList ++ events ++
              [.divisionStep k s'.remainder s'.quotient] ∧
            Descends divisor.degree (eliminations events ++ [(k, s'.remainder)]))) ∧
    (R = .integers → ∀ s : Reduction, s.reduced.WellFormed →
      dividend.degree < s.reduced.capacity →
        ∃ events a s', (Reduction.run dividend divisor).run s = .ok a s' ∧
          s'.trace.toList = s.trace.toList ++ events ++ [.reductionDone a s'.reduced] ∧
          Descends divisor.degree (eliminations events)) := by
  refine ⟨fun s hroom => ⟨?_, ?_⟩, ?_⟩
  · exact LongDivision.run_pseudo_trace hp hd hzero hdeg hword hroom
  · exact LongDivision.run_exact_trace hp hd hzero hdeg hword hroom
  · rintro rfl s hr hlt
    exact Reduction.run_trace hp hd hzero hdeg hword hr hlt

/-- Over the integers, the pseudo-division of `4 x ^ 2 + 3 x` by `2 x + 1` announces the exponents
    two and one. The exact division is refused at the second, with what is left of the dividend. -/
theorem eliminations_show_quadratic :
    let dividend : Buffer := ⟨3, #[0, 3, 4]⟩
    let divisor : Buffer := ⟨2, #[1, 2]⟩
    let s : LongDivision := ⟨⟨1, #[0, 0]⟩, ⟨1, #[0, 0, 0]⟩, #[]⟩
    (∃ events s', (LongDivision.run .integers .pseudo dividend divisor).run s = .ok () s' ∧
      s'.trace.toList = events ++ [.divisionDone s'.quotient s'.remainder] ∧
      (eliminations events).map Prod.fst = [2, 1]) ∧
    (∃ events s' c k, (LongDivision.run .integers .exact dividend divisor).run s =
        .error (.refused (.inexactDivision c 2)) s' ∧
      s'.trace.toList = events ++ [.divisionStep k s'.remainder s'.quotient] ∧
      Descends 1 (eliminations events ++ [(k, s'.remainder)])) ∧
    ∃ events a s', (Reduction.run dividend divisor).run ⟨⟨1, #[0, 0, 0]⟩, 1, #[]⟩ = .ok a s' ∧
      s'.trace.toList = events ++ [.reductionDone a s'.reduced] ∧
      Descends 1 (eliminations events) := by
  intro dividend divisor s
  have hroom : s.Room dividend divisor :=
    ⟨by decide +kernel, by decide, by decide +kernel, by decide⟩
  obtain ⟨hdivision, hreduction⟩ := eliminations_show (R := .integers)
    (show dividend.Canonical .integers by decide +kernel)
    (show divisor.Canonical .integers by decide +kernel) (by decide) (by decide) (by decide)
  obtain ⟨⟨events, s', hrun, htrace, hexponents, -⟩, hexact⟩ := hdivision s hroom
  refine ⟨⟨events, s', hrun, htrace, hexponents⟩, ?_,
    hreduction rfl _ (by decide +kernel) (by decide)⟩
  obtain ⟨events, s', -, -, -, ⟨hrun, -⟩ | ⟨c, k, hrun, htrace, hdescends⟩⟩ := hexact
  · have houtcome : (LongDivision.run .integers .exact dividend divisor).outcome s =
        .error (.refused (.inexactDivision 1 2)) := by
      decide +kernel
    rw [Action.outcome_of_run_ok hrun] at houtcome
    cases houtcome
  · exact ⟨events, s', c, k, hrun, htrace, hdescends⟩

end Eliminations

end Univariate
