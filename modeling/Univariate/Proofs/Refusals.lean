import Univariate.Proofs.ExactDivision
import Univariate.Proofs.Sessions

/-!
# What refusals leave

A refusal leaves the targets of an action as they were: every slot, and the size. The checks come
before the first write, and what could be refused after it cannot come about, or is a fault.

* `Action.Spares` says this of an action and what it changes.
* An edit checks for the highest exponent it writes, and writes only then. The division of the
  coefficients by a scalar goes through them one by one, but a scalar that passed its check either
  divides or makes it fault (`Buffer.unscale_cases`).
* A reduction only faults once it has copied the dividend (`Reduction.faulted_of_run_steps`).
* A long division can be refused midway in two ways (`LongDivision.Midway`): an exact division by a
  leading coefficient that does not divide, and a pseudo-division by one that is zero.
-/

namespace Univariate

variable {R : CoeffRing}

/-! ## Actions -/

/-- Where the action refuses, what `part` reads of the state is as it was. -/
def Action.Spares {σ τ α : Type} (part : σ → τ) (action : Action σ α) : Prop :=
  ∀ s reason s', action.run s = .error (.refused reason) s' → part s' = part s

theorem Action.spares_modify {σ τ : Type} (part : σ → τ) (f : σ → σ) :
    Action.Spares part (modify f) := by
  intro s reason s' h
  cases h

theorem Poly.spares_unpack (p : Poly) : p.unpack.Spares id := by
  intro slots reason slots' h
  rw [run_unpack] at h
  split_ifs at h
  cases h
  rfl

/-! ## Edits -/

namespace Buffer

variable {t u : Buffer}

theorem spares_copy (source : Buffer) : (copy source).Spares id := by
  intro t reason u h
  rw [run_copy] at h
  split_ifs at h
  cases h
  rfl

theorem spares_expose (degree : Nat) : (expose degree).Spares id := by
  intro t reason u h
  rw [run_expose] at h
  split_ifs at h
  cases h
  rfl

theorem spares_scale (c : Int) : (scale R c).Spares id := by
  intro t reason u h
  rw [run_scale] at h
  split_ifs at h
  cases h
  rfl

/-- By a scalar that is not zero, a division of coefficients is never refused: it faults. -/
theorem spares_unscale (c : Int) : (unscale R c).Spares id := by
  intro t reason u h
  cases hc : R.isZero c with
  | true =>
    rw [run_unscale_of_isZero hc] at h
    cases h
    rfl
  | false =>
    rcases unscale_cases hc t with ⟨v, hrun, -⟩ | ⟨k, v, hrun, -⟩
    all_goals
      rw [hrun] at h
      cases h

theorem spares_makePrimitive (positive : Bool) : (makePrimitive positive).Spares id := by
  intro t reason u h
  rw [run_makePrimitive] at h
  split_ifs at h
  cases h

theorem spares_addMultiple (source : Poly) (c : Int) : (addMultiple source c).Spares id := by
  intro t reason u h
  rw [run_addMultiple] at h
  split_ifs at h <;> cases h <;> rfl

/-- An accumulation up to the exponent `d + e` that fails has changed nothing. -/
theorem eq_of_accumulate {v : Buffer} {d e : Nat} {failure : Failure}
    (h : (match addDegrees d e with
      | .error e => (.error e t : EStateM.Result Failure Buffer Unit)
      | .ok degree =>
        if t.capacity ≤ degree then
          .error (.refused (.noSlotFor degree t.capacity)) t
        else
          .ok () (v.resize R degree)) = .error failure u) : u = t := by
  split at h
  · cases h
    rfl
  · split_ifs at h
    cases h
    rfl

theorem spares_addTermMultiple (source : Poly) (a : Term) :
    (addTermMultiple source a).Spares id := by
  intro t reason u h
  rw [run_addTermMultiple] at h
  split_ifs at h
  · cases h
    rfl
  · exact eq_of_accumulate h

theorem spares_subTermMultiple (source : Poly) (a : Term) :
    (subTermMultiple source a).Spares id := by
  intro t reason u h
  rw [run_subTermMultiple] at h
  split_ifs at h
  · cases h
    rfl
  · exact eq_of_accumulate h

theorem spares_subBufferMultiple (source : Buffer) (a : Term) :
    (subBufferMultiple R source a).Spares id := by
  intro t reason u h
  rw [run_subBufferMultiple] at h
  split_ifs at h
  · cases h
    rfl
  · exact eq_of_accumulate h

theorem spares_subProduct (p q : Buffer) : (subProduct R p q).Spares id := by
  intro t reason u h
  rw [run_subProduct] at h
  split_ifs at h
  exact eq_of_accumulate h

theorem spares_differentiate (source : Buffer) : (differentiate R source).Spares id := by
  intro t reason u h
  rw [run_differentiate] at h
  split_ifs at h
  cases h
  rfl

end Buffer

theorem Session.spares_editOf {s : Session} {change : Change} {edit : Edit Unit}
    (hedit : s.editOf change = some edit) : edit.Spares id := by
  cases change with
  | trim R =>
    cases hedit
    exact Action.spares_modify _ _
  | copy source =>
    obtain ⟨r, -, hedit⟩ := Option.bind_eq_some_iff.1 hedit
    cases hedit
    exact Buffer.spares_copy r.buffer
  | clear =>
    cases hedit
    exact Action.spares_modify _ _
  | expose degree =>
    cases hedit
    exact Buffer.spares_expose degree.toNat
  | scale R c =>
    cases hedit
    exact Buffer.spares_scale c
  | unscale R c =>
    cases hedit
    exact Buffer.spares_unscale c
  | negate R =>
    cases hedit
    exact Action.spares_modify _ _
  | makePrimitive positive =>
    cases hedit
    exact Buffer.spares_makePrimitive positive
  | addMultiple source c =>
    cases hedit
    exact Buffer.spares_addMultiple source c
  | addMultipleInt64 source c =>
    cases hedit
    rw [Buffer.addMultipleInt64_eq]
    exact Buffer.spares_addMultiple source c.toInt
  | addTermMultiple source a =>
    cases hedit
    exact Buffer.spares_addTermMultiple source a
  | subTermMultiple source a =>
    cases hedit
    exact Buffer.spares_subTermMultiple source a
  | subBufferMultiple R source a =>
    obtain ⟨r, -, hedit⟩ := Option.bind_eq_some_iff.1 hedit
    cases hedit
    exact Buffer.spares_subBufferMultiple r.buffer a
  | subProduct R p q =>
    obtain ⟨r, -, hedit⟩ := Option.bind_eq_some_iff.1 hedit
    obtain ⟨r', -, hedit⟩ := Option.bind_eq_some_iff.1 hedit
    cases hedit
    exact Buffer.spares_subProduct r.buffer r'.buffer
  | differentiate R source =>
    obtain ⟨r, -, hedit⟩ := Option.bind_eq_some_iff.1 hedit
    cases hedit
    exact Buffer.spares_differentiate r.buffer

/-! ## Reduction -/

namespace Reduction

variable {dividend : Buffer}

theorem spares_run (divisor : Buffer) (hword : dividend.degree < degreeBound) :
    (run dividend divisor).Spares reduced := by
  intro s reason s' h
  rw [run_run] at h
  split_ifs at h with hzero hdeg hr
  · cases h
    rfl
  · cases h
    rfl
  · cases h
    rfl
  · split at h
    · cases h
    · next e s₁ hrun =>
      have hfault := faulted_of_run_steps
        (fits_started (by simpa using hzero) (not_lt.1 hdeg) hword (not_le.1 hr)) hrun
      cases h
      cases hfault

end Reduction

/-! ## Long division -/

namespace LongDivision

variable {kind : DivisionKind} {dividend divisor : Buffer} {s s' : LongDivision}

/-- The refusals that find a long division past its first write. -/
inductive Midway (R : CoeffRing) (divisor : Buffer) : DivisionKind → Refusal → Prop
  | inexact (c : Int) : Midway R divisor .exact (.inexactDivision c divisor.leading)
  | zeroLeading (h : R.isZero divisor.leading = true) : Midway R divisor .pseudo .zeroScalar

theorem midway_of_run_steps {count : Nat} {reason : Refusal}
    (hfits : ∀ shift < count, s.Fits divisor shift)
    (hrun : (steps R kind divisor count).run s = .error (.refused reason) s') :
    Midway R divisor kind reason := by
  cases kind with
  | exact =>
    have hsteps := exactSteps_induction (R := R) (I := fun _ _ => True) (fun _ _ _ _ => trivial)
      (fun _ _ _ _ _ _ _ => trivial) trivial hfits
    rw [hrun] at hsteps
    obtain ⟨shift, -, s₀, hs₀, -, hstep⟩ := hsteps
    obtain ⟨hreason, -⟩ := refused_of_run_exactStep hs₀ hstep
    cases hreason
    exact .inexact _
  | pseudo =>
    cases hlead : R.isZero divisor.leading with
    | true =>
      cases count with
      | zero => cases hrun
      | succ shift =>
        rw [run_steps_succ, step, run_pseudoStep_zero hlead] at hrun
        cases hrun
        exact .zeroLeading hlead
    | false =>
      obtain ⟨s₁, hok, -⟩ := pseudoSteps_induction (I := fun _ _ => True) hlead
        (fun _ _ _ _ => trivial) trivial hfits
      rw [hok] at hrun
      cases hrun

theorem midway_or_eq_of_run {reason : Refusal} (hword : dividend.degree < degreeBound)
    (hrun : (run R kind dividend divisor).run s = .error (.refused reason) s') :
    Midway R divisor kind reason ∨ s'.quotient = s.quotient ∧ s'.remainder = s.remainder := by
  rw [run_run] at hrun
  split_ifs at hrun with hzero hdeg hq hr
  · cases hrun
    exact .inr ⟨rfl, rfl⟩
  · cases hrun
    exact .inr ⟨rfl, rfl⟩
  · cases hrun
    exact .inr ⟨rfl, rfl⟩
  · cases hrun
    exact .inr ⟨rfl, rfl⟩
  · split at hrun
    · cases hrun
    · next hsteps =>
      cases hrun
      exact .inl (midway_of_run_steps
        (fits_started (by simpa using hzero) (not_lt.1 hdeg) hword (not_le.1 hq) (not_le.1 hr))
        hsteps)

end LongDivision

/-! ## All targets -/

/-- Whatever the buffers hold, an edit that is refused leaves its buffer as it was, and a refused
    unpacking its array. Degrees being machine words, a refused reduction leaves its reduced
    polynomial, and a refused division its quotient and its remainder, but for the refusals that
    find it midway. -/
theorem refusals_spare_targets :
    (∀ (s : Session) (change : Change) (edit : Edit Unit), s.editOf change = some edit →
      edit.Spares id) ∧
    (∀ p : Poly, p.unpack.Spares id) ∧
    (∀ dividend divisor : Buffer, dividend.degree < degreeBound →
      (Reduction.run dividend divisor).Spares Reduction.reduced) ∧
    ∀ (R : CoeffRing) (kind : DivisionKind) (dividend divisor : Buffer) (s s' : LongDivision)
      (reason : Refusal), dividend.degree < degreeBound →
      (LongDivision.run R kind dividend divisor).run s = .error (.refused reason) s' →
      LongDivision.Midway R divisor kind reason ∨
        s'.quotient = s.quotient ∧ s'.remainder = s.remainder :=
  ⟨fun _ _ _ => Session.spares_editOf, Poly.spares_unpack,
    fun _ divisor => Reduction.spares_run divisor,
    fun _ _ _ _ _ _ _ => LongDivision.midway_or_eq_of_run⟩

/-- Modulo `6`, a buffer of two slots, with an integer that is not canonical and with a zero in the
    highest slot, has no room for `x ^ 5` times `x`, nor for the remainder of a division of
    `3 x ^ 2 + 2 x + 1`. The refused edit leaves it as it was, and the refused division leaves its
    quotient as it was too. -/
theorem refusals_spare_two_slots :
    let R : CoeffRing := .modular 6 false (by decide)
    let t : Buffer := ⟨2, #[7, 0]⟩
    (∃ u, (Buffer.addTermMultiple (Poly.ofSlots R [0, 1]) ⟨5, 1⟩).run t =
        .error (.refused (.noSlotFor 6 2)) u ∧ u = t) ∧
      ∃ s, (LongDivision.run R .exact ⟨3, #[1, 2, 3]⟩ ⟨2, #[1, 2]⟩).run ⟨t, t, #[]⟩ =
        .error (.refused (.noSlotFor 2 2)) s ∧ s.quotient = t ∧ s.remainder = t := by
  intro R t
  obtain ⟨hedits, -, -, hdivisions⟩ := refusals_spare_targets
  have hedit : (Buffer.addTermMultiple (Poly.ofSlots R [0, 1]) ⟨5, 1⟩).run t =
      .error (.refused (.noSlotFor 6 2)) t := by
    rfl
  have hdivision : (LongDivision.run R .exact ⟨3, #[1, 2, 3]⟩ ⟨2, #[1, 2]⟩).run ⟨t, t, #[]⟩ =
      .error (.refused (.noSlotFor 2 2))
        ⟨t, t, #[.divisionStarted R .exact ⟨3, #[1, 2, 3]⟩ ⟨2, #[1, 2]⟩]⟩ := by
    rfl
  refine ⟨⟨t, hedit, ?_⟩, _, hdivision, ?_⟩
  · exact hedits [] (.addTermMultiple (Poly.ofSlots R [0, 1]) ⟨5, 1⟩) _ rfl t _ t hedit
  · rcases hdivisions R .exact _ _ _ _ _ (by decide) hdivision with hmidway | hspared
    · cases hmidway
    · exact hspared

end Univariate
