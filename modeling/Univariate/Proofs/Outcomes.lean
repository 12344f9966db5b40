import Univariate.Proofs.Derivatives
import Univariate.Proofs.ExactDivision
import Univariate.Proofs.PolyReduction
import Univariate.Proofs.PrimitiveParts

/-!
# How the operations on polynomials end

An operation on polynomials fails for a reason that its operands show, and for no other: the buffers
that it computes in have the room that it needs, the polynomials it divides by are not zero, and the
exact quotients it asks for exist. Only degrees that no machine word can count make it break off.

* `EndsIn` says that an outcome is a given refusal, or a value where there is none to give.
* `Poly.ringRefusal`, `Poly.termRefusal` and `Poly.divisorRefusal` are the refusals that operands
  call for, in the order in which they are checked.
* An exact division has one more way to end, at a coefficient that the leading coefficient of the
  divisor does not divide (`Poly.divideExact_ends`).
-/

namespace Univariate

open Polynomial

variable {α : Type}

/-! ## Outcomes -/

/-- The outcome is the refusal, if one is given, and a value otherwise. -/
def EndsIn : Option Refusal → Except Failure α → Prop
  | none, outcome => ∃ a, outcome = .ok a
  | some reason, outcome => outcome = .error (.refused reason)

/-- What comes after a check ends as it does when the check passes. -/
theorem EndsIn.bind {reason reason' : Option Refusal} {check : Except Failure Unit}
    {next : Unit → Except Failure α} (hcheck : EndsIn reason check)
    (hnext : reason = none → EndsIn reason' (check >>= next)) :
    EndsIn (reason.or reason') (check >>= next) := by
  cases reason with
  | none => exact hnext rfl
  | some reason =>
    change check = _ at hcheck
    subst hcheck
    rfl

namespace Poly

variable {R : CoeffRing} {p q d : Poly} {a : Term} {kind : DivisionKind}

/-! ## What operands are refused for -/

/-- Operands over different rings. -/
def ringRefusal (p q : Poly) : Option Refusal :=
  if p.ring = q.ring then none else some (.differentRings p.ring q.ring)

/-- Operands over different rings, or else the term zero. -/
def termRefusal (p q : Poly) (a : Term) : Option Refusal :=
  (ringRefusal p q).or (if a.isTrivial then some .trivialMultiplier else none)

/-- Operands over different rings, or else the divisor zero. -/
def divisorRefusal (p d : Poly) : Option Refusal :=
  (ringRefusal p d).or (if d.isZero then some .divisionByZero else none)

theorem ring_eq_of_ringRefusal (h : ringRefusal p q = none) : p.ring = q.ring := by
  by_contra hring
  rw [ringRefusal, if_neg hring] at h
  cases h

theorem endsIn_requireSameRing (p q : Poly) : EndsIn (ringRefusal p q) (requireSameRing p q) := by
  rw [ringRefusal, requireSameRing]
  split
  · exact ⟨(), rfl⟩
  · rfl

theorem endsIn_requireDivisor (p d : Poly) :
    EndsIn (divisorRefusal p d) (requireDivisor p d) := by
  refine (endsIn_requireSameRing p d).bind fun hring => ?_
  rw [requireSameRing_eq (ring_eq_of_ringRefusal hring) rfl, ok_bind]
  split
  · rfl
  · exact ⟨(), rfl⟩

/-- Operands without a refusal are over one ring, and the divisor is not zero. -/
theorem divisor_of_divisorRefusal (h : divisorRefusal p d = none) :
    p.ring = d.ring ∧ d.isZero = false := by
  rw [divisorRefusal, Option.or_eq_none_iff] at h
  refine ⟨ring_eq_of_ringRefusal h.1, ?_⟩
  by_contra hz
  rw [if_pos (by simpa using hz)] at h
  cases h.2

/-- An action that checks its divisor first ends in the refusal that the operands call for. -/
theorem outcome_of_divisorRefusal {σ : Type} {next : Unit → Action σ α} {reason : Refusal}
    (h : divisorRefusal p d = some reason) (s : σ) :
    (Action.give (requireDivisor p d) >>= next).outcome s = .error (.refused reason) := by
  have hcheck := endsIn_requireDivisor p d
  rw [h] at hcheck
  change requireDivisor p d = _ at hcheck
  rw [hcheck]
  rfl

/-! ## Operations in one buffer -/

theorem exists_derivative_eq (hword : p.degree + 1 < degreeBound) : ∃ r, p.derivative = .ok r :=
  ⟨_, derivative_eq rfl hword⟩

theorem exists_primitivePart_eq (hword : p.degree + 1 < degreeBound) :
    ∃ r, p.primitivePart = .ok r := by
  obtain ⟨r, hprimitive, -⟩ := exists_primitivePart hword
  exact ⟨r, hprimitive⟩

/-! ## Operations on two polynomials -/

/-- An operation that checks the rings first and succeeds past the check. -/
theorem endsIn_ringRefusal {next : Unit → Except Failure α}
    (hnext : p.ring = q.ring → ∃ r, (requireSameRing p q >>= next) = .ok r) :
    EndsIn (ringRefusal p q) (requireSameRing p q >>= next) := by
  rw [← Option.or_none (o := ringRefusal p q)]
  exact (endsIn_requireSameRing p q).bind fun hring => hnext (ring_eq_of_ringRefusal hring)

/-- The term zero is refused, but only by the buffer. -/
theorem addTermMultiple_eq_error (hring : p.ring = q.ring) (ha : a.isTrivial = true)
    (hword : max p.degree (q.degree + a.degree) + 1 < degreeBound) :
    p.addTermMultiple q a = .error (.refused .trivialMultiplier) := by
  have hroom : p.degree < max p.degree (q.degree + a.degree) + 1 := by omega
  obtain ⟨t, hof, -⟩ := Buffer.ofPoly_of_lt hroom
  rw [addTermMultiple, requireSameRing_eq hring rfl, ok_bind, addDegrees, if_pos (by omega),
    ok_bind, edited, addDegrees, if_pos hword, ok_bind, hof, ok_bind, Action.finalState,
    Buffer.run_addTermMultiple, if_pos ha]
  rfl

theorem endsIn_addTermMultiple (hword : max p.degree (q.degree + a.degree) + 1 < degreeBound) :
    EndsIn (termRefusal p q a) (p.addTermMultiple q a) := by
  refine (endsIn_requireSameRing p q).bind fun hring => ?_
  have hring := ring_eq_of_ringRefusal hring
  cases ha : a.isTrivial with
  | true => exact addTermMultiple_eq_error hring ha hword
  | false => exact ⟨_, addTermMultiple_eq hring rfl ha hword⟩

/-- A pseudo-division succeeds, and divides what the dividend is multiplied to. -/
theorem exists_run_dividePseudo (hp : p.ring = R) (hd : d.ring = R) (hz : d.isZero = false)
    (hword : d.degree ≤ p.degree → p.degree + 1 < degreeBound) (trace : Array Event) :
    ∃ q r trace', (p.divide .pseudo d).run trace = .ok (q, r) trace' ∧ ∀ multiplied : Poly,
      multiplied.image R =
        C ((d.coeff d.degree : R.Element) ^ (p.degree + 1 - d.degree)) * p.image R →
      IsDivision R multiplied d q r := by
  rcases Nat.lt_or_ge p.degree d.degree with hlt | hle
  · refine ⟨_, _, _, run_divide_of_degree_lt hp hd hz hlt .pseudo trace, fun multiplied h => ?_⟩
    rw [Nat.sub_eq_zero_of_le hlt, pow_zero, C_1, one_mul] at h
    have hdivision := isDivision_zero hp hd hlt
    exact ⟨rfl, hp, h.trans hdivision.identity, hdivision.isRemainder⟩
  have hword := hword hle
  obtain ⟨dividend, divisor, hdividend, hdivisor, hdivide⟩ := exists_run_divide hp hd hz hle hword
  rw [← hdividend.degree_eq] at hle hword
  rw [← hdivisor.degree_eq] at hle
  obtain ⟨s, hrun, hend⟩ := LongDivision.exists_run_pseudo (hdividend.canonical_ring hp)
    (hdivisor.canonical_ring hd) (hdivisor.isZero_eq_false hz) hle (by omega)
    (Buffer.room_fresh dividend divisor trace)
  have hresult := hdivide .pseudo trace
  rw [hrun] at hresult
  refine ⟨_, _, _, hresult, fun multiplied h => isDivision_toPoly hend ?_ hdivisor hd⟩
  rw [h, hdivisor.leading_eq, hdividend.image_eq, hdividend.degree_eq, hdivisor.degree_eq,
    Nat.sub_add_comm (by rwa [← hdividend.degree_eq, ← hdivisor.degree_eq])]

theorem endsIn_dividePseudo (hword : p.degree + 1 < degreeBound) (trace : Array Event) :
    EndsIn (divisorRefusal p d) ((p.divide .pseudo d).outcome trace) := by
  cases h : divisorRefusal p d with
  | some reason => exact outcome_of_divisorRefusal h trace
  | none =>
    obtain ⟨hring, hz⟩ := divisor_of_divisorRefusal h
    obtain ⟨q, r, trace', hrun, -⟩ := exists_run_dividePseudo hring rfl hz (fun _ => hword) trace
    exact ⟨_, Action.outcome_of_run_ok hrun⟩

theorem endsIn_reduce (hword : p.degree + 1 < degreeBound) (trace : Array Event) :
    EndsIn (divisorRefusal p d) ((p.reduce d).outcome trace) := by
  cases h : divisorRefusal p d with
  | some reason => exact outcome_of_divisorRefusal h trace
  | none =>
    obtain ⟨hring, hz⟩ := divisor_of_divisorRefusal h
    obtain ⟨b, r, trace', hrun, -⟩ := exists_run_reducesTo hring rfl hz (fun _ => hword) trace
    exact ⟨_, Action.outcome_of_run_ok hrun⟩

/-- An exact division that its operands do not call a refusal for can still be inexact. -/
theorem endsIn_divideExact (hword : p.degree + 1 < degreeBound) (trace : Array Event) :
    EndsIn (divisorRefusal p d) ((p.divide .exact d).outcome trace) ∨
      divisorRefusal p d = none ∧ ∃ c, (p.divide .exact d).outcome trace =
        .error (.refused (.inexactDivision c (d.coeff d.degree))) := by
  cases h : divisorRefusal p d with
  | some reason => exact .inl (outcome_of_divisorRefusal h trace)
  | none =>
    obtain ⟨hring, hz⟩ := divisor_of_divisorRefusal h
    rcases divideExact_ends hring rfl hz (fun _ => hword) trace with
      ⟨q, r, trace', hrun, -⟩ | ⟨⟨c, trace', hrun, -⟩, -⟩
    · exact .inl ⟨_, Action.outcome_of_run_ok hrun⟩
    · exact .inr ⟨rfl, c, Action.outcome_of_run_error hrun⟩

/-! ## All operations -/

/-- Where the sum of the degrees can be counted by a machine word, and one more, the operations on
    polynomials in any ring end with a value or with the refusal that their operands call for. Sums,
    differences and products are refused for operands over different rings alone, the addition of a
    multiple also for the term zero, and divisions and reductions for the divisor zero. Only an
    exact division can be refused for another reason, as inexact. Derivatives and primitive parts
    are never refused, and no operation breaks off. -/
theorem operations_end (p q : Poly) (a : Term) (trace : Array Event)
    (hword : p.degree + q.degree + a.degree + 1 < degreeBound) :
    EndsIn (ringRefusal p q) (p.add q) ∧
      EndsIn (ringRefusal p q) (p.sub q) ∧
      EndsIn (ringRefusal p q) (p.mul q) ∧
      EndsIn (termRefusal p q a) (p.addTermMultiple q a) ∧
      EndsIn (divisorRefusal p q) ((p.divide .pseudo q).outcome trace) ∧
      EndsIn (divisorRefusal p q) ((p.reduce q).outcome trace) ∧
      (EndsIn (divisorRefusal p q) ((p.divide .exact q).outcome trace) ∨
        divisorRefusal p q = none ∧ ∃ c, (p.divide .exact q).outcome trace =
          .error (.refused (.inexactDivision c (q.coeff q.degree)))) ∧
      EndsIn none p.derivative ∧
      EndsIn none p.primitivePart :=
  ⟨endsIn_ringRefusal fun hring => ⟨_, add_eq hring rfl (by omega)⟩,
    endsIn_ringRefusal fun hring => ⟨_, sub_eq hring rfl (by omega)⟩,
    endsIn_ringRefusal fun hring => ⟨_, mul_eq hring rfl (by omega)⟩,
    endsIn_addTermMultiple (by omega), endsIn_dividePseudo (by omega) trace,
    endsIn_reduce (by omega) trace, endsIn_divideExact (by omega) trace,
    exists_derivative_eq (by omega), exists_primitivePart_eq (by omega)⟩

/-- Modulo `6`, the product of `x ^ 2` and `2 x + 1` is there, the addition of the term zero times
    `2 x + 1` is refused, and so is a division by `2 x + 1` over the integers, for the rings. -/
theorem operations_end_six :
    let R : CoeffRing := .modular 6 false (by decide)
    let p := ofSlots R [0, 0, 1]
    (∃ r, p.mul (ofSlots R [1, 2]) = .ok r) ∧
      p.addTermMultiple (ofSlots R [1, 2]) ⟨0, 0⟩ = .error (.refused .trivialMultiplier) ∧
      (p.divide .exact (ofSlots .integers [1, 2])).outcome #[] =
        .error (.refused (.differentRings R .integers)) := by
  intro R p
  obtain ⟨-, -, hmul, hterm, -⟩ :=
    operations_end p (ofSlots R [1, 2]) ⟨0, 0⟩ #[] (by decide +kernel)
  obtain ⟨-, -, -, -, -, -, hdivide, -⟩ :=
    operations_end p (ofSlots .integers [1, 2]) ⟨0, 0⟩ #[] (by decide +kernel)
  refine ⟨hmul, hterm, ?_⟩
  rcases hdivide with hdivide | ⟨hnone, -⟩
  · exact hdivide
  · cases hnone

end Poly

end Univariate
