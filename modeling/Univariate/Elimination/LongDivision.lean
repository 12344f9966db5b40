import Univariate.Buffer.Accumulation
import Univariate.Buffer.Scaling
import Univariate.Elimination.Event

/-!
# Long division

The dividend is copied into a *remainder* buffer, and the exponents from its degree down to that
of the divisor are eliminated one after the other: a multiple of the divisor is subtracted, and
the multiplier goes into a *quotient* buffer. With `b` the leading coefficient of the divisor:

* an *exact* division needs `b` to divide the coefficient to be eliminated, and ends with
  `dividend = quotient * divisor + remainder`. A coefficient that is zero in the ring is passed
  over;
* a *pseudo-division* multiplies the remainder by `b` at each exponent, so that nothing has to be
  divided, and ends with `b ^ n * dividend = quotient * divisor + remainder`, where `n` is the
  number of exponents. A step has as many multiplications after it as its exponent in the
  quotient, which is why the coefficient it puts there is multiplied by that power of `b`.

The buffers are used as they are, whatever they held. A division that stops midway leaves its
partial quotient and remainder.

* `LongDivision.run` divides into given buffers, `Buffer.divide` into fresh ones.
-/

namespace Univariate

/-- What a long division works on. -/
structure LongDivision where
  /-- The buffer of the quotient. -/
  quotient : Buffer
  /-- The buffer of the remainder. -/
  remainder : Buffer
  /-- The events so far. -/
  trace : Array Event
  deriving DecidableEq

namespace LongDivision

/-- Adds an event to the trace. -/
def report (event : LongDivision → Event) : Action LongDivision Unit :=
  modify fun s => { s with trace := s.trace.push (event s) }

/-- Edits the quotient. -/
def onQuotient : Edit Unit → Action LongDivision Unit :=
  Action.onPart quotient fun t s => { s with quotient := t }

/-- Edits the remainder. -/
def onRemainder : Edit Unit → Action LongDivision Unit :=
  Action.onPart remainder fun t s => { s with remainder := t }

/-- Reports the elimination of the exponent `k`. -/
def reportStep (k : Nat) : Action LongDivision Unit :=
  report fun s => .divisionStep k s.remainder s.quotient

/-- Subtracts `factor * x ^ shift` times the divisor from the remainder and puts `coefficient` in
    the quotient, unless the factor is zero in the ring. -/
def subtract (R : CoeffRing) (divisor : Buffer) (shift : Nat) (factor coefficient : Int) :
    Action LongDivision Unit := do
  if !R.isZero factor then
    onRemainder (Buffer.subBufferMultiple R divisor ⟨shift, factor⟩)
    onQuotient (Buffer.write shift coefficient)

/-- The step of an exact division that eliminates the leading exponent of the divisor raised by
    `shift`. -/
def exactStep (R : CoeffRing) (divisor : Buffer) (shift : Nat) : Action LongDivision Unit := do
  let c := (← get).remainder.slot (divisor.degree + shift)
  if !R.isZero c then
    reportStep (divisor.degree + shift)
    if !R.divides divisor.leading c then
      Action.refuse (.inexactDivision c divisor.leading)
    let factor ← Action.give (R.exactQuotient c divisor.leading)
    subtract R divisor shift factor factor

/-- The step of a pseudo-division that eliminates the leading exponent of the divisor raised by
    `shift`. -/
def pseudoStep (R : CoeffRing) (divisor : Buffer) (shift : Nat) : Action LongDivision Unit := do
  let c := (← get).remainder.slot (divisor.degree + shift)
  reportStep (divisor.degree + shift)
  onRemainder (Buffer.scale R divisor.leading)
  subtract R divisor shift c (R.mul c (R.pow divisor.leading shift))

/-- The step of a division of the given kind. -/
def step (R : CoeffRing) : DivisionKind → (divisor : Buffer) → (shift : Nat) →
    Action LongDivision Unit
  | .exact => exactStep R
  | .pseudo => pseudoStep R

/-- The steps for the `count` lowest shifts, from the highest one down. -/
def steps (R : CoeffRing) (kind : DivisionKind) (divisor : Buffer) :
    (count : Nat) → Action LongDivision Unit
  | 0 => pure ()
  | shift + 1 => do
    step R kind divisor shift
    steps R kind divisor shift

theorem run_steps_succ (R : CoeffRing) (kind : DivisionKind) (divisor : Buffer) (shift : Nat)
    (s : LongDivision) :
    (steps R kind divisor (shift + 1)).run s =
      match (step R kind divisor shift).run s with
      | .ok _ s' => (steps R kind divisor shift).run s'
      | .error e s' => .error e s' := by
  cases h : (step R kind divisor shift).run s <;> simp [steps, h]

/-- Divides `dividend` by `divisor` into the buffers of the quotient and the remainder. -/
def run (R : CoeffRing) (kind : DivisionKind) (dividend divisor : Buffer) :
    Action LongDivision Unit := do
  if divisor.isZero then
    Action.refuse .divisionByZero
  if dividend.degree < divisor.degree then
    Action.refuse (.divisorTooLong dividend.degree divisor.degree)
  onQuotient (Buffer.requireSlot (dividend.degree - divisor.degree))
  report fun _ => .divisionStarted R kind dividend divisor
  onRemainder (Buffer.copy dividend)
  onQuotient (modify Buffer.clear)
  steps R kind divisor (dividend.degree - divisor.degree + 1)
  onQuotient (modify (Buffer.trim R))
  report fun s => .divisionDone s.quotient s.remainder

end LongDivision

/-- The quotient and the remainder of a division, in fresh buffers with room for just the degrees
    they can have. -/
def Buffer.divide (R : CoeffRing) (kind : DivisionKind) (dividend divisor : Buffer) :
    Traced (Buffer × Buffer) := do
  let quotient ← Action.give (ofDegreeBound (dividend.degree - divisor.degree))
  let remainder ← Action.give (ofDegreeBound dividend.degree)
  fun trace =>
    match LongDivision.run R kind dividend divisor ⟨quotient, remainder, trace⟩ with
    | .ok _ s => .ok (s.quotient, s.remainder) s.trace
    | .error e s => .error e s.trace

end Univariate
