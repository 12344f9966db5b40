import Univariate.Buffer.Accumulation
import Univariate.Buffer.Scaling
import Univariate.Elimination.Event

/-!
# Reduction over the integers

A polynomial is reduced by a divisor without leaving the integers: the exponents from its degree
down to that of the divisor are eliminated one after the other, and before a step the whole
polynomial is multiplied by the least integer, up to its sign, that makes the leading coefficient
of the divisor divide the coefficient to be eliminated. The product of these integers is the
*multiplier* `a`, and at the end `a * dividend - reduced` is a multiple of the divisor.

A coefficient zero is passed over. A divisor whose highest significant slot holds zero has no
multiple that could eliminate anything, and the reduction faults.

* `Reduction.run` reduces into a given buffer, `Buffer.reduce` into a fresh one.
-/

namespace Univariate

/-- What a reduction works on. -/
structure Reduction where
  /-- The buffer of the reduced polynomial. -/
  reduced : Buffer
  /-- The multiplier so far. -/
  multiplier : Int
  /-- The events so far. -/
  trace : Array Event
  deriving DecidableEq

namespace Reduction

/-- Adds an event to the trace. -/
def report (event : Reduction → Event) : Action Reduction Unit :=
  modify fun s => { s with trace := s.trace.push (event s) }

/-- Edits the reduced polynomial. -/
def onReduced : Edit Unit → Action Reduction Unit :=
  Action.onPart reduced fun t s => { s with reduced := t }

/-- Multiplies the polynomial so that its coefficient `c` becomes the least common multiple of `c`
    and `lead`, and gives the factor by which `lead` is then to be multiplied. -/
def scaleUp (c lead : Int) : Action Reduction Int := do
  if lead = 0 then
    Action.give (.error (.faulted .zeroDivide))
  let lcm : Int := Int.lcm c lead
  report fun _ => .reductionScaled lcm (lcm / c) (lcm / lead)
  modify fun s => { s with multiplier := s.multiplier * (lcm / c) }
  onReduced (Buffer.scale .integers (lcm / c))
  return lcm / lead

/-- The factor by which the divisor is to be multiplied to eliminate the coefficient `c`. -/
def factor (c lead : Int) : Action Reduction Int :=
  if lead ∣ c then pure (c / lead) else scaleUp c lead

/-- The step that eliminates the leading exponent of the divisor raised by `shift`. -/
def step (divisor : Buffer) (shift : Nat) : Action Reduction Unit := do
  let c := (← get).reduced.slot (divisor.degree + shift)
  if c ≠ 0 then
    report fun s => .reductionStep (divisor.degree + shift) s.reduced
    let a ← factor c divisor.leading
    onReduced (Buffer.subBufferMultiple .integers divisor ⟨shift, a⟩)

/-- The steps for the `count` lowest shifts, from the highest one down. -/
def steps (divisor : Buffer) : (count : Nat) → Action Reduction Unit
  | 0 => pure ()
  | shift + 1 => do
    step divisor shift
    steps divisor shift

theorem run_steps_succ (divisor : Buffer) (shift : Nat) (s : Reduction) :
    (steps divisor (shift + 1)).run s =
      match (step divisor shift).run s with
      | .ok _ s' => (steps divisor shift).run s'
      | .error e s' => .error e s' := by
  cases h : (step divisor shift).run s <;> simp [steps, h]

/-- Reduces `dividend` by `divisor` into the buffer, and gives the multiplier. -/
def run (dividend divisor : Buffer) : Action Reduction Int := do
  if divisor.isZero then
    Action.refuse .divisionByZero
  if dividend.degree < divisor.degree then
    Action.refuse (.divisorTooLong dividend.degree divisor.degree)
  report fun _ => .reductionStarted dividend divisor
  modify ({ · with multiplier := 1 })
  onReduced (Buffer.copy dividend)
  steps divisor (dividend.degree - divisor.degree + 1)
  report fun s => .reductionDone s.multiplier s.reduced
  return (← get).multiplier

end Reduction

/-- The multiplier and the reduced polynomial, in a fresh buffer with room for just the degree it
    can have. -/
def Buffer.reduce (dividend divisor : Buffer) : Traced (Int × Buffer) := do
  let reduced ← Action.give (ofDegreeBound dividend.degree)
  fun trace =>
    match Reduction.run dividend divisor ⟨reduced, 1, trace⟩ with
    | .ok a s => .ok (a, s.reduced) s.trace
    | .error e s => .error e s.trace

end Univariate
