import Univariate.Action
import Univariate.Buffer.Basic

/-!
# Events

The eliminations say what they do as they go: where they start, each step before it changes
anything, and how they end. An *event* holds the values that are shown, and `Event.text` is the
line it is reported by.

* `Traced` is the type of a computation that leaves events behind, also when it fails.
-/

namespace Univariate

/-- How a long division comes by the coefficients of the quotient. -/
inductive DivisionKind where
  /-- The leading coefficient of the divisor has to divide what it eliminates. -/
  | exact
  /-- The remainder is multiplied by the leading coefficient of the divisor before each step. -/
  | pseudo
  deriving DecidableEq

/-- The name of a division kind. -/
def DivisionKind.text : DivisionKind → String
  | exact => "Exact"
  | pseudo => "Pseudo"

/-- What is reported of a computation. -/
inductive Event where
  /-- A modular ring was built. -/
  | ringBuilt (m : Nat) (prime : Bool)
  /-- A long division starts. -/
  | divisionStarted (R : CoeffRing) (kind : DivisionKind) (dividend divisor : Buffer)
  /-- A long division is about to eliminate the exponent `k`. -/
  | divisionStep (k : Nat) (remainder quotient : Buffer)
  /-- A long division is done. -/
  | divisionDone (quotient remainder : Buffer)
  /-- A reduction starts. -/
  | reductionStarted (dividend divisor : Buffer)
  /-- A reduction is about to eliminate the exponent `k`. -/
  | reductionStep (k : Nat) (reduced : Buffer)
  /-- A reduction multiplies what it has by `scale` to eliminate with the multiple `factor`. -/
  | reductionScaled (lcm scale factor : Int)
  /-- A reduction is done. -/
  | reductionDone (multiplier : Int) (reduced : Buffer)
  deriving DecidableEq

/-- The line an event is reported by. -/
def Event.text : Event → String
  | ringBuilt m prime =>
      s!"DEBUG constructed modular integer ring modulus={m} is_prime={prime}"
  | divisionStarted R kind dividend divisor =>
      s!"DEBUG div_general ring={R.text} mode={kind.text} dividend={dividend.text} "
        ++ s!"divisor={divisor.text}"
  | divisionStep k remainder quotient =>
      s!"TRACE eliminating k={k} remainder={remainder.text} quotient={quotient.text}"
  | divisionDone quotient remainder =>
      s!"DEBUG div_general done quotient={quotient.text} remainder={remainder.text}"
  | reductionStarted dividend divisor =>
      s!"DEBUG reduce_integer_preserving dividend={dividend.text} divisor={divisor.text}"
  | reductionStep k reduced =>
      s!"TRACE eliminating k={k} reduced={reduced.text}"
  | reductionScaled lcm scale factor =>
      s!"TRACE scaling lcm={lcm} scale={scale} factor={factor}"
  | reductionDone multiplier reduced =>
      s!"DEBUG reduce_integer_preserving done multiplier={multiplier} reduced={reduced.text}"

/-- The events of building a ring. -/
def CoeffRing.events : CoeffRing → List Event
  | integers => []
  | modular m prime _ => [.ringBuilt m prime]

/-- A computation that leaves events behind. -/
abbrev Traced (α : Type) := Action (Array Event) α

end Univariate
