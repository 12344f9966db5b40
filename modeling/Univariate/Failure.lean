import Univariate.CoeffRing.Basic

/-!
# How an operation fails

An operation on polynomials fails in one of two ways.

* A *refusal* is part of the contract: the caller gave an undersized buffer, a zero scalar,
  operands of different rings, a divisor that does not divide. The caller can go on.
* A *fault* is a computation that has no result at all: a division by the integer zero, a degree
  that no machine word holds, an exact quotient that does not exist.

Both are values here, and each has one text (`Refusal.message`, `Fault.message`).
-/

namespace Univariate

/-- A broken contract between an operation and its caller. -/
inductive Refusal where
  /-- A buffer needs at least one slot. -/
  | noSlots
  /-- There is no slot for the exponent `degree`. -/
  | noSlotFor (degree capacity : Nat)
  /-- The scalar is zero in the ring. -/
  | zeroScalar
  /-- The multiplier is the constant term zero. -/
  | trivialMultiplier
  /-- The leading coefficient of the divisor does not divide a coefficient to be eliminated. -/
  | inexactDivision (coefficient divisor : Int)
  /-- The divisor has a larger degree than the dividend. -/
  | divisorTooLong (dividend divisor : Nat)
  /-- The divisor is the zero polynomial. -/
  | divisionByZero
  /-- The operands are over different rings. -/
  | differentRings (left right : CoeffRing)
  /-- A polynomial needs at least one coefficient. -/
  | noCoefficients
  deriving DecidableEq

/-- A computation without a result. -/
inductive Fault where
  /-- The exact quotient of `dividend` by `divisor` does not exist in the ring. -/
  | indivisible (dividend divisor : Int) (ring : CoeffRing)
  /-- The content of a buffer that holds only zeros is not positive. -/
  | contentNotPositive
  /-- An integer was divided by zero. -/
  | zeroDivide
  /-- A sum of degrees does not fit in a machine word. -/
  | degreeOverflow
  deriving DecidableEq

/-- How an operation fails. -/
inductive Failure where
  /-- The operation refused its arguments. -/
  | refused (reason : Refusal)
  /-- The operation broke off. -/
  | faulted (reason : Fault)
  deriving DecidableEq

/-- The text of a refusal. -/
def Refusal.message : Refusal → String
  | noSlots => "Dense polynomial capacity must be at least 1"
  | noSlotFor degree capacity =>
      s!"Degree {degree} does not fit in a dense polynomial of capacity {capacity}"
  | zeroScalar => "Scalar must be non-zero in the coefficient ring"
  | trivialMultiplier => "Monomial multiplier must have positive degree or a non-zero coefficient"
  | inexactDivision coefficient divisor =>
      s!"Inexact division: {divisor} does not divide {coefficient}"
  | divisorTooLong dividend divisor =>
      s!"Divisor degree {divisor} exceeds dividend degree {dividend}"
  | divisionByZero => "Division by zero polynomial"
  | differentRings left right => s!"Ring mismatch: {left.text} vs {right.text}"
  | noCoefficients => "Invalid polynomial: coefficient list is empty"

/-- The text of a fault. -/
def Fault.message : Fault → String
  | indivisible dividend divisor ring => s!"{divisor} does not divide {dividend} in {ring.text}"
  | contentNotPositive => "assertion failed: content.is_positive()"
  | zeroDivide => "attempt to divide by zero"
  | degreeOverflow => "attempt to add with overflow"

/-- The text of a failure. -/
def Failure.message : Failure → String
  | refused reason => reason.message
  | faulted reason => reason.message

/-- Degrees, sizes and capacities are machine words, below this bound. -/
def degreeBound : Nat := UInt64.size

/-- The sum of two degrees, if it is a degree. -/
def addDegrees (d e : Nat) : Except Failure Nat :=
  if d + e < degreeBound then .ok (d + e) else .error (.faulted .degreeOverflow)

end Univariate
