import Univariate.CoeffRing.Arithmetic
import Univariate.Residue.Inverse

/-!
# Divisibility and exact quotients

Modulo `m`, an element `a` divides `b` exactly when the integer `gcd a m` divides `b`. The
equation `b * x = a` then has several solutions when `g = gcd b m` is not one; the exact quotient
is the one obtained from `(b / g) * x = a / g` modulo `m / g`, where `b / g` is invertible.

* `CoeffRing.divides` is the divisibility test; zero divides nothing.
* `CoeffRing.exactQuotient` is the exact quotient. It refuses to divide by zero, and faults on a
  divisor that does not divide.
-/

namespace Univariate.CoeffRing

/-- Whether `a` is non-zero in the ring and divides `b`. -/
def divides (R : CoeffRing) (a b : Int) : Bool :=
  !R.isZero a &&
    match R with
    | integers => decide (a ∣ b)
    | modular m _ _ => decide ((Int.gcd (Residue.least a m) m : Int) ∣ Residue.least b m)

/-- The exact quotient `a / b`, for a `b` that divides `a`. -/
def exactQuotient (R : CoeffRing) (a b : Int) : Except Failure Int :=
  if R.isZero b then
    .error (.refused .zeroScalar)
  else if !R.divides b a then
    .error (.faulted (.indivisible a b R))
  else
    match R with
    | integers => .ok (a / b)
    | modular m _ _ =>
        let a' := Residue.least a m
        let b' := Residue.least b m
        let g : Int := Int.gcd b' m
        match Residue.inverse? (b' / g) (m / g) with
        | none => .error (.refused (.inexactDivision a' b'))
        | some inverse => .ok (R.normalize (a' / g * inverse))

/-- The non-negative greatest common divisor of the canonical representatives. -/
def gcd (R : CoeffRing) (a b : Int) : Nat :=
  Int.gcd (R.normalize a) (R.normalize b)

/-- The non-negative least common multiple of the canonical representatives. -/
def lcm (R : CoeffRing) (a b : Int) : Nat :=
  Int.lcm (R.normalize a) (R.normalize b)

end Univariate.CoeffRing
