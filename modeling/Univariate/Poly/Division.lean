import Univariate.Elimination.LongDivision
import Univariate.Elimination.Reduction
import Univariate.Poly.Arithmetic

/-!
# Division of polynomials

Long division and reduction of polynomials, computed in buffers. A dividend of smaller degree than
the divisor is its own remainder, and no elimination is run for it.

* `Poly.divide` gives the quotient and the remainder of either kind in `LongDivision`.
* `Poly.reduce` gives a multiplier and a reduced polynomial. It works over the integers, on the
  canonical representatives, and reduces the result, but not the multiplier, into the ring.
-/

namespace Univariate.Poly

/-- Refuses a divisor over another ring, and the zero divisor. -/
def requireDivisor (p divisor : Poly) : Except Failure Unit := do
  requireSameRing p divisor
  if divisor.isZero then
    throw (.refused .divisionByZero)

/-- The quotient and the remainder of `p` by `divisor`. -/
def divide (kind : DivisionKind) (p divisor : Poly) : Traced (Poly × Poly) := do
  Action.give (requireDivisor p divisor)
  if p.degree < divisor.degree then
    return (zero p.ring, p)
  let pBuffer ← Action.give p.toBuffer
  let dBuffer ← Action.give divisor.toBuffer
  let (quotient, remainder) ← Buffer.divide p.ring kind pBuffer dBuffer
  return (quotient.toPoly p.ring, remainder.toPoly p.ring)

/-- A multiplier `a` and a polynomial that differs from `a * p` by a multiple of `divisor`. -/
def reduce (p divisor : Poly) : Traced (Int × Poly) := do
  Action.give (requireDivisor p divisor)
  if p.degree < divisor.degree then
    return (1, p)
  let pBuffer ← Action.give p.toBuffer
  let dBuffer ← Action.give divisor.toBuffer
  let (a, reduced) ← Buffer.reduce pBuffer dBuffer
  return (a, reduced.toPoly p.ring)

end Univariate.Poly
