import Univariate.Buffer.Accumulation
import Univariate.Buffer.Differentiation
import Univariate.Buffer.Scaling
import Univariate.Poly.Packing

/-!
# Arithmetic of polynomials

Sums, differences, products, derivatives and primitive parts. Each is computed in a buffer with
room for the degree that the result can have: the operands are unpacked, the buffer is edited, and
the result is packed again over the ring of the first operand.

* Operations on two polynomials refuse operands over different rings.
* The primitive part is taken over the integers, of the canonical representatives.
-/

namespace Univariate.Poly

/-- Refuses operands over different rings. -/
def requireSameRing (p q : Poly) : Except Failure Unit :=
  if p.ring = q.ring then .ok () else .error (.refused (.differentRings p.ring q.ring))

/-- The polynomial that an edit leaves of `p`, in a buffer with room for `degree`. -/
def edited (p : Poly) (degree : Nat) (edit : Edit Unit) : Except Failure Poly := do
  let capacity ← addDegrees degree 1
  let t ← Buffer.ofPoly capacity p
  let t ← edit.finalState t
  return t.toPoly p.ring

/-- The sum `p + q`. -/
def add (p q : Poly) : Except Failure Poly := do
  requireSameRing p q
  if q.isZero then
    return p
  p.edited (max p.degree q.degree) (Buffer.addMultipleInt64 q 1)

/-- The difference `p - q`. -/
def sub (p q : Poly) : Except Failure Poly := do
  requireSameRing p q
  if q.isZero then
    return p
  p.edited (max p.degree q.degree) (Buffer.addMultipleInt64 q (-1))

/-- The product `p * q`. The buffer only ever subtracts products, so this one is subtracted from
    zero and then negated. -/
def mul (p q : Poly) : Except Failure Poly := do
  requireSameRing p q
  if p.isZero || q.isZero then
    return zero p.ring
  let pBuffer ← p.toBuffer
  let qBuffer ← q.toBuffer
  let degree ← addDegrees p.degree q.degree
  let t ← Buffer.ofDegreeBound degree
  let t ← (Buffer.subProduct p.ring pBuffer qBuffer).finalState t
  return (t.negate p.ring).toPoly p.ring

/-- The sum of `p` and the term `a` times `q`. -/
def addTermMultiple (p q : Poly) (a : Term) : Except Failure Poly := do
  requireSameRing p q
  let degree ← addDegrees q.degree a.degree
  p.edited (max p.degree degree) (Buffer.addTermMultiple q a)

/-- The formal derivative. -/
def derivative (p : Poly) : Except Failure Poly := do
  let source ← p.toBuffer
  let t ← Buffer.ofDegreeBound (p.degree - 1)
  let t ← (Buffer.differentiate p.ring source).finalState t
  return t.toPoly p.ring

/-- The polynomial divided by its content over the integers, with a positive leading coefficient
    there. -/
def primitivePart (p : Poly) : Except Failure Poly :=
  p.edited p.degree (Buffer.makePrimitive true)

end Univariate.Poly
