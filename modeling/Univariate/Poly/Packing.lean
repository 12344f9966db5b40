import Univariate.Buffer.Edit
import Univariate.Poly.Basic

/-!
# Unpacking and packing

A polynomial is unpacked into coefficient slots to be computed with, and packed again when the
computation is done.

* `Poly.unpack` zeroes the slots of an array up to that of the degree, and writes the terms to
  them. The other slots are left alone.
* `Buffer.ofPoly` unpacks into a fresh buffer of a given capacity, `Poly.toBuffer` into one of the
  least capacity that holds the polynomial. `Buffer.toPoly` packs the significant coefficients of
  a buffer over a ring.
-/

namespace Univariate

/-- Writes the coefficients of `p`, the zeros among them too, into the first slots of an array. -/
def Poly.unpack (p : Poly) : Action (Array Int) Unit := do
  let slots ← get
  if slots.size ≤ p.degree then
    Action.refuse (.noSlotFor p.degree slots.size)
  set (p.scatter (slots.mapIdx fun i c => if i ≤ p.degree then 0 else c))

theorem Poly.run_unpack (p : Poly) (slots : Array Int) :
    p.unpack.run slots =
      if slots.size ≤ p.degree then
        .error (.refused (.noSlotFor p.degree slots.size)) slots
      else
        .ok () (p.scatter (slots.mapIdx fun i c => if i ≤ p.degree then 0 else c)) := by
  by_cases h : slots.size ≤ p.degree <;> simp [unpack, h]

namespace Buffer

/-- The polynomial `p` in `capacity` slots. -/
def ofPoly (capacity : Nat) (p : Poly) : Except Failure Buffer := do
  if capacity ≤ p.degree then
    throw (.refused (.noSlotFor p.degree capacity))
  let slots ← p.unpack.finalState (.replicate capacity 0)
  return ⟨p.degree + 1, slots⟩

/-- The significant coefficients as a polynomial over the ring. -/
def toPoly (R : CoeffRing) (t : Buffer) : Poly :=
  .ofSlots R t.coefficients

end Buffer

/-- The polynomial `p` in a buffer with room for just its degree. -/
def Poly.toBuffer (p : Poly) : Except Failure Buffer := do
  let capacity ← addDegrees p.degree 1
  Buffer.ofPoly capacity p

end Univariate
