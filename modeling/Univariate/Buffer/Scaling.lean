import Univariate.Buffer.Edit
import Univariate.CoeffRing.Quotient

/-!
# Scaling

Multiplication and exact division of all coefficients of a buffer by a scalar, negation, and
division by the content.

* `Buffer.scale` may lower the degree: modulo a composite number, the product of the leading
  coefficient and a non-zero scalar may vanish.
* `Buffer.unscale` goes through the coefficients from the constant one up. Where the scalar does
  not divide, it faults, with the coefficients below already divided.
* `Buffer.content` is the greatest common divisor of the coefficients, and `Buffer.makePrimitive`
  divides by it over the integers.
-/

namespace Univariate.Buffer

/-- Multiplies the coefficients by `c`. -/
def scale (R : CoeffRing) (c : Int) : Edit Unit := do
  if R.isZero c then
    Action.refuse .zeroScalar
  modify fun t => (t.mapNonzero (R.mul · c)).trim R

/-- Divides the non-zero integers by `c` in `count` consecutive slots, the first being that of
    `x ^ i`. -/
def divideSlots (R : CoeffRing) (c : Int) (i : Nat) : (count : Nat) → Edit Unit
  | 0 => pure ()
  | count + 1 => do
    let a := (← get).slot i
    if a ≠ 0 then
      let q ← Action.give (R.exactQuotient a c)
      modify (·.put i q)
    divideSlots R c (i + 1) count

/-- Divides the coefficients by `c`, which must divide them. -/
def unscale (R : CoeffRing) (c : Int) : Edit Unit := do
  if R.isZero c then
    Action.refuse .zeroScalar
  divideSlots R c 0 (← get).size
  modify (·.trim R)

/-- The opposite coefficients. -/
def negate (R : CoeffRing) (t : Buffer) : Buffer :=
  (t.mapNonzero R.neg).trim R

/-- The greatest common divisor of the coefficients, zero for the zero polynomial. -/
def content (t : Buffer) : Nat :=
  t.coefficients.foldr (fun c g => Nat.gcd g c.natAbs) 0

/-- The divisor that makes a polynomial primitive: its content, or the opposite of it when the
    leading coefficient is to become positive and is negative. -/
def primitiveDivisor (t : Buffer) (positive : Bool) : Int :=
  if positive && decide (t.leading < 0) then -t.content else t.content

/-- Divides the coefficients by the content over the integers, and with `positive` also by the
    sign of the leading coefficient. The zero polynomial is left alone. -/
def makePrimitive (positive : Bool) : Edit Unit := do
  let t ← get
  if t.isZero then
    return
  if t.content = 0 then
    Action.give (.error (.faulted .contentNotPositive))
  set (t.mapNonzero (· / t.primitiveDivisor positive))

/-! ## What an edit leaves -/

theorem run_scale (R : CoeffRing) (c : Int) (t : Buffer) :
    (scale R c).run t =
      if R.isZero c then
        .error (.refused .zeroScalar) t
      else
        .ok () ((t.mapNonzero (R.mul · c)).trim R) := by
  by_cases h : R.isZero c <;> simp [scale, h]

theorem run_makePrimitive (positive : Bool) (t : Buffer) :
    (makePrimitive positive).run t =
      if t.isZero then
        .ok () t
      else if t.content = 0 then
        .error (.faulted .contentNotPositive) t
      else
        .ok () (t.mapNonzero (· / t.primitiveDivisor positive)) := by
  by_cases h : t.isZero <;> by_cases h' : t.content = 0 <;> simp [makePrimitive, h, h']

end Univariate.Buffer
