import Univariate.Buffer.Edit
import Univariate.Buffer.Slots

/-!
# Derivatives

The formal derivative of the polynomial in one buffer, written into another. Modulo `m` it may
lose more than one degree, or vanish, where `m` divides an exponent.
-/

namespace Univariate.Buffer

/-- Puts `c * i` in the slot of `x ^ (i - 1)`, for each non-zero significant coefficient `c` of
    `source` at a positive exponent `i`. The exponents act as machine integers. -/
def putDerivative (t : Buffer) (R : CoeffRing) (source : Buffer) : Buffer :=
  { t with slots := t.slots.mapIdx fun i c =>
      if i + 1 < source.size ∧ source.slot (i + 1) ≠ 0 then
        R.mulInt (source.slot (i + 1)) (.ofNat (i + 1))
      else
        c }

/-- Replaces the polynomial by the derivative of the one in the buffer `source`. -/
def differentiate (R : CoeffRing) (source : Buffer) : Edit Unit := do
  if 0 < source.degree then
    requireSlot (source.degree - 1)
  modify clear
  if source.degree = 0 then
    return
  modify (·.putDerivative R source)
  expose (source.degree - 1)
  modify (·.trim R)

@[simp] theorem capacity_putDerivative (t : Buffer) (R : CoeffRing) (source : Buffer) :
    (t.putDerivative R source).capacity = t.capacity := by
  simp [putDerivative, capacity]

/-- The derivative comes to lie in a cleared buffer, whose size then follows it. -/
theorem run_differentiate (R : CoeffRing) (source t : Buffer) :
    (differentiate R source).run t =
      if source.degree = 0 then
        .ok () t.clear
      else if t.capacity < source.degree then
        .error (.refused (.noSlotFor (source.degree - 1) t.capacity)) t
      else
        .ok () ((t.clear.putDerivative R source).resize R (source.degree - 1)) := by
  match hd : source.degree with
  | 0 => simp [differentiate, hd]
  | d + 1 =>
    by_cases h : t.capacity ≤ d
    · simp [differentiate, run_requireSlot, hd, h, Nat.lt_succ_of_le h]
    · have hs : d < (t.clear.putDerivative R source).capacity := by simpa using h
      have hle : ¬t.capacity < d + 1 := Nat.not_lt.2 (Nat.lt_of_not_le h)
      simp [differentiate, run_requireSlot, run_expose_of_lt hs, resize, hd, h, hle]

end Univariate.Buffer
