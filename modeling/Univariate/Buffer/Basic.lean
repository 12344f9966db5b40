import Univariate.Text

/-!
# Buffers

A *buffer* holds the coefficients of a polynomial in a fixed number of slots, indexed by exponent.
Its first `size` slots are *significant*; the number of slots is its *capacity* and never changes.
Buffers are sized from degree bounds ahead of a computation and then edited in place (see
`Univariate.Buffer.Edit`), in whichever ring the edit names: a buffer does not know a ring.

* `Buffer.slot` is the view: the integer at an exponent, zero beyond the capacity.
* `Buffer.WellFormed` is what every edit keeps: there is a significant slot, the significant slots
  lie within the capacity, and the others hold zero. The highest significant slot may hold zero.
* `Buffer.trim` drops the highest significant slots as long as they are zero in a ring.
-/

namespace Univariate

/-- A polynomial in a fixed number of coefficient slots. -/
structure Buffer where
  /-- The number of significant slots. -/
  size : Nat
  /-- All slots, the constant coefficient first. -/
  slots : Array Int
  deriving DecidableEq

namespace Buffer

/-! ## Queries -/

section Queries

variable (t : Buffer)

/-- The number of slots. -/
def capacity : Nat :=
  t.slots.size

/-- The degree, `0` for the zero polynomial. -/
def degree : Nat :=
  t.size - 1

/-- The integer in the slot of `x ^ i`. -/
def slot (i : Nat) : Int :=
  t.slots[i]?.getD 0

/-- The significant coefficients, the constant one first. -/
def coefficients : List Int :=
  t.slots.toList.take t.size

/-- The coefficient of `x ^ i`, if its slot is significant. -/
def coefficient? (i : Nat) : Option Int :=
  t.coefficients[i]?

/-- The coefficient in the highest significant slot. -/
def leading : Int :=
  t.slot t.degree

/-- Whether the buffer holds the constant zero in a single significant slot. -/
def isZero : Bool :=
  t.size == 1 && t.slot 0 == 0

/-- Whether two buffers have the same significant coefficients; the capacities do not matter. -/
def sameCoefficients (u : Buffer) : Bool :=
  t.coefficients == u.coefficients

/-- The text of the polynomial in a buffer. -/
def text : String :=
  Text.descending (Term.listFrom 0 t.coefficients).reverse

/-- The significant slots lie within the capacity, and the other slots hold zero. -/
structure WellFormed : Prop where
  /-- There is a significant slot. -/
  one_le_size : 1 ≤ t.size
  /-- The significant slots are slots. -/
  size_le_capacity : t.size ≤ t.capacity
  /-- The other slots hold zero. -/
  slot_eq_zero : ∀ i, t.size ≤ i → t.slot i = 0

end Queries

/-! ## Pure edits -/

/-- Puts `c` in the slot of `x ^ i`. -/
def put (t : Buffer) (i : Nat) (c : Int) : Buffer :=
  { t with slots := t.slots.setIfInBounds i c }

/-- Changes the integer in the slot of `x ^ i`. -/
def update (t : Buffer) (i : Nat) (f : Int → Int) : Buffer :=
  { t with slots := t.slots.modify i f }

/-- Puts zero in the slots from `lo` to below `hi`. -/
def zeroRange (t : Buffer) (lo hi : Nat) : Buffer :=
  { t with slots := t.slots.mapIdx fun i c => if lo ≤ i ∧ i < hi then 0 else c }

/-- Changes the non-zero significant coefficients. -/
def mapNonzero (t : Buffer) (f : Int → Int) : Buffer :=
  { t with slots := t.slots.mapIdx fun i c => if i < t.size ∧ c ≠ 0 then f c else c }

/-- The size left of `size` significant slots when the highest ones are dropped as long as they are
    zero in the ring. The constant coefficient stays. -/
def trimmedSize (R : CoeffRing) (t : Buffer) : (size : Nat) → Nat
  | n + 2 => if R.isZero (t.slot (n + 1)) then trimmedSize R t (n + 1) else n + 2
  | n => n

/-- Drops the highest significant coefficients as long as they are zero in the ring. -/
def trim (R : CoeffRing) (t : Buffer) : Buffer :=
  { t.zeroRange (trimmedSize R t t.size) t.size with size := trimmedSize R t t.size }

/-- The zero polynomial in the same slots. -/
def clear (t : Buffer) : Buffer :=
  { t.zeroRange 0 t.size with size := 1 }

/-- Makes the slots up to that of `x ^ degree` significant, then trims. -/
def resize (R : CoeffRing) (degree : Nat) (t : Buffer) : Buffer :=
  trim R { t with size := max t.size (degree + 1) }

/-! ## Construction -/

/-- The zero polynomial in `capacity` slots, of which there must be one. -/
def ofCapacity (capacity : Nat) : Except Failure Buffer :=
  if capacity = 0 then
    .error (.refused .noSlots)
  else
    .ok ⟨1, .replicate capacity 0⟩

/-- The zero polynomial with room for any polynomial of the given degree. -/
def ofDegreeBound (degree : Nat) : Except Failure Buffer := do
  let capacity ← addDegrees degree 1
  return ⟨1, .replicate capacity 0⟩

/-- The polynomial with the given coefficients, reduced into the ring, the constant one first, in
    `capacity` slots. -/
def ofCoefficients (R : CoeffRing) (capacity : Nat) (cs : List Int) : Except Failure Buffer := do
  let t ← ofCapacity capacity
  if capacity < cs.length then
    throw (.refused (.noSlotFor (cs.length - 1) capacity))
  let slots := t.slots.mapIdx fun i c => (cs[i]?.map R.normalize).getD c
  return trim R ⟨max cs.length 1, slots⟩

end Buffer

end Univariate
