import Univariate.Action
import Univariate.Buffer.Basic

/-!
# Edits

An *edit* is an action on a buffer: it changes the buffer in place, and when it fails it still
says what the buffer then holds.

* `Buffer.requireSlot` refuses an exponent without a slot. Every edit that writes asks for its
  highest exponent before the first write.
* `Buffer.copy` copies the significant part of another buffer, `Buffer.expose` makes slots
  significant without writing them, so that the highest significant slot may hold zero.
* `Buffer.write` puts a coefficient in a slot and makes it significant.
-/

namespace Univariate

/-- An action that changes a buffer in place. -/
abbrev Edit (α : Type) := Action Buffer α

namespace Buffer

/-- Refuses unless there is a slot for `x ^ degree`. -/
def requireSlot (degree : Nat) : Edit Unit := do
  let t ← get
  if t.capacity ≤ degree then
    Action.refuse (.noSlotFor degree t.capacity)

/-- The significant part of `source` in the slots of `t`, with zero in the slots that were
    significant beyond it. -/
def copied (t source : Buffer) : Buffer :=
  ⟨source.size, t.slots.mapIdx fun i c =>
    if i < source.size then source.slot i else if i < t.size then 0 else c⟩

/-- Copies the significant part of `source`. -/
def copy (source : Buffer) : Edit Unit := do
  requireSlot source.degree
  modify (·.copied source)

/-- Makes the slots up to that of `x ^ degree` significant. -/
def expose (degree : Nat) : Edit Unit := do
  if (← get).size ≤ degree then
    requireSlot degree
    modify ({ · with size := degree + 1 })

/-- Puts `c` in the slot of `x ^ i` and makes the slots up to it significant. -/
def write (i : Nat) (c : Int) : Edit Unit := do
  modify (·.put i c)
  expose i

/-! ## What an edit leaves -/

theorem run_requireSlot (degree : Nat) (t : Buffer) :
    (requireSlot degree).run t =
      if t.capacity ≤ degree then
        .error (.refused (.noSlotFor degree t.capacity)) t
      else
        .ok () t := by
  by_cases h : t.capacity ≤ degree <;> simp [requireSlot, h]

theorem run_copy (source t : Buffer) :
    (copy source).run t =
      if t.capacity ≤ source.degree then
        .error (.refused (.noSlotFor source.degree t.capacity)) t
      else
        .ok () (t.copied source) := by
  by_cases h : t.capacity ≤ source.degree <;> simp [copy, run_requireSlot, h]

theorem run_expose (degree : Nat) (t : Buffer) :
    (expose degree).run t =
      if degree < t.size then
        .ok () t
      else if t.capacity ≤ degree then
        .error (.refused (.noSlotFor degree t.capacity)) t
      else
        .ok () { t with size := degree + 1 } := by
  by_cases h : t.size ≤ degree <;> by_cases h' : t.capacity ≤ degree <;>
    simp [expose, run_requireSlot, h, h', Nat.not_lt.2, Nat.lt_of_not_le]

/-- Where there is a slot for the exponent, making it significant succeeds. -/
theorem run_expose_of_lt {degree : Nat} {t : Buffer} (h : degree < t.capacity) :
    (expose degree).run t = .ok () { t with size := max t.size (degree + 1) } := by
  rw [run_expose]
  split
  · next hs => rw [Nat.max_eq_left hs]
  · next hs => rw [if_neg (Nat.not_le.2 h), Nat.max_eq_right (by omega)]

theorem run_write (i : Nat) (c : Int) (t : Buffer) :
    (write i c).run t = (expose i).run (t.put i c) := by
  simp [write]

end Buffer

end Univariate
