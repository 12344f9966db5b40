import Univariate.Failure

/-!
# Residues

An integer modulo `m` has two representatives of interest: the *least* one, in `[0, m)`, and the
*centred* one, in `[-m/2, m/2)` when `m` is even and `[-(m-1)/2, (m-1)/2]` when it is odd.

* `Residue.least` and `Residue.centered` compute them. The half modulus is an argument of
  `centered`, as callers hold it; any other value of it moves the window.
* For a positive modulus the least residue is the Euclidean remainder (`least_eq_emod`), and the
  centred one with `half = m / 2` is the balanced remainder (`centered_eq_bmod`).
* `Residue.reduce` and `Residue.center` are the same for an arbitrary modulus: modulo zero there
  is no residue, and they fault.
-/

namespace Univariate.Residue

/-- The remainder of `x` by `m` rounding toward zero, moved up by `m` when it is negative. -/
def least (x m : Int) : Int :=
  if x.tmod m < 0 then x.tmod m + m else x.tmod m

/-- The least residue of `x`, moved down by `m` when it lies past the window around zero: strictly
    above `half` for an odd modulus, at `half` or above for an even one. -/
def centered (x m half : Int) : Int :=
  if m % 2 = 0 then
    if half ≤ least x m then least x m - m else least x m
  else
    if half < least x m then least x m - m else least x m

/-- A value computed modulo `m`, unless `m` is zero. -/
def modulo {α : Type} (m : Int) (value : α) : Except Failure α :=
  if m = 0 then .error (.faulted .zeroDivide) else .ok value

/-- The least residue of `x` modulo an arbitrary `m`. -/
def reduce (x m : Int) : Except Failure Int :=
  modulo m (least x m)

/-- The residue of `x` modulo an arbitrary `m`, centred around zero by `half`. -/
def center (x m half : Int) : Except Failure Int :=
  modulo m (centered x m half)

/-! ## Positive moduli -/

theorem least_eq_emod {m : Int} (hm : 0 < m) (x : Int) : least x m = x % m := by
  unfold least
  have h₀ := Int.emod_nonneg x (by omega : m ≠ 0)
  have h₁ := Int.emod_lt_of_pos x hm
  rw [Int.tmod_eq_emod]
  split
  · rw [if_neg (by omega)]; omega
  · rw [if_pos (by omega)]; omega

theorem centered_eq_bmod {m : Nat} (hm : 0 < m) (x : Int) :
    centered x m (m / 2 : Nat) = x.bmod m := by
  unfold centered
  rw [least_eq_emod (by omega), Int.bmod_def]
  split <;> split <;> split <;> omega

end Univariate.Residue
