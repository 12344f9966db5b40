import Univariate.Residue.Basic

/-!
# Inverses modulo `m`

The inverse of `a` modulo `m` comes from Euclid's algorithm on `a` and `m`, which carries along
the multiple of `a` that each remainder is, modulo `m`.

* `Residue.euclid` is the algorithm; it ends with the greatest common divisor and its multiplier.
* `Residue.inverse?` is the inverse as a least residue, when `a` and `m` are coprime.
-/

namespace Univariate.Residue

/-- Euclid's algorithm on two consecutive remainders `r`, `r'` and their multipliers `s`, `s'`. It
    ends with the last non-zero remainder, made non-negative, and its multiplier. -/
def euclid (r s r' s' : Int) : Int × Int :=
  if r' = 0 then
    if r < 0 then (-r, -s) else (r, s)
  else
    euclid r' s' (r.tmod r') (s - r.tdiv r' * s')
termination_by r'.natAbs
decreasing_by
  rw [Int.natAbs_tmod]
  exact Nat.mod_lt _ (by omega)

/-- The `x` in `[0, m)` with `a * x` congruent to `1` modulo `m`; there is none unless `a` and `m`
    are coprime. -/
def inverse? (a m : Int) : Option Int :=
  let (g, x) := euclid (least a m) 1 m 0
  if g = 1 then some (least x m) else none

/-- The inverse of `a` modulo an arbitrary `m`. -/
def invert (a m : Int) : Except Failure (Option Int) :=
  modulo m (inverse? a m)

end Univariate.Residue
