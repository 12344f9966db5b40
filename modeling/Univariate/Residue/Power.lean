/-!
# Powers modulo `m`

* `Residue.power` raises to a power by repeated squaring, with every intermediate value reduced,
  so that large exponents stay cheap. Modulo zero nothing is reduced.
-/

namespace Univariate.Residue

/-- The least residue of `b ^ n` modulo `m`. -/
def power (b : Int) (n : Nat) (m : Int) : Int :=
  if n = 0 then
    1 % m
  else if n % 2 = 0 then
    power (b * b % m) (n / 2) m
  else
    b * power (b * b % m) (n / 2) m % m
termination_by n
decreasing_by all_goals omega

end Univariate.Residue
