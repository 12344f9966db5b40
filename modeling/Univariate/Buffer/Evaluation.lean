import Univariate.Buffer.Basic

/-!
# Values and signs

The value of the polynomial in a buffer at an integer, by Horner's rule on the significant
coefficients, and the signs it takes far out on either side, which the leading coefficient and the
parity of the degree decide.
-/

namespace Univariate.Buffer

variable (t : Buffer)

/-- The value at `x`. -/
def evaluate (x : Int) : Int :=
  t.coefficients.foldr (fun c value => value * x + c) 0

/-- The sign of the value at `x`: `-1`, `0` or `1`. -/
def signAt (x : Int) : Int :=
  (t.evaluate x).sign

/-- The sign toward plus infinity: that of the leading coefficient. -/
def signAtPlusInfinity : Int :=
  t.leading.sign

/-- The sign toward minus infinity: that of the leading coefficient for an even degree, the opposite
    one for an odd degree. -/
def signAtMinusInfinity : Int :=
  if t.isZero then 0
  else if t.degree % 2 = 0 then t.signAtPlusInfinity
  else -t.signAtPlusInfinity

end Univariate.Buffer
