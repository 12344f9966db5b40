/-!
# Trial division

Primality of a natural number, settled by trying the odd candidates up to the square root. The
bound is tested as `i ≤ n / i` rather than `i * i ≤ n`, so that no intermediate value exceeds `n`.
-/

namespace Univariate

/-- None of `i`, `i + 2`, `i + 4`, … up to the square root of `n` divides `n`. -/
def noFactorFrom (n i : Nat) : Bool :=
  if i ≤ n / i then
    if n % i = 0 then false else noFactorFrom n (i + 2)
  else
    true
termination_by n + 1 - i
decreasing_by
  have := Nat.div_le_self n i
  omega

/-- Whether `n` is prime: `2` and `3` are, other even numbers are not, and an odd number is when no
    odd candidate from `3` on divides it. -/
def isPrime (n : Nat) : Bool :=
  if n < 2 then false
  else if n < 4 then true
  else if n % 2 = 0 then false
  else noFactorFrom n 3

end Univariate
