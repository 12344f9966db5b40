import Univariate.Term

/-!
# The text of a polynomial

A polynomial is written as the sum of its non-zero terms from the highest exponent down, as in
`-x^3 + 2x - 1`, and as `0` when it has none. The sign of the first term stands directly before
it, that of a later one between blanks; a coefficient one and the exponents zero and one are not
written.

* `Text.descending` writes the sum; the terms may hold zero coefficients, which are left out.
-/

namespace Univariate

namespace Text

/-- The text of `x ^ degree`, empty for the exponent zero. -/
def power : Nat → String
  | 0 => ""
  | 1 => "x"
  | d => s!"x^{d}"

/-- The text of a term without its sign: `7`, `x`, `7x`, `7x^2`. A coefficient one is left out
    unless it is the constant term. -/
def unsigned (a : Term) : String :=
  if a.degree = 0 ∨ a.coefficient.natAbs ≠ 1 then
    s!"{a.coefficient.natAbs}" ++ power a.degree
  else
    power a.degree

/-- The first term of a sum, its sign before it. -/
def first (a : Term) : String :=
  (if a.coefficient < 0 then "-" else "") ++ unsigned a

/-- A later term of a sum, its sign between it and the sum so far. -/
def next (a : Term) : String :=
  (if a.coefficient < 0 then " - " else " + ") ++ unsigned a

/-- The sum of terms given from the highest exponent down: `-x^3 + 2x - 1`, or `0`. Zero terms are
    left out. -/
def descending (terms : List Term) : String :=
  match terms.filter (·.coefficient ≠ 0) with
  | [] => "0"
  | a :: rest => first a ++ String.join (rest.map next)

end Text

end Univariate
