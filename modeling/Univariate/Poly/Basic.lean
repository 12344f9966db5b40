import Univariate.Text

/-!
# Polynomials

A *polynomial* over a coefficient ring is the list of its non-zero terms, in strictly ascending
order of their exponents and with canonical coefficients. Each polynomial has exactly one such
list, so that equality of polynomials over a ring is equality of values.

* `Poly.coeff` is the view: the coefficient of each exponent, zero where there is no term.
* `Poly.ofAscending` reduces the coefficients of an ascending list of terms into the ring and
  drops those that vanish. `Poly.ofSlots` reads a list of coefficients by position, `Poly.ofTerms`
  (in `Univariate.Poly.Collection`) sums up terms in any order.
* `Poly.scatter` writes the terms to an array, by their exponents, from which `Poly.toCoefficients`
  lists the coefficients.
* The zero polynomial has no terms, no leading coefficient, and degree `0`.
-/

namespace Univariate

/-- A polynomial over a coefficient ring, by its non-zero terms. -/
structure Poly where
  /-- The ring of the coefficients. -/
  ring : CoeffRing
  /-- The non-zero terms. -/
  terms : List Term
  /-- The exponents ascend strictly. -/
  ascending : terms.Pairwise (·.degree < ·.degree)
  /-- The coefficients are canonical and not zero. -/
  canonical : ∀ a ∈ terms, ring.contains a.coefficient = true ∧ a.coefficient ≠ 0
  deriving DecidableEq

namespace Poly

/-! ## Construction -/

/-- The zero polynomial. -/
def zero (R : CoeffRing) : Poly :=
  ⟨R, [], .nil, by simp⟩

/-- The sum of terms given in strictly ascending order of their exponents. -/
def ofAscending (R : CoeffRing) (terms : List Term)
    (ascending : terms.Pairwise (·.degree < ·.degree)) : Poly where
  ring := R
  terms := (terms.map fun a => .ofInt R a.degree a.coefficient).filter (·.coefficient ≠ 0)
  ascending := .filter _ (.map _ (fun _ _ h => h) ascending)
  canonical a ha := by
    rw [List.mem_filter, List.mem_map] at ha
    obtain ⟨⟨b, _, rfl⟩, hb⟩ := ha
    exact ⟨R.contains_normalize _, by simpa using hb⟩

/-- The polynomial with the coefficient `cs[i]` at the exponent `i`. -/
def ofSlots (R : CoeffRing) (cs : List Int) : Poly :=
  ofAscending R (Term.listFrom 0 cs) (Term.pairwise_listFrom 0 cs)

/-- The polynomial with the given coefficients, the constant one first. There must be one. -/
def ofCoefficients (R : CoeffRing) (cs : List Int) : Except Failure Poly :=
  if cs.isEmpty then .error (.refused .noCoefficients) else .ok (ofSlots R cs)

/-- The polynomial with the given machine integers as coefficients, the constant one first. -/
def ofInts (R : CoeffRing) (cs : List Int64) : Except Failure Poly :=
  ofCoefficients R (cs.map Int64.toInt)

/-- The constant polynomial `c`. -/
def const (R : CoeffRing) (c : Int) : Poly :=
  ofSlots R [c]

/-! ## Queries -/

variable (p : Poly)

/-- The coefficient of `x ^ d`. -/
def coeff (d : Nat) : Int :=
  match p.terms.find? (·.degree == d) with
  | some a => a.coefficient
  | none => 0

/-- The degree, `0` for the zero polynomial. -/
def degree : Nat :=
  match p.terms.getLast? with
  | some a => a.degree
  | none => 0

/-- Whether the polynomial is zero. -/
def isZero : Bool :=
  p.terms.isEmpty

/-- The leading coefficient, if the polynomial is not zero. -/
def leading? : Option Int :=
  p.terms.getLast?.map (·.coefficient)

/-- Writes the coefficient of each term to the slot of its exponent. -/
def scatter (slots : Array Int) : Array Int :=
  p.terms.foldl (fun slots a => slots.setIfInBounds a.degree a.coefficient) slots

/-- The coefficients from the constant one to the leading one. -/
def toCoefficients : Except Failure (List Int) := do
  let count ← addDegrees p.degree 1
  return (p.scatter (.replicate count 0)).toList

/-- The greatest common divisor of the coefficients, zero for the zero polynomial. -/
def content : Nat :=
  p.terms.foldl (fun g a => Nat.gcd g a.coefficient.natAbs) 0

/-- The text of a polynomial. -/
def text : String :=
  Text.descending p.terms.reverse

/-- The opposite polynomial. -/
def neg : Poly :=
  ofAscending p.ring (p.terms.map fun a => ⟨a.degree, -a.coefficient⟩)
    (.map _ (fun _ _ h => h) p.ascending)

end Poly

end Univariate
