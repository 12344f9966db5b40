import Univariate.CoeffRing.Arithmetic

/-!
# Terms

A *term* is `c * x ^ d` for an integer `c` and an exponent `d`. Its coefficient need not be
canonical in any ring: `Term.ofInt` reduces it into one, `Term.power` and the structure itself do
not.

* `Term.isTrivial` singles out the constant term zero. A zero coefficient at a positive exponent
  is still a shift.
* `Term.listFrom` turns a list of coefficients into terms at consecutive exponents.
* `Term.text` writes a term by itself. A sum of terms has another text, see `Univariate.Text`.
-/

namespace Univariate

/-- The term `coefficient * x ^ degree`. -/
structure Term where
  /-- The exponent of `x`. -/
  degree : Nat
  /-- The coefficient of `x ^ degree`. -/
  coefficient : Int
  deriving DecidableEq

namespace Term

/-- The term `c * x ^ degree` with `c` reduced into the ring. -/
def ofInt (R : CoeffRing) (degree : Nat) (c : Int) : Term :=
  ⟨degree, R.normalize c⟩

/-- The term `c * x ^ degree` with the machine integer `c` reduced into the ring. -/
def ofInt64 (R : CoeffRing) (degree : Nat) (c : Int64) : Term :=
  ofInt R degree c.toInt

/-- The term `x ^ degree`. -/
def power (degree : Nat) : Term :=
  ⟨degree, 1⟩

/-- Whether the term is the constant zero. -/
def isTrivial (a : Term) : Bool :=
  a.degree == 0 && a.coefficient == 0

/-- The text of a single term: `5`, `5*x`, `5*x^2`. -/
def text (a : Term) : String :=
  match a.degree with
  | 0 => s!"{a.coefficient}"
  | 1 => s!"{a.coefficient}*x"
  | d => s!"{a.coefficient}*x^{d}"

/-- The coefficients `cs` as terms, from the exponent `d` on. -/
def listFrom (d : Nat) : List Int → List Term
  | [] => []
  | c :: cs => ⟨d, c⟩ :: listFrom (d + 1) cs

theorem le_degree_of_mem_listFrom {d : Nat} {cs : List Int} {a : Term}
    (ha : a ∈ listFrom d cs) : d ≤ a.degree := by
  induction cs generalizing d with
  | nil => simp [listFrom] at ha
  | cons c cs ih =>
    rw [listFrom, List.mem_cons] at ha
    rcases ha with rfl | ha
    · exact Nat.le_refl d
    · exact Nat.le_of_succ_le (ih ha)

theorem pairwise_listFrom (d : Nat) (cs : List Int) :
    (listFrom d cs).Pairwise (·.degree < ·.degree) := by
  induction cs generalizing d with
  | nil => exact .nil
  | cons c cs ih => exact .cons (fun _ ha => le_degree_of_mem_listFrom ha) (ih (d + 1))

end Term

end Univariate
