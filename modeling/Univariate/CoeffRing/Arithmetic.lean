import Univariate.Residue.Basic
import Univariate.Residue.Power

/-!
# Arithmetic in a coefficient ring

An element of a coefficient ring is stood for by an integer, and every element has one *canonical*
representative: each integer itself over the integers, the centred residue modulo `m`.

* `CoeffRing.contains` tests whether an integer is canonical, by its range alone;
* `CoeffRing.normalize` maps an integer to the canonical representative of its class, and
  `CoeffRing.renormalize` does so only where the range test fails. Both agree
  (`renormalize_eq_normalize`), and what they give is canonical (`contains_normalize`).
* The operations take arbitrary integers and give canonical ones.
-/

namespace Univariate.CoeffRing

/-- Whether `x` is a canonical representative. -/
def contains : CoeffRing → Int → Bool
  | integers, _ => true
  | modular m _ _, x =>
      if m % 2 = 0 then
        decide (-(m / 2 : Nat) ≤ x) && decide (x < (m / 2 : Nat))
      else
        decide (-(m / 2 : Nat) ≤ x) && decide (x ≤ (m / 2 : Nat))

/-- The canonical representative of `x`. -/
def normalize : CoeffRing → Int → Int
  | integers, x => x
  | modular m _ _, x => Residue.centered x m (m / 2 : Nat)

/-- The canonical representative of `x`, without computing it when `x` already is one. -/
def renormalize (R : CoeffRing) (x : Int) : Int :=
  if R.contains x then x else R.normalize x

/-- The sign of the canonical representative of `x`: `-1`, `0` or `1`. -/
def sign (R : CoeffRing) (x : Int) : Int :=
  (R.renormalize x).sign

/-- Whether `x` is zero in the ring. -/
def isZero (R : CoeffRing) (x : Int) : Bool :=
  R.sign x == 0

/-- The order of the canonical representatives of `a` and `b`. -/
protected def compare (R : CoeffRing) (a b : Int) : Ordering :=
  compare (R.normalize a) (R.normalize b)

/-- The sum `a + b`. -/
def add (R : CoeffRing) (a b : Int) : Int :=
  R.normalize (a + b)

/-- The difference `a - b`. -/
def sub (R : CoeffRing) (a b : Int) : Int :=
  R.normalize (a - b)

/-- The opposite `-a`. -/
def neg (R : CoeffRing) (a : Int) : Int :=
  R.normalize (-a)

/-- The product `a * b`. -/
def mul (R : CoeffRing) (a b : Int) : Int :=
  R.normalize (a * b)

/-- The multiple `a * c` by a machine integer. -/
def mulInt (R : CoeffRing) (a : Int) (c : Int64) : Int :=
  R.normalize (a * c.toInt)

/-- The accumulator `acc` raised by `a * b`. -/
def addMul (R : CoeffRing) (acc a b : Int) : Int :=
  R.renormalize (acc + a * b)

/-- The accumulator `acc` raised by `a * c`, for a machine integer `c`. -/
def addMulInt (R : CoeffRing) (acc a : Int) (c : Int64) : Int :=
  R.renormalize (acc + a * c.toInt)

/-- The accumulator `acc` lowered by `a * b`. -/
def subMul (R : CoeffRing) (acc a b : Int) : Int :=
  R.renormalize (acc - a * b)

/-- The power `a ^ n`. -/
def pow : CoeffRing → Int → Nat → Int
  | integers, a, n => Residue.power a n 0
  | R@(modular m _ _), a, n => R.normalize (Residue.power (Residue.least a m) n m)

/-! ## Canonical representatives -/

theorem normalize_modular {m : Nat} {prime : Bool} (h : 2 ≤ m) (x : Int) :
    (modular m prime h).normalize x = x.bmod m :=
  Residue.centered_eq_bmod (by omega) x

theorem contains_normalize (R : CoeffRing) (x : Int) : R.contains (R.normalize x) = true := by
  match R with
  | integers => rfl
  | modular m _ h =>
    rw [normalize_modular, contains]
    have h₁ := Int.le_bmod (x := x) (m := m) (by omega)
    have h₂ := Int.bmod_lt (x := x) (m := m) (by omega)
    split <;> simp only [Bool.and_eq_true, decide_eq_true_eq] <;> omega

theorem normalize_of_contains {R : CoeffRing} {x : Int} (hx : R.contains x = true) :
    R.normalize x = x := by
  match R with
  | integers => rfl
  | modular m _ h =>
    rw [normalize_modular]
    rw [contains] at hx
    apply Int.bmod_eq_of_le_mul_two
    all_goals
      split at hx <;> simp only [Bool.and_eq_true, decide_eq_true_eq] at hx <;> omega

theorem renormalize_eq_normalize (R : CoeffRing) (x : Int) : R.renormalize x = R.normalize x := by
  unfold renormalize
  split
  · next hx => exact (normalize_of_contains hx).symm
  · rfl

end Univariate.CoeffRing
