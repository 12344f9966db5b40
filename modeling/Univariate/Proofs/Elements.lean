import Mathlib.Data.Int.ModEq
import Mathlib.Data.ZMod.Basic
import Univariate.CoeffRing.Quotient

/-!
# The elements of a coefficient ring

A coefficient ring computes on integers that stand for elements. The elements are the integers
modulo the *characteristic* of the ring, zero for the ring of the integers (`CoeffRing.Element`),
and an integer stands for its class there, by the cast.

* Two integers stand for the same element exactly when they have the same canonical representative
  (`CoeffRing.normalize_eq_normalize_iff`), and a canonical integer is the only one of its class
  (`CoeffRing.eq_of_contains`).
* Each operation gives the canonical representative of the sum, the product, … of the elements:
  its cast is an equation (`CoeffRing.cast_mul`), and `CoeffRing.contains_normalize` says the rest.
  That of a power rests on repeated squaring (`Residue.power_modEq`).
-/

namespace Univariate

/-! ## Residues -/

namespace Residue

theorem least_modEq {m : Int} (hm : 0 < m) (x : Int) : least x m ≡ x [ZMOD m] := by
  rw [least_eq_emod hm]
  exact Int.mod_modEq x m

/-- A power of a reduced square has the residue of a power with twice the exponent. -/
theorem square_pow_modEq (b : Int) (k : Nat) (m : Int) :
    (b * b % m) ^ k ≡ b ^ (2 * k) [ZMOD m] := by
  rw [pow_mul, pow_two]
  exact (Int.mod_modEq (b * b) m).pow k

/-- Repeated squaring computes the residue of the power. -/
theorem power_modEq (b : Int) (n : Nat) (m : Int) : power b n m ≡ b ^ n [ZMOD m] := by
  fun_induction power b n m with
  | case1 =>
    rw [pow_zero]
    exact Int.mod_modEq 1 m
  | case2 b n _ heven ih =>
    have hn : 2 * (n / 2) = n := by omega
    have hsquare := square_pow_modEq b (n / 2) m
    rw [hn] at hsquare
    exact ih.trans hsquare
  | case3 b n _ hodd ih =>
    have hn : n = 2 * (n / 2) + 1 := by omega
    have hsquare := (ih.trans (square_pow_modEq b (n / 2) m)).mul_left b
    rw [← pow_succ', ← hn] at hsquare
    exact (Int.mod_modEq _ m).trans hsquare

end Residue

namespace CoeffRing

/-- The modulus of a ring, zero for the ring of the integers. -/
def characteristic : CoeffRing → Nat
  | integers => 0
  | modular m _ _ => m

/-- The elements of a ring. -/
abbrev Element (R : CoeffRing) : Type :=
  ZMod R.characteristic

variable {R : CoeffRing} {x y : Int}

/-! ## Representatives -/

/-- The canonical representatives of two integers agree when these stand for one element. -/
theorem normalize_eq_normalize_iff : R.normalize x = R.normalize y ↔ (x : R.Element) = y := by
  cases R with
  | integers => exact (Int.cast_inj (α := Int)).symm
  | modular m prime h =>
    rw [normalize_modular, normalize_modular, Int.bmod_eq_bmod_iff_bmod_sub_eq_zero,
      ← Int.dvd_iff_bmod_eq_zero, eq_comm]
    exact (ZMod.intCast_eq_intCast_iff_dvd_sub y x m).symm

/-- The canonical representative stands for the same element. -/
@[simp] theorem cast_normalize (R : CoeffRing) (x : Int) : (R.normalize x : R.Element) = x :=
  normalize_eq_normalize_iff.1 (normalize_of_contains (contains_normalize R x))

@[simp] theorem cast_renormalize (R : CoeffRing) (x : Int) : (R.renormalize x : R.Element) = x := by
  rw [renormalize_eq_normalize, cast_normalize]

theorem contains_renormalize (R : CoeffRing) (x : Int) : R.contains (R.renormalize x) = true := by
  rw [renormalize_eq_normalize]
  exact contains_normalize R x

/-- The canonical integers modulo `m` are those from `-m / 2` on, rounded up, that lie below
    `m / 2`. -/
theorem contains_modular_iff {m : Nat} {prime : Bool} (hm : 2 ≤ m) :
    (modular m prime hm).contains x = true ↔ -(m / 2 : Nat) ≤ x ∧ 2 * x < m := by
  rw [contains]
  split <;> simp only [Bool.and_eq_true, decide_eq_true_eq] <;> omega

/-- A canonical integer is the only one of its class. -/
theorem eq_of_contains (hx : R.contains x = true) (hy : R.contains y = true)
    (h : (x : R.Element) = y) : x = y := by
  rw [← normalize_of_contains hx, ← normalize_of_contains hy]
  exact normalize_eq_normalize_iff.2 h

/-! ## Zero -/

theorem contains_zero (R : CoeffRing) : R.contains 0 = true := by
  cases R with
  | integers => rfl
  | modular m prime h =>
    rw [contains_modular_iff]
    omega

/-- The zero test is that of the element. -/
theorem isZero_iff : R.isZero x = true ↔ (x : R.Element) = 0 := by
  rw [isZero, sign, beq_iff_eq, Int.sign_eq_zero_iff_zero, renormalize_eq_normalize]
  constructor
  · intro h
    rw [← cast_normalize, h, Int.cast_zero]
  · intro h
    refine eq_of_contains (contains_normalize R x) R.contains_zero ?_
    rw [cast_normalize, h, Int.cast_zero]

theorem isZero_eq_false_iff : R.isZero x = false ↔ (x : R.Element) ≠ 0 := by
  rw [← Bool.not_eq_true, isZero_iff]

/-- What is zero in a ring is a multiple of its characteristic. -/
theorem isZero_eq_false_iff_not_dvd : R.isZero x = false ↔ ¬(R.characteristic : Int) ∣ x := by
  rw [isZero_eq_false_iff, ne_eq, ZMod.intCast_zmod_eq_zero_iff_dvd]

@[simp] theorem isZero_zero (R : CoeffRing) : R.isZero 0 = true :=
  isZero_iff.2 Int.cast_zero

/-- What is not zero in a ring is not the integer zero. -/
theorem ne_zero_of_isZero_eq_false (h : R.isZero x = false) : x ≠ 0 := by
  rintro rfl
  rw [isZero_zero] at h
  cases h

/-- Among canonical integers, only the integer zero is zero in the ring. -/
theorem eq_zero_of_cast_eq_zero (hx : R.contains x = true) (h : (x : R.Element) = 0) : x = 0 :=
  eq_of_contains hx R.contains_zero (h.trans Int.cast_zero.symm)

/-- Over the integers, only the integer zero is zero. -/
theorem isZero_integers_eq_false (h : x ≠ 0) : integers.isZero x = false :=
  isZero_eq_false_iff.2 fun hcast => h (eq_zero_of_cast_eq_zero (R := integers) rfl hcast)

theorem isZero_integers_eq_false_iff : integers.isZero x = false ↔ x ≠ 0 :=
  ⟨ne_zero_of_isZero_eq_false, isZero_integers_eq_false⟩

theorem isZero_integers_iff : integers.isZero x = true ↔ x = 0 := by
  rw [← Bool.not_eq_false, isZero_integers_eq_false_iff, not_not]

/-- There are two elements at least. -/
theorem cast_one_ne_zero (R : CoeffRing) : ((1 : Int) : R.Element) ≠ 0 := by
  rw [← isZero_eq_false_iff]
  cases R with
  | integers => rfl
  | modular m prime h =>
    have : Fact (1 < m) := ⟨h⟩
    rw [isZero_eq_false_iff, Int.cast_one]
    exact one_ne_zero (α := ZMod m)

instance (R : CoeffRing) : Nontrivial R.Element :=
  ⟨⟨_, _, R.cast_one_ne_zero⟩⟩

/-! ## Operations -/

variable (R) (a b acc : Int)

@[simp] theorem cast_add : (R.add a b : R.Element) = a + b := by
  rw [CoeffRing.add, cast_normalize, Int.cast_add]

@[simp] theorem cast_sub : (R.sub a b : R.Element) = a - b := by
  rw [CoeffRing.sub, cast_normalize, Int.cast_sub]

@[simp] theorem cast_neg : (R.neg a : R.Element) = -a := by
  rw [CoeffRing.neg, cast_normalize, Int.cast_neg]

@[simp] theorem cast_mul : (R.mul a b : R.Element) = a * b := by
  rw [CoeffRing.mul, cast_normalize, Int.cast_mul]

@[simp] theorem cast_mulInt (c : Int64) : (R.mulInt a c : R.Element) = a * c.toInt := by
  rw [mulInt, cast_normalize, Int.cast_mul]

@[simp] theorem cast_addMul : (R.addMul acc a b : R.Element) = acc + a * b := by
  rw [addMul, cast_renormalize, Int.cast_add, Int.cast_mul]

@[simp] theorem cast_addMulInt (c : Int64) :
    (R.addMulInt acc a c : R.Element) = acc + a * c.toInt := by
  rw [addMulInt, cast_renormalize, Int.cast_add, Int.cast_mul]

@[simp] theorem cast_subMul : (R.subMul acc a b : R.Element) = acc - a * b := by
  rw [subMul, cast_renormalize, Int.cast_sub, Int.cast_mul]

@[simp] theorem cast_pow (n : Nat) : (R.pow a n : R.Element) = (a : R.Element) ^ n := by
  cases R with
  | integers =>
    rw [← Int.cast_pow]
    exact (ZMod.intCast_eq_intCast_iff _ _ 0).2 (Residue.power_modEq a n 0)
  | modular m prime h =>
    rw [pow, cast_normalize, ← Int.cast_pow]
    refine (ZMod.intCast_eq_intCast_iff _ _ m).2 ?_
    exact (Residue.power_modEq _ n m).trans ((Residue.least_modEq (by omega) a).pow n)

end CoeffRing

end Univariate
