import Mathlib.Data.List.Forall2
import Univariate.Proofs.Elements

/-!
# Canonical representatives

Every element of a coefficient ring has one canonical representative (`CoeffRing.Represents`), and
arithmetic on arbitrary integers gives the canonical representatives of what it is to compute.

* Modulo `m`, the canonical representatives are the integers in a window around zero
  (`Residue.InWindow`), and `CoeffRing.normalize_represents` says that the range test, the
  normalization, its two shortcuts, the sign, the zero test and the comparison all go by them.
* `CoeffRing.operations_represent` is about the operations: their results depend on the elements
  only that their arguments stand for, and satisfy the laws of a commutative ring as they are, as
  integers.
-/

namespace Univariate

/-- The integers around zero that stand for the elements modulo `m`: as many above zero as below
    for an odd `m`, one more below for an even one. -/
def Residue.InWindow (m x : Int) : Prop :=
  if m % 2 = 0 then -(m / 2) ≤ x ∧ x ≤ m / 2 - 1 else -((m - 1) / 2) ≤ x ∧ x ≤ (m - 1) / 2

namespace CoeffRing

variable {R : CoeffRing} {x y : Int} {e : R.Element}

/-- The integer `x` is the canonical representative of the element `e`. -/
structure Represents (R : CoeffRing) (x : Int) (e : R.Element) : Prop where
  contains : R.contains x = true
  cast_eq : (x : R.Element) = e

/-- There is only one. -/
theorem Represents.unique (hx : R.Represents x e) (hy : R.Represents y e) : x = y :=
  eq_of_contains hx.contains hy.contains (hx.cast_eq.trans hy.cast_eq.symm)

theorem represents_normalize (R : CoeffRing) (x : Int) : R.Represents (R.normalize x) x :=
  ⟨contains_normalize R x, cast_normalize R x⟩

theorem contains_iff_normalize_eq : R.contains x = true ↔ R.normalize x = x :=
  ⟨normalize_of_contains, fun h => h ▸ contains_normalize R x⟩

/-- Integers stand for one element when the characteristic divides their difference. -/
theorem normalize_eq_normalize_iff_dvd_sub :
    R.normalize x = R.normalize y ↔ (R.characteristic : Int) ∣ x - y := by
  rw [eq_comm, normalize_eq_normalize_iff, ZMod.intCast_eq_intCast_iff_dvd_sub]

theorem compare_eq_iff : R.compare x y = .eq ↔ R.normalize x = R.normalize y := by
  rw [CoeffRing.compare, compare_eq_iff_eq]

theorem isZero_iff_dvd : R.isZero x = true ↔ (R.characteristic : Int) ∣ x := by
  rw [isZero_iff, ZMod.intCast_zmod_eq_zero_iff_dvd]

section Modular

variable {m : Nat} {prime : Bool} {hm : 2 ≤ m}

/-- The range test is that of the window. -/
theorem contains_iff_inWindow :
    (modular m prime hm).contains x = true ↔ Residue.InWindow m x := by
  rw [contains_modular_iff, Residue.InWindow]
  split <;> omega

theorem represents_modular_iff :
    (modular m prime hm).Represents x (y : Int) ↔ Residue.InWindow m x ∧ x ≡ y [ZMOD m] := by
  constructor
  · intro h
    exact ⟨contains_iff_inWindow.1 h.contains, (ZMod.intCast_eq_intCast_iff _ _ m).1 h.cast_eq⟩
  · rintro ⟨hwindow, hmod⟩
    exact ⟨contains_iff_inWindow.2 hwindow, (ZMod.intCast_eq_intCast_iff _ _ m).2 hmod⟩

/-- Modulo `m`, odd or even, normalization gives the only integer of the class that lies in the
    window around zero. The integers of the window are those that normalization leaves alone, and
    two integers have the same normal form, and compare as equal, exactly when `m` divides their
    difference. The normalization of what is out of range only, the sign and the zero test, which
    have paths of their own for what is in range, agree with this. -/
theorem normalize_represents (hm : 2 ≤ m) (prime : Bool) (x y : Int) :
    let R : CoeffRing := .modular m prime hm
    (∀ z, z = R.normalize x ↔ Residue.InWindow m z ∧ z ≡ x [ZMOD m]) ∧
      (R.contains x = true ↔ R.normalize x = x) ∧
      (R.normalize x = R.normalize y ↔ (m : Int) ∣ x - y) ∧
      (R.compare x y = .eq ↔ (m : Int) ∣ x - y) ∧
      R.renormalize x = R.normalize x ∧
      R.sign x = (R.normalize x).sign ∧
      (R.isZero x = true ↔ (m : Int) ∣ x) := by
  intro R
  refine ⟨fun z => ?_, contains_iff_normalize_eq, normalize_eq_normalize_iff_dvd_sub,
    compare_eq_iff.trans normalize_eq_normalize_iff_dvd_sub, renormalize_eq_normalize R x, ?_,
    isZero_iff_dvd⟩
  · constructor
    · rintro rfl
      exact represents_modular_iff.1 (represents_normalize R x)
    · intro hz
      exact (represents_modular_iff.2 hz).unique (represents_normalize R x)
  · rw [sign, renormalize_eq_normalize]

/-- Modulo `8`, the window ends below `4`: the integers `4` and `12` are brought down to `-4`, which
    stays. -/
theorem normalize_represents_eight :
    let R : CoeffRing := .modular 8 false (by decide)
    R.normalize 12 = -4 ∧ R.contains 4 = false ∧ R.contains (-4) = true ∧
      R.compare 12 (-4) = .eq ∧ R.isZero 12 = false := by
  intro R
  obtain ⟨hnormalize, -, -, hcompare, -, -, hzero⟩ :=
    normalize_represents (m := 8) (by decide) false 12 (-4)
  obtain ⟨-, hout, -⟩ := normalize_represents (m := 8) (by decide) false 4 0
  obtain ⟨-, hin, -⟩ := normalize_represents (m := 8) (by decide) false (-4) 0
  refine ⟨((hnormalize (-4)).2 ⟨?_, by decide⟩).symm, ?_, hin.2 rfl, hcompare.2 (by decide), ?_⟩
  · exact ⟨by decide, by decide⟩
  · exact Bool.eq_false_iff.2 fun h => absurd (hout.1 h) (by decide)
  · exact Bool.eq_false_iff.2 fun h => absurd (hzero.1 h) (by decide)

end Modular

/-! ## Operations -/

section Operations

variable (R) (a b acc : Int) (c : Int64) (n : Nat)

/-- The results of the operations on the same arguments. -/
def results : List Int :=
  [R.add a b, R.sub a b, R.neg a, R.mul a b, R.mulInt a c, R.addMul acc a b, R.addMulInt acc a c,
    R.subMul acc a b, R.pow a n]

/-- What the operations are to compute. -/
def values (a b acc c : R.Element) (n : Nat) : List R.Element :=
  [a + b, a - b, -a, a * b, a * c, acc + a * b, acc + a * c, acc - a * b, a ^ n]

theorem represents_add : R.Represents (R.add a b) (a + b) :=
  ⟨contains_normalize .., cast_add ..⟩

theorem represents_mul : R.Represents (R.mul a b) (a * b) :=
  ⟨contains_normalize .., cast_mul ..⟩

theorem represents_pow : R.Represents (R.pow a n) ((a : R.Element) ^ n) := by
  refine ⟨?_, cast_pow R a n⟩
  match R with
  | integers => rfl
  | modular _ _ _ => exact contains_normalize _ _

/-- Each result is the canonical representative of what it is to compute, whatever integers the
    arguments are. -/
theorem represents_results :
    List.Forall₂ R.Represents (R.results a b acc c n) (R.values a b acc c.toInt n) := by
  simp only [results, values, List.forall₂_cons, List.Forall₂.nil, and_true]
  exact ⟨represents_add R a b, ⟨contains_normalize .., cast_sub ..⟩,
    ⟨contains_normalize .., cast_neg ..⟩, represents_mul R a b,
    ⟨contains_normalize .., cast_mulInt ..⟩, ⟨contains_renormalize .., cast_addMul ..⟩,
    ⟨contains_renormalize .., cast_addMulInt ..⟩, ⟨contains_renormalize .., cast_subMul ..⟩,
    represents_pow R a n⟩

variable {R a b acc c} in
/-- Arguments that stand for the same elements give the same results. -/
theorem results_congr {a' b' acc' : Int} {c' : Int64} (ha : (a : R.Element) = a')
    (hb : (b : R.Element) = b') (hacc : (acc : R.Element) = acc')
    (hc : (c.toInt : R.Element) = c'.toInt) (n : Nat) :
    R.results a b acc c n = R.results a' b' acc' c' n := by
  have h := represents_results R a b acc c n
  rw [ha, hb, hacc, hc] at h
  exact List.left_unique_forall₂' (fun _ _ _ hx hy => hx.unique hy) h
    (represents_results R a' b' acc' c' n)

/-- The laws of a commutative ring, as equalities between results. Zero and one have to be added to
    and multiplied by what may not be canonical, so that the result is its normal form. -/
structure RingLaws (a b c : Int) : Prop where
  add_comm : R.add a b = R.add b a
  add_assoc : R.add (R.add a b) c = R.add a (R.add b c)
  add_zero : R.add a 0 = R.normalize a
  add_neg : R.add a (R.neg a) = 0
  sub_eq_add_neg : R.sub a b = R.add a (R.neg b)
  mul_comm : R.mul a b = R.mul b a
  mul_assoc : R.mul (R.mul a b) c = R.mul a (R.mul b c)
  mul_one : R.mul a 1 = R.normalize a
  mul_add : R.mul a (R.add b c) = R.add (R.mul a b) (R.mul a c)

theorem ringLaws (a b c : Int) : R.RingLaws a b c where
  add_comm := by rw [CoeffRing.add, CoeffRing.add, Int.add_comm]
  add_assoc := normalize_eq_normalize_iff.2 <| by
    rw [Int.cast_add, Int.cast_add, cast_add, cast_add, add_assoc]
  add_zero := by rw [CoeffRing.add, Int.add_zero]
  add_neg := eq_zero_of_cast_eq_zero (contains_normalize ..) <| by
    rw [cast_add, cast_neg, add_neg_cancel]
  sub_eq_add_neg := normalize_eq_normalize_iff.2 <| by
    rw [Int.cast_sub, Int.cast_add, cast_neg, sub_eq_add_neg]
  mul_comm := by rw [CoeffRing.mul, CoeffRing.mul, Int.mul_comm]
  mul_assoc := normalize_eq_normalize_iff.2 <| by
    rw [Int.cast_mul, Int.cast_mul, cast_mul, cast_mul, mul_assoc]
  mul_one := by rw [CoeffRing.mul, Int.mul_one]
  mul_add := normalize_eq_normalize_iff.2 <| by
    rw [Int.cast_mul, Int.cast_add, cast_add, cast_mul, cast_mul, mul_add]

theorem pow_zero_eq : R.pow a 0 = R.normalize 1 := by
  refine (represents_pow R a 0).unique ?_
  rw [pow_zero]
  have h := represents_normalize R 1
  rwa [Int.cast_one] at h

theorem pow_add_eq (k : Nat) : R.pow a (n + k) = R.mul (R.pow a n) (R.pow a k) := by
  refine (represents_pow R a (n + k)).unique ?_
  rw [pow_add, ← cast_pow, ← cast_pow]
  exact represents_mul R _ _

/-- In every ring and for all integers, canonical or not, the operations give the canonical
    representatives of the sum, the difference, the opposite, the product, the accumulated products
    and the power of the elements. They give the same results for arguments that stand for the same
    elements, and the results satisfy the laws of a commutative ring and those of powers. -/
theorem operations_represent (R : CoeffRing) :
    (∀ (a b acc : Int) (c : Int64) (n : Nat),
      List.Forall₂ R.Represents (R.results a b acc c n) (R.values a b acc c.toInt n)) ∧
    (∀ (a a' b b' acc acc' : Int) (c c' : Int64) (n : Nat), (a : R.Element) = a' →
      (b : R.Element) = b' → (acc : R.Element) = acc' → (c.toInt : R.Element) = c'.toInt →
      R.results a b acc c n = R.results a' b' acc' c' n) ∧
    (∀ a b c : Int, R.RingLaws a b c) ∧
    (∀ a : Int, R.pow a 0 = R.normalize 1) ∧
    ∀ (a : Int) (n k : Nat), R.pow a (n + k) = R.mul (R.pow a n) (R.pow a k) :=
  ⟨R.represents_results, fun _ _ _ _ _ _ _ _ n ha hb hacc hc => results_congr ha hb hacc hc n,
    R.ringLaws, R.pow_zero_eq, R.pow_add_eq⟩

/-- Modulo `2`, one is represented by `-1`, and so are the odd integers `7` and `-3`. -/
theorem operations_represent_two :
    let R : CoeffRing := .modular 2 true (by decide)
    R.results 7 10 (-3) 5 3 = R.results (-1) 0 (-1) (-1) 3 ∧
      R.pow 7 0 = -1 ∧ R.pow 7 (2 + 3) = R.mul (R.pow 7 2) (R.pow 7 3) := by
  intro R
  obtain ⟨-, hcongr, -, hzero, hsum⟩ := operations_represent R
  exact ⟨hcongr 7 (-1) 10 0 (-3) (-1) 5 (-1) 3 (by decide) (by decide) (by decide) (by decide),
    hzero 7, hsum 7 2 3⟩

end Operations

end CoeffRing

end Univariate
