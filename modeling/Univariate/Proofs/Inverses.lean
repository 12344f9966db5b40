import Mathlib.Tactic.Ring
import Univariate.Proofs.Elements

/-!
# Modular inverses

The inverse of `a` modulo `m` is the only solution of `a * x = 1` among the least residues, and
there is one exactly when `a` and `m` are coprime (`Residue.inverse?_eq_some_iff`,
`Residue.exists_inverse?_iff`); `Residue.invert_solves` puts it together.

Euclid's algorithm gives the inverse. Each of its remainders is, modulo `m`, the multiple of `a`
that it carries along (`Residue.euclid_modEq`), and the last one is the greatest common divisor
(`Residue.euclid_fst`). Nothing else is used of it: any other combination of `a` and `m` with their
greatest common divisor as its value (`Residue.IsCombination`) leads to the same inverse.
-/

namespace Univariate.Residue

variable {a b m g s t x y : Int}

/-! ## Least residues -/

theorem least_mem (hm : 0 < m) (x : Int) : 0 ≤ least x m ∧ least x m < m := by
  rw [least_eq_emod hm]
  exact ⟨Int.emod_nonneg x hm.ne', Int.emod_lt_of_pos x hm⟩

theorem gcd_least (hm : 0 < m) (a : Int) : Int.gcd (least a m) m = Int.gcd a m := by
  rw [least_eq_emod hm, Int.gcd_emod]

/-- Least residues of one class are equal. -/
theorem eq_of_modEq (hx : 0 ≤ x ∧ x < m) (hy : 0 ≤ y ∧ y < m) (h : x ≡ y [ZMOD m]) : x = y := by
  rw [Int.ModEq, Int.emod_eq_of_lt hx.1 hx.2, Int.emod_eq_of_lt hy.1 hy.2] at h
  exact h

/-! ## Linear congruences -/

/-- The congruence for a quotient has a solution exactly when the common divisor of `b` and the
    modulus divides `a`. -/
theorem exists_mul_modEq_iff : (∃ x, b * x ≡ a [ZMOD m]) ↔ (Int.gcd b m : Int) ∣ a := by
  constructor
  · rintro ⟨x, hx⟩
    have hgm : (Int.gcd b m : Int) ∣ m := Int.gcd_dvd_right ..
    exact ((hx.of_dvd hgm).dvd_iff).1 ((Int.gcd_dvd_left ..).mul_right x)
  · rintro ⟨k, rfl⟩
    refine ⟨Int.gcdA b m * k, Int.modEq_iff_add_fac.2 ⟨Int.gcdB b m * k, ?_⟩⟩
    rw [Int.gcd_eq_gcd_ab]
    ring

theorem gcd_eq_one_of_mul_modEq (h : a * x ≡ 1 [ZMOD m]) : Int.gcd a m = 1 := by
  have hdvd : (Int.gcd a m : Int) ∣ (1 : Nat) := exists_mul_modEq_iff.1 ⟨x, h⟩
  exact Nat.dvd_one.1 (Int.natCast_dvd_natCast.1 hdvd)

/-- Two inverses of one integer are in the same class. -/
theorem modEq_of_mul_modEq_one (hx : a * x ≡ 1 [ZMOD m]) (hy : a * y ≡ 1 [ZMOD m]) :
    x ≡ y [ZMOD m] :=
  calc x = x * 1 := (mul_one x).symm
    _ ≡ x * (a * y) [ZMOD m] := (hy.mul_left x).symm
    _ = a * x * y := by ring
    _ ≡ 1 * y [ZMOD m] := hx.mul_right y
    _ = y := one_mul y

/-! ## Combinations of two integers -/

/-- The integer `g` is the non-negative greatest common divisor of `a` and `m`, and the combination
    of the two with the coefficients `s` and `t`. -/
structure IsCombination (a m g s t : Int) : Prop where
  eq_gcd : g = Int.gcd a m
  mul_add : a * s + m * t = g

theorem IsCombination.modEq (h : IsCombination a m g s t) : a * s ≡ g [ZMOD m] :=
  Int.modEq_iff_add_fac.2 ⟨t, h.mul_add.symm⟩

/-- The coefficient of the least residue of `a` gives what solves the congruence, if anything
    does. -/
theorem IsCombination.eq_some_iff (hm : 0 < m) (h : IsCombination (least a m) m g s t) :
    (if g = 1 then some (least s m) else none) = some x ↔
      (0 ≤ x ∧ x < m) ∧ a * x ≡ 1 [ZMOD m] := by
  split_ifs with hg
  · have hinverse : a * least s m ≡ 1 [ZMOD m] :=
      calc a * least s m ≡ least a m * s [ZMOD m] :=
            (least_modEq hm a).symm.mul (least_modEq hm s)
        _ ≡ g [ZMOD m] := h.modEq
        _ = 1 := hg
    rw [Option.some.injEq]
    constructor
    · rintro rfl
      exact ⟨least_mem hm s, hinverse⟩
    · rintro ⟨hx, hmul⟩
      exact eq_of_modEq (least_mem hm s) hx (modEq_of_mul_modEq_one hinverse hmul)
  · -- A solution makes `a` and the modulus coprime, and `g` is their greatest common divisor.
    refine iff_of_false id fun ⟨_, hmul⟩ => hg ?_
    rw [h.eq_gcd, gcd_least hm, gcd_eq_one_of_mul_modEq hmul, Nat.cast_one]

/-! ## Euclid's algorithm -/

/-- Euclid's algorithm keeps that a remainder is its multiplier times `a`, modulo `m`. -/
theorem euclid_modEq (r s r' s' : Int) (h : r ≡ s * a [ZMOD m]) (h' : r' ≡ s' * a [ZMOD m]) :
    (euclid r s r' s').1 ≡ (euclid r s r' s').2 * a [ZMOD m] := by
  fun_induction euclid r s r' s' with
  | case1 r s s' hr =>
    rw [neg_mul]
    exact h.neg
  | case2 r s s' hr => exact h
  | case3 r s r' s' hr ih =>
    refine ih h' ?_
    have hrem : r.tmod r' = r - r.tdiv r' * r' := by
      rw [Int.tmod_def, mul_comm]
    rw [hrem, sub_mul, mul_assoc]
    exact h.sub (h'.mul_left _)

/-- Euclid's algorithm ends with the greatest common divisor. -/
theorem euclid_fst (r s r' s' : Int) : (euclid r s r' s').1 = Int.gcd r r' := by
  fun_induction euclid r s r' s' with
  | case1 r s s' hr => rw [Int.gcd_zero_right, Int.ofNat_natAbs_of_nonpos hr.le]
  | case2 r s s' hr => rw [Int.gcd_zero_right, Int.natAbs_of_nonneg (not_lt.1 hr)]
  | case3 r s r' s' hr ih =>
    rw [ih, Int.tmod_def, Int.gcd_comm, Int.gcd_sub_mul_left_left]

/-- What Euclid's algorithm ends with is a combination of the integers it starts from. -/
theorem exists_isCombination_euclid (a m : Int) :
    ∃ t, IsCombination a m (euclid a 1 m 0).1 (euclid a 1 m 0).2 t := by
  -- At the start, the remainders `a` and `m` are the multiples `1 * a` and `0 * a` modulo `m`.
  have hkeep := euclid_modEq (a := a) (m := m) a 1 m 0 (by rw [one_mul])
    (by rw [zero_mul]; exact Int.modEq_zero_iff_dvd.2 dvd_rfl)
  obtain ⟨t, ht⟩ := Int.modEq_iff_add_fac.1 hkeep.symm
  exact ⟨t, euclid_fst a 1 m 0, by rw [ht, mul_comm a]⟩

/-! ## Inverses -/

/-- The inverse is the only least residue that solves the congruence. -/
theorem inverse?_eq_some_iff (hm : 0 < m) :
    inverse? a m = some x ↔ (0 ≤ x ∧ x < m) ∧ a * x ≡ 1 [ZMOD m] := by
  obtain ⟨t, h⟩ := exists_isCombination_euclid (least a m) m
  exact h.eq_some_iff hm

/-- The inverse does not depend on the combination that it is got from. -/
theorem IsCombination.inverse?_eq (hm : 0 < m) (h : IsCombination (least a m) m g s t) :
    inverse? a m = if g = 1 then some (least s m) else none :=
  Option.ext fun _ => (inverse?_eq_some_iff hm).trans (h.eq_some_iff hm).symm

/-- What is coprime to the modulus, and nothing else, has an inverse. -/
theorem exists_inverse?_iff (hm : 0 < m) : (∃ x, inverse? a m = some x) ↔ Int.gcd a m = 1 := by
  obtain ⟨t, h⟩ := exists_isCombination_euclid (least a m) m
  rw [h.inverse?_eq hm, h.eq_gcd, gcd_least hm]
  simp

theorem mul_inverse?_modEq (hm : 0 < m) (h : inverse? a m = some x) : a * x ≡ 1 [ZMOD m] :=
  ((inverse?_eq_some_iff hm).1 h).2

theorem ediv_gcd_pos (hm : 0 < m) (b : Int) : 0 < m / Int.gcd b m :=
  Int.ediv_pos_of_pos_of_dvd hm (Int.natCast_nonneg _) (Int.gcd_dvd_right ..)

/-- Divided by their greatest common divisor, an integer and the modulus are coprime. -/
theorem exists_inverse?_ediv_gcd (hm : 0 < m) (b : Int) :
    ∃ x, inverse? (b / Int.gcd b m) (m / Int.gcd b m) = some x :=
  (exists_inverse?_iff (ediv_gcd_pos hm b)).2
    (Int.gcd_ediv_gcd_ediv_gcd (Int.gcd_pos_of_ne_zero_right b hm.ne'))

theorem invert_eq (hm : 0 < m) (a : Int) : invert a m = .ok (inverse? a m) :=
  if_neg hm.ne'

/-- For a positive modulus and all integers, reduced or not, there is an inverse exactly when the
    integer and the modulus are coprime, and otherwise the answer is that there is none. The inverse
    is the only solution of the congruence in `[0, m)`, whichever combination of the least residue
    and the modulus it is got from. In particular the least residue of any integer, zero included,
    has an inverse when it and the modulus are divided by their greatest common divisor. -/
theorem invert_solves (hm : 0 < m) (a : Int) :
    ((∃ x, invert a m = .ok (some x)) ↔ Int.gcd a m = 1) ∧
      (invert a m = .ok none ↔ Int.gcd a m ≠ 1) ∧
      (∀ x, invert a m = .ok (some x) ↔ (0 ≤ x ∧ x < m) ∧ a * x ≡ 1 [ZMOD m]) ∧
      (∀ g s t, IsCombination (least a m) m g s t →
        invert a m = .ok (if g = 1 then some (least s m) else none)) ∧
      ∃ x, invert (least a m / Int.gcd (least a m) m) (m / Int.gcd (least a m) m) =
        .ok (some x) := by
  simp only [invert_eq hm, invert_eq (ediv_gcd_pos hm _), Except.ok.injEq]
  refine ⟨exists_inverse?_iff hm, ?_, fun x => inverse?_eq_some_iff hm,
    fun g s t h => h.inverse?_eq hm, exists_inverse?_ediv_gcd hm _⟩
  rw [Option.eq_none_iff_forall_ne_some, ← not_exists, exists_inverse?_iff hm]

/-- Modulo `12`, the inverse of `-7` is `5`, also when it is got from `5 * (-7) + 12 * 3 = 1`, and
    `20` has none: divided by `4`, its least residue and the modulus are `2` and `3`. Modulo `1`,
    the inverse of every integer is zero. -/
theorem invert_solves_twelve :
    IsCombination (least (-7) 12) 12 1 (-7) 3 ∧ invert (-7) 12 = .ok (some 5) ∧
      invert 20 12 = .ok none ∧ (∃ x, invert (8 / 4) (12 / 4) = .ok (some x)) ∧
      invert 4 1 = .ok (some 0) := by
  obtain ⟨-, -, -, hcombination, -⟩ := invert_solves (m := 12) (by decide) (-7)
  obtain ⟨-, hnone, -, -, hquotient⟩ := invert_solves (m := 12) (by decide) 20
  obtain ⟨-, -, hone, -, -⟩ := invert_solves (m := 1) (by decide) 4
  have hseven : IsCombination (least (-7) 12) 12 1 (-7) 3 := ⟨by decide, by decide⟩
  exact ⟨hseven, hcombination 1 (-7) 3 hseven, hnone.2 (by decide), hquotient,
    (hone 0).2 ⟨by decide, by decide⟩⟩

end Univariate.Residue
