import Univariate.Proofs.Inverses

/-!
# Exact quotients

An exact quotient `q` of `a` by `b` solves `q * b = a` in the ring (`CoeffRing.exactQuotient_mul`).
There is one exactly when `b` is not zero in the ring and the equation has a solution
(`CoeffRing.divides_iff`, `CoeffRing.exists_exactQuotient`). Nothing but zero is refused as a
divisor (`CoeffRing.exactQuotient_eq_refused_iff`); `CoeffRing.exactQuotient_solves` puts it
together.

Modulo `m`, this rests on an inverse: divided by their greatest common divisor, `b` and the modulus
are coprime (`Residue.exists_inverse?_ediv_gcd`), and a quotient modulo what is left of the modulus
is one modulo `m` as well (`CoeffRing.quotient_mul_modEq`).
-/

namespace Univariate

namespace CoeffRing

variable {R : CoeffRing} {a b q : Int}

/-- Divisibility is that of the elements, except that zero divides nothing. -/
theorem divides_iff :
    R.divides b a = true ↔ R.isZero b = false ∧ ∃ x : Int, (b : R.Element) * x = a := by
  unfold divides
  rw [Bool.and_eq_true, Bool.not_eq_true']
  refine and_congr_right fun _ => ?_
  cases R with
  | integers =>
    rw [decide_eq_true_iff]
    refine exists_congr fun x => ?_
    rw [← Int.cast_mul, eq_comm]
    exact (Int.cast_inj (α := Int)).symm
  | modular m prime hm =>
    have hpos : (0 : Int) < m := by omega
    have hgm : (Int.gcd b m : Int) ∣ m := Int.gcd_dvd_right ..
    rw [decide_eq_true_iff, Residue.gcd_least hpos,
      ((Residue.least_modEq hpos a).of_dvd hgm).dvd_iff, ← Residue.exists_mul_modEq_iff]
    refine exists_congr fun x => ?_
    rw [← Int.cast_mul]
    exact (ZMod.intCast_eq_intCast_iff _ _ m).symm

/-- For an integer that is not zero in the ring, it is divisibility in the ring. -/
theorem divides_iff_dvd (hb : R.isZero b = false) :
    R.divides b a = true ↔ (b : R.Element) ∣ (a : R.Element) := by
  rw [divides_iff, and_iff_right hb]
  constructor
  · rintro ⟨x, hx⟩
    exact ⟨x, hx.symm⟩
  · rintro ⟨x, hx⟩
    obtain ⟨n, rfl⟩ := ZMod.intCast_surjective x
    exact ⟨n, hx.symm⟩

theorem divides_zero (hb : R.isZero b = false) : R.divides b 0 = true := by
  rw [divides_iff_dvd hb, Int.cast_zero]
  exact dvd_zero _

/-- There is an exact quotient by whatever divides. -/
theorem exists_exactQuotient (h : R.divides b a = true) : ∃ q, R.exactQuotient a b = .ok q := by
  unfold exactQuotient
  rw [(divides_iff.1 h).1, if_neg Bool.false_ne_true, h, if_neg (by simp)]
  cases R with
  | integers => exact ⟨_, rfl⟩
  | modular m prime hm =>
    have hpos : (0 : Int) < m := by omega
    obtain ⟨x, hx⟩ := Residue.exists_inverse?_ediv_gcd hpos (Residue.least b m)
    dsimp only
    rw [hx]
    exact ⟨_, rfl⟩

/-- By an element that is not zero, an exact quotient is never refused: where there is none, it
    faults. -/
theorem eq_indivisible_of_exactQuotient {e : Failure} (hb : R.isZero b = false)
    (h : R.exactQuotient a b = .error e) : e = .faulted (.indivisible a b R) := by
  cases hdvd : R.divides b a with
  | true =>
    obtain ⟨q, hq⟩ := exists_exactQuotient hdvd
    rw [hq] at h
    cases h
  | false =>
    unfold exactQuotient at h
    rw [hb, if_neg Bool.false_ne_true, hdvd, if_pos Bool.not_false] at h
    cases h
    rfl

/-- An inverse of `b` modulo `m` gives quotients modulo a multiple of `m`. -/
theorem quotient_mul_modEq {m x : Int} (g : Int) (hx : b * x ≡ 1 [ZMOD m]) :
    a * x * (g * b) ≡ g * a [ZMOD g * m] :=
  calc a * x * (g * b) = g * (b * x) * a := by ring
    _ ≡ g * 1 * a [ZMOD g * m] := (hx.mul_left').mul_right a
    _ = g * a := by rw [mul_one]

/-- An exact quotient is canonical, and gives the dividend when it is multiplied. -/
theorem exactQuotient_mul (h : R.exactQuotient a b = .ok q) :
    R.contains q = true ∧ (q : R.Element) * b = a := by
  unfold exactQuotient at h
  split_ifs at h with hzero hdvd
  rw [Bool.not_eq_true', Bool.not_eq_false] at hdvd
  unfold divides at hdvd
  rw [Bool.and_eq_true] at hdvd
  cases R with
  | integers =>
    obtain rfl : a / b = q := Except.ok.inj h
    refine ⟨rfl, ?_⟩
    rw [← Int.cast_mul, Int.ediv_mul_cancel (by simpa using hdvd.2)]
  | modular m prime hm =>
    dsimp only at h
    split at h
    · cases h
    · next x hx =>
      obtain rfl := Except.ok.inj h
      have hpos : (0 : Int) < m := by omega
      have hgm : (Int.gcd (Residue.least b m) m : Int) ∣ m := Int.gcd_dvd_right ..
      -- Without the common divisor, `b` is invertible modulo what is left of the modulus.
      have hinverse := Residue.mul_inverse?_modEq (Residue.ediv_gcd_pos hpos _) hx
      have hquotient := quotient_mul_modEq (a := Residue.least a m / Int.gcd (Residue.least b m) m)
        (Int.gcd (Residue.least b m) m) hinverse
      rw [Int.mul_ediv_cancel' hgm, Int.mul_ediv_cancel' (Int.gcd_dvd_left ..),
        Int.mul_ediv_cancel' (by simpa using hdvd.2)] at hquotient
      refine ⟨contains_normalize _ _, ?_⟩
      rw [cast_normalize, ← Int.cast_mul]
      refine (ZMod.intCast_eq_intCast_iff _ _ m).2 ?_
      exact (((Residue.least_modEq hpos b).mul_left _).symm.trans hquotient).trans
        (Residue.least_modEq hpos a)

/-- A quotient is refused by zero, and by nothing else. -/
theorem exactQuotient_eq_refused_iff {reason : Refusal} :
    R.exactQuotient a b = .error (.refused reason) ↔
      R.isZero b = true ∧ reason = .zeroScalar := by
  cases hb : R.isZero b with
  | true =>
    have hzero : R.exactQuotient a b = .error (.refused .zeroScalar) := by
      unfold exactQuotient
      rw [if_pos hb]
    rw [hzero, Except.error.injEq, Failure.refused.injEq, eq_comm, and_iff_right rfl]
  | false =>
    refine iff_of_false (fun h => ?_) fun h => Bool.false_ne_true h.1
    cases eq_indivisible_of_exactQuotient hb h

/-- Where there is an exact quotient, the divisor divides. -/
theorem divides_of_exactQuotient (h : R.exactQuotient a b = .ok q) : R.divides b a = true := by
  have hb : R.isZero b = false := by
    rw [← Bool.not_eq_true]
    intro hb
    rw [exactQuotient_eq_refused_iff.2 ⟨hb, rfl⟩] at h
    cases h
  exact divides_iff.2 ⟨hb, q, mul_comm (q : R.Element) b ▸ (exactQuotient_mul h).2⟩

/-- The divisor divides in the ring as well. -/
theorem dvd_of_exactQuotient (h : R.exactQuotient a b = .ok q) :
    (b : R.Element) ∣ (a : R.Element) :=
  ⟨q, by rw [← (exactQuotient_mul h).2, mul_comm]⟩

/-- Where there is none, the divisor is zero or does not divide. -/
theorem not_dvd_of_exactQuotient {e : Failure} (hb : R.isZero b = false)
    (h : R.exactQuotient a b = .error e) : ¬ (b : R.Element) ∣ (a : R.Element) := by
  intro hdvd
  obtain ⟨q, hq⟩ := exists_exactQuotient ((divides_iff_dvd hb).2 hdvd)
  rw [hq] at h
  cases h

/-- The quotient of zero is zero, also where other quotients would do. -/
theorem exactQuotient_zero (hb : R.isZero b = false) : R.exactQuotient 0 b = .ok 0 := by
  have hdvd := divides_zero hb
  obtain ⟨q, hq⟩ := exists_exactQuotient hdvd
  rw [hq]
  unfold exactQuotient at hq
  rw [hb, if_neg Bool.false_ne_true, hdvd, if_neg (by simp)] at hq
  cases R with
  | integers => exact hq.symm.trans (congrArg Except.ok (Int.zero_ediv b))
  | modular m prime hm =>
    have hpos : (0 : Int) < m := by omega
    dsimp only at hq
    split at hq
    · cases hq
    · rw [Residue.least_eq_emod hpos 0, Int.zero_emod, Int.zero_ediv, Int.zero_mul,
        normalize_of_contains (contains_zero _)] at hq
      exact hq.symm

/-- In every ring and for all integers, `b` divides `a` exactly when it is not zero and the equation
    `b * x = a` has a solution. Then, and only then, there is an exact quotient; it is canonical,
    and gives `a` when it is multiplied by `b`. The quotient is refused exactly when `b` is zero, as
    a division by the scalar zero, and never as inexact. -/
theorem exactQuotient_solves (R : CoeffRing) (a b : Int) :
    (R.divides b a = true ↔ (b : R.Element) ≠ 0 ∧ ∃ x : Int, (b : R.Element) * x = a) ∧
      (R.exactQuotient a b = .error (.refused .zeroScalar) ↔ (b : R.Element) = 0) ∧
      (R.divides b a = true ↔ ∃ q, R.exactQuotient a b = .ok q ∧ R.contains q = true ∧
        R.mul q b = R.normalize a) ∧
      ∀ c d, R.exactQuotient a b ≠ .error (.refused (.inexactDivision c d)) := by
  refine ⟨?_, ?_, ⟨fun h => ?_, fun ⟨q, hq, _⟩ => divides_of_exactQuotient hq⟩, fun c d h => ?_⟩
  · rw [divides_iff, isZero_eq_false_iff]
  · rw [exactQuotient_eq_refused_iff, isZero_iff, and_iff_left rfl]
  · obtain ⟨q, hq⟩ := exists_exactQuotient h
    obtain ⟨hcontains, hmul⟩ := exactQuotient_mul hq
    refine ⟨q, hq, hcontains, normalize_eq_normalize_iff.2 ?_⟩
    rw [Int.cast_mul, hmul]
  · cases (exactQuotient_eq_refused_iff.1 h).2

/-- Modulo `12`, the integer `20` is neither canonical nor invertible, but it divides `-4`, since
    `20 * 1` is congruent to it. A quotient by `24` is refused. -/
theorem exactQuotient_solves_twelve :
    let R : CoeffRing := .modular 12 false (by decide)
    (∃ q, R.exactQuotient (-4) 20 = .ok q ∧ R.contains q = true ∧
        R.mul q 20 = R.normalize (-4)) ∧
      R.exactQuotient 2 24 = .error (.refused .zeroScalar) := by
  intro R
  obtain ⟨hdivides, -, hquotient, -⟩ := exactQuotient_solves R (-4) 20
  obtain ⟨-, hzero, -⟩ := exactQuotient_solves R 2 24
  exact ⟨hquotient.1 (hdivides.2 ⟨by decide, 1, by decide⟩), hzero.2 (by decide)⟩

end CoeffRing

end Univariate
