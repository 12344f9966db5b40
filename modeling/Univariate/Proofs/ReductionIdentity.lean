import Univariate.Proofs.ReductionSteps
import Univariate.Proofs.Remainders

/-!
# The identity of a reduction

A reduction over the integers succeeds and ends with a multiplier `a` and a polynomial that is a
remainder of `a` times the dividend. The multiplier divides a power of the leading coefficient of
the divisor, and no smaller one would do: `a` divides every integer whose product with the dividend
has a remainder.

* `Reduction.Partial` is the invariant of the steps. The quotient is only known to exist, since no
  step keeps it.
* A step makes the coefficient to be eliminated a multiple of the leading coefficient with the
  least scale (`lcm_ediv_dvd_of_dvd_mul`), and whatever has a remainder needs that scale
  (`Reduction.Partial.dvd_of_hasRemainder`): what is least at each step is least in the end.
-/

namespace Univariate

open Polynomial

/-! ## Integers as elements -/

theorem CoeffRing.integers_cast_dvd_cast {a b : Int} :
    (a : integers.Element) ∣ b ↔ a ∣ b :=
  Iff.rfl

theorem Buffer.Canonical.leading_ne_zero {t : Buffer} (h : t.Canonical .integers)
    (hz : t.isZero = false) : t.leading ≠ 0 :=
  CoeffRing.ne_zero_of_isZero_eq_false (h.isZero_leading hz)

/-! ## The least scale -/

section LeastScale

variable {c lead : Int}

theorem lcm_ediv_mul (c lead : Int) : Int.lcm c lead / c * c = Int.lcm c lead :=
  Int.ediv_mul_cancel (Int.dvd_lcm_left c lead)

theorem lcm_ediv_dvd (hc : c ≠ 0) (lead : Int) : Int.lcm c lead / c ∣ lead := by
  refine Int.dvd_of_mul_dvd_mul_right hc ?_
  rw [lcm_ediv_mul]
  exact Int.coe_lcm_dvd (dvd_mul_left c lead) (dvd_mul_right lead c)

/-- Every factor that makes `c` a multiple of `lead` is a multiple of the scale. -/
theorem lcm_ediv_dvd_of_dvd_mul (hc : c ≠ 0) {u : Int} (hu : lead ∣ u * c) :
    Int.lcm c lead / c ∣ u := by
  refine Int.dvd_of_mul_dvd_mul_right hc ?_
  rw [lcm_ediv_mul]
  exact Int.coe_lcm_dvd (dvd_mul_left c u) hu

end LeastScale

namespace Reduction

variable {dividend divisor : Buffer} {total shift count : Nat} {e factor t : Int} {s s' : Reduction}

/-! ## The invariant of the steps -/

/-- What the steps for the shifts from `count` on have established: the multiplier times the
    dividend is a multiple of the divisor plus the reduced polynomial, which has nothing left from
    where they have been. With a factor for each step to come, the multiplier divides the power of
    the leading coefficient for all steps, and it divides whatever gives the dividend a
    remainder. -/
structure Partial (dividend divisor : Buffer) (total count : Nat) (s : Reduction) : Prop where
  reduced : s.reduced.Canonical .integers
  reduced_eq_zero : ∀ i, divisor.degree + count ≤ i → s.reduced.slot i = 0
  identity : ∃ q, s.multiplier • dividend.image .integers =
    q * divisor.image .integers + s.reduced.image .integers
  multiplier_dvd : s.multiplier * divisor.leading ^ count ∣ divisor.leading ^ total
  least : ∀ t : Int,
    HasRemainder (divisor.image .integers) (t • dividend.image .integers) → s.multiplier ∣ t

/-- At the start, the reduced polynomial is the dividend. -/
theorem Partial.started (hp : dividend.Canonical .integers)
    (hdeg : divisor.degree ≤ dividend.degree) (hr : s.reduced.WellFormed)
    (hlt : dividend.degree < s.reduced.capacity) :
    Partial dividend divisor (dividend.degree - divisor.degree + 1)
      (dividend.degree - divisor.degree + 1) (s.started dividend divisor) where
  reduced := .copied hr hp hlt
  reduced_eq_zero i hi := by
    refine (Buffer.slot_copied hr hp.toWellFormed hlt i).trans ?_
    exact hp.toWellFormed.slot_eq_zero_of_degree_lt (by omega)
  identity := by
    refine ⟨0, ?_⟩
    change (1 : Int) • _ = _ + (s.reduced.copied dividend).image .integers
    rw [Buffer.image_copied hr hp.toWellFormed hlt, one_smul, zero_mul, zero_add]
  multiplier_dvd := by
    change 1 * _ ∣ _
    rw [one_mul]
  least t _ := one_dvd t

/-- The scale of a step divides every factor that the reduced polynomial has to be multiplied with
    to have a remainder. -/
theorem Partial.dvd_of_hasRemainder (h : Partial dividend divisor total (shift + 1) s)
    (hd : divisor.Canonical .integers) (hzero : divisor.isZero = false)
    (hleast : ∀ u, divisor.leading ∣ u * s.reduced.slot (divisor.degree + shift) → e ∣ u)
    (ht : HasRemainder (divisor.image .integers) (t • dividend.image .integers)) :
    s.multiplier * e ∣ t := by
  obtain ⟨q, hq⟩ := h.identity
  obtain ⟨u, rfl⟩ := h.least t ht
  refine mul_dvd_mul_left _ (hleast u ?_)
  -- The reduced polynomial differs from the dividend by a multiple of the divisor.
  have hreduced : HasRemainder (divisor.image .integers) (u • s.reduced.image .integers) := by
    rwa [mul_comm, mul_smul, hq, smul_add, ← smul_mul_assoc, add_comm,
      ← hasRemainder_sub_mul_iff (g := u • q), add_sub_cancel_right] at ht
  have hfaithful := faithfulLead_of_mem_nonZeroDivisors (hd.leadingCoeff_mem_nonZeroDivisors hzero)
  obtain ⟨x, hx⟩ := hreduced.exists_mul_leadingCoeff hfaithful (k := shift) fun i hi => by
    rw [hd.natDegree_image] at hi
    rw [coeff_smul, Buffer.coeff_image, h.reduced_eq_zero i (by omega), Int.cast_zero, smul_zero]
  rw [hd.leadingCoeff_image, hd.natDegree_image, coeff_smul, Buffer.coeff_image, zsmul_eq_mul,
    ← Int.cast_mul] at hx
  exact CoeffRing.integers_cast_dvd_cast.1 (Dvd.intro_left x hx)

/-- The polynomial and the multiplier of `s`, multiplied by `e`. -/
structure Multiplied (s : Reduction) (e : Int) (s' : Reduction) : Prop where
  reduced : s'.reduced.Canonical .integers
  capacity : s'.reduced.capacity = s.reduced.capacity
  image : s'.reduced.image .integers = e • s.reduced.image .integers
  multiplier : s'.multiplier = s.multiplier * e

theorem multiplied_reported (h : s.reduced.Canonical .integers) (event : Event) :
    s.Multiplied 1 (s.reported event) where
  reduced := h
  capacity := rfl
  image := (one_smul _ _).symm
  multiplier := (mul_one _).symm

theorem multiplied_scaledUp (h : s.reduced.Canonical .integers) (c lead : Int) (event : Event) :
    s.Multiplied (Int.lcm c lead / c) ((s.reported event).scaledUp c lead) where
  reduced := h.scaled _
  capacity := capacity_scaledUp ..
  image := (Buffer.image_scaled h.toWellFormed _).trans (C_intCast_mul _ _)
  multiplier := rfl

theorem Multiplied.slot_eq (h : s.Multiplied e s') (i : Nat) :
    s'.reduced.slot i = e * s.reduced.slot i := by
  refine CoeffRing.eq_of_contains (R := .integers) rfl rfl ?_
  rw [← Buffer.coeff_image, h.image, coeff_smul, Buffer.coeff_image, zsmul_eq_mul, Int.cast_mul]

/-- Subtracting the multiple of the divisor that eliminates the highest coefficient, once this has
    been multiplied by the least scale, takes the invariant one shift down. -/
theorem Partial.eliminated (h : Partial dividend divisor total (shift + 1) s)
    (hd : divisor.Canonical .integers) (hfits : s.Fits divisor shift) (hs : s.Multiplied e s')
    (he : e ∣ divisor.leading)
    (hleast : ∀ u, divisor.leading ∣ u * s.reduced.slot (divisor.degree + shift) → e ∣ u)
    (hfactor : factor * divisor.leading = e * s.reduced.slot (divisor.degree + shift)) :
    Partial dividend divisor total shift (s'.eliminated divisor shift factor) := by
  have hlt : divisor.degree + shift < s'.reduced.capacity := hs.capacity ▸ hfits.degree_lt_reduced
  refine ⟨hs.reduced.subShifted hlt, fun i hi => ?_, ?_, ?_, fun t ht => ?_⟩
  · refine hs.reduced.slot_eliminated hd.toWellFormed (a := ⟨shift, factor⟩) hlt ?_
      (fun k hk => ?_) hi
    · rw [← Int.cast_mul, hfactor, ← hs.slot_eq]
    · rw [hs.slot_eq, h.reduced_eq_zero k (Nat.succ_le_of_lt hk), mul_zero]
  · obtain ⟨q, hq⟩ := h.identity
    refine ⟨e • q + monomial shift (Int.cast factor), ?_⟩
    change s'.multiplier • _ = _ +
      ((s'.reduced.subShifted .integers divisor ⟨shift, factor⟩).resize .integers _).image .integers
    rw [Buffer.image_resize, Buffer.image_subShifted hd.toWellFormed hlt, hs.image, hs.multiplier,
      mul_comm, mul_smul, hq, smul_add, add_mul, smul_mul_assoc, add_assoc, add_sub_cancel]
  · change s'.multiplier * _ ∣ _
    rw [hs.multiplier, mul_assoc]
    refine (mul_dvd_mul_left _ (mul_dvd_mul_right he _)).trans ?_
    rw [← pow_succ']
    exact h.multiplier_dvd
  · change s'.multiplier ∣ t
    rw [hs.multiplier]
    exact h.dvd_of_hasRemainder hd hfits.divisor_ne_zero hleast ht

/-- A coefficient zero is already eliminated. -/
theorem Partial.passed (h : Partial dividend divisor total (shift + 1) s)
    (hc : s.reduced.slot (divisor.degree + shift) = 0) :
    Partial dividend divisor total shift s where
  reduced := h.reduced
  reduced_eq_zero i hi := by
    rcases Nat.eq_or_lt_of_le hi with rfl | hi
    · exact hc
    · exact h.reduced_eq_zero i (by omega)
  identity := h.identity
  multiplier_dvd := by
    refine (mul_dvd_mul_left _ ?_).trans h.multiplier_dvd
    exact pow_dvd_pow _ (Nat.le_succ shift)
  least := h.least

/-- A step keeps the invariant, with the scale one where the leading coefficient divides. -/
theorem Partial.stepped (h : Partial dividend divisor total (shift + 1) s)
    (hd : divisor.Canonical .integers) (hfits : s.Fits divisor shift) :
    Partial dividend divisor total shift (s.stepped divisor shift) := by
  rw [Reduction.stepped]
  split_ifs with hc hdvd
  · exact h.passed hc
  · refine h.eliminated hd hfits (multiplied_reported h.reduced _) (one_dvd _)
      (fun u _ => one_dvd u) ?_
    rw [Int.ediv_mul_cancel hdvd, one_mul]
  · refine h.eliminated hd hfits (multiplied_scaledUp h.reduced _ _ _) (lcm_ediv_dvd hc _)
      (fun u hu => lcm_ediv_dvd_of_dvd_mul hc hu) ?_
    rw [lcm_ediv_mul, Int.ediv_mul_cancel (Int.dvd_lcm_right ..)]

/-! ## The whole reduction -/

/-- A reduction comes to its end, and what it gives is the multiplier that its steps have
    established. -/
theorem exists_run_partial (hp : dividend.Canonical .integers) (hd : divisor.Canonical .integers)
    (hzero : divisor.isZero = false) (hdeg : divisor.degree ≤ dividend.degree)
    (hword : dividend.degree < degreeBound) (hr : s.reduced.WellFormed)
    (hlt : dividend.degree < s.reduced.capacity) :
    ∃ s', (run dividend divisor).run s =
        .ok s'.multiplier (s'.reported (.reductionDone s'.multiplier s'.reduced)) ∧
      Partial dividend divisor (dividend.degree - divisor.degree + 1) 0 s' := by
  obtain ⟨s', hsteps, hend⟩ := steps_induction
    (I := Partial dividend divisor (dividend.degree - divisor.degree + 1))
    (hd.leading_ne_zero hzero) (fun _ _ hfits hs => hs.stepped hd hfits)
    (Partial.started hp hdeg hr hlt) (fits_started hzero hdeg hword hlt)
  refine ⟨s', ?_, hend⟩
  rw [run_run, hzero, if_neg Bool.false_ne_true, if_neg (not_lt.2 hdeg), if_neg (not_le.2 hlt),
    hsteps]

theorem Partial.isRemainder (h : Partial dividend divisor total 0 s)
    (hd : divisor.Canonical .integers) :
    IsRemainder (divisor.image .integers) (s.reduced.image .integers) :=
  h.reduced.isRemainder_image hd (h.reduced.isZero_or_degree_lt h.reduced_eq_zero)

theorem Partial.multiplier_dvd_pow (h : Partial dividend divisor total 0 s) :
    s.multiplier ∣ divisor.leading ^ total := by
  simpa using h.multiplier_dvd

theorem Partial.multiplier_ne_zero (h : Partial dividend divisor total 0 s)
    (hlead : divisor.leading ≠ 0) : s.multiplier ≠ 0 :=
  ne_zero_of_dvd_ne_zero (pow_ne_zero total hlead) h.multiplier_dvd_pow

/-- Exactly the multiples of the multiplier give the dividend a remainder. -/
theorem Partial.hasRemainder_iff (h : Partial dividend divisor total 0 s)
    (hd : divisor.Canonical .integers) :
    HasRemainder (divisor.image .integers) (t • dividend.image .integers) ↔ s.multiplier ∣ t := by
  refine ⟨h.least t, ?_⟩
  rintro ⟨u, rfl⟩
  obtain ⟨q, hq⟩ := h.identity
  rw [mul_comm, mul_smul]
  exact HasRemainder.zsmul ⟨q, s.reduced.image .integers, hq, h.isRemainder hd⟩ u

/-- The multiplier of a reduction is the least possible: exactly its multiples give the dividend a
    remainder by the divisor, over the integers. -/
theorem run_multiplier_dvd_iff (hp : dividend.Canonical .integers)
    (hd : divisor.Canonical .integers) (hzero : divisor.isZero = false)
    (hdeg : divisor.degree ≤ dividend.degree) (hword : dividend.degree < degreeBound)
    (hr : s.reduced.WellFormed) (hlt : dividend.degree < s.reduced.capacity) :
    ∃ a s', (run dividend divisor).run s = .ok a s' ∧ ∀ t : Int,
      HasRemainder (divisor.image .integers) (t • dividend.image .integers) ↔ a ∣ t := by
  obtain ⟨s', hrun, hend⟩ := exists_run_partial hp hd hzero hdeg hword hr hlt
  exact ⟨_, _, hrun, fun t => hend.hasRemainder_iff hd⟩

/-- Reduced by `6 x + 1`, the polynomial `4 x ^ 2 + 3` has the multiplier `-9`, although the leading
    coefficient has the square `36`: no multiple of it by an integer from `1` to `8` would do. -/
theorem run_multiplier_least_six :
    (∃ s', (run ⟨3, #[3, 0, 4]⟩ ⟨2, #[1, 6]⟩).run ⟨⟨1, #[0, 0, 0]⟩, 1, #[]⟩ = .ok (-9) s') ∧
      ∀ t : Int, HasRemainder ((⟨2, #[1, 6]⟩ : Buffer).image .integers)
        (t • (⟨3, #[3, 0, 4]⟩ : Buffer).image .integers) ↔ -9 ∣ t := by
  have hdividend : (⟨3, #[3, 0, 4]⟩ : Buffer).Canonical .integers := by decide +kernel
  have hdivisor : (⟨2, #[1, 6]⟩ : Buffer).Canonical .integers := by decide +kernel
  have hreduced : (⟨1, #[0, 0, 0]⟩ : Buffer).WellFormed := by decide +kernel
  obtain ⟨a, s', hrun, hiff⟩ := run_multiplier_dvd_iff (s := ⟨_, 1, #[]⟩) hdividend hdivisor
    (by decide) (by decide) (by decide) hreduced (by decide)
  have hvalue : (run ⟨3, #[3, 0, 4]⟩ ⟨2, #[1, 6]⟩).run' ⟨⟨1, #[0, 0, 0]⟩, 1, #[]⟩ = some (-9) := by
    decide +kernel
  rw [Action.run'_of_run_ok hrun] at hvalue
  obtain rfl := Option.some.inj hvalue
  exact ⟨⟨s', hrun⟩, hiff⟩

end Reduction

end Univariate
