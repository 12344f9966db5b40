import Univariate.Proofs.EliminationInvariance
import Univariate.Proofs.ExactDivision
import Univariate.Proofs.ReductionIdentity

/-!
# The eliminations agree over the integers

An exact division, a pseudo-division and a reduction multiply the dividend at different moments:
never, at every step, or only where the leading coefficient of the divisor does not divide. Over the
integers, what they leave differs by no more than that.

* `Buffer.RemainderOf` is what each of them leaves: the remainder of some multiple of the dividend,
  in as many slots as the dividend has coefficients. There is only one
  (`Buffer.RemainderOf.unique`), and its multiples are remainders of multiples
  (`Buffer.RemainderOf.exists_run_scale`).
* An exact division succeeds where there is a remainder (`Buffer.divideExact_cases`), and a
  reduction finds the least multiplier for which there is one (`Buffer.exists_run_reduce`). This is
  never `-1`: a step that multiplies at all does so with an integer that is not a unit
  (`Reduction.eq_one_of_isUnit_of_run`).
-/

namespace Univariate

open Polynomial

variable {dividend divisor : Buffer}

namespace Reduction

/-- A step multiplies with a unit only if it does not multiply. -/
theorem stepped_multiplier_eq_one {s : Reduction} {shift : Nat}
    (h : IsUnit s.multiplier → s.multiplier = 1)
    (hunit : IsUnit (s.stepped divisor shift).multiplier) :
    (s.stepped divisor shift).multiplier = 1 := by
  rw [stepped] at hunit ⊢
  split_ifs at hunit ⊢ with hc hdvd
  · exact h hunit
  · exact h hunit
  · -- If the scale were a unit, the leading coefficient would divide without it.
    have hscale : IsUnit (Int.lcm (s.reduced.slot (divisor.degree + shift)) divisor.leading /
        s.reduced.slot (divisor.degree + shift)) := isUnit_of_mul_isUnit_right hunit
    refine absurd ?_ hdvd
    rw [← hscale.dvd_mul_left, lcm_ediv_mul]
    exact Int.dvd_lcm_right ..

/-- The only unit that is the multiplier of a reduction is one. -/
theorem eq_one_of_isUnit_of_run {s s' : Reduction} {a : Int} (hlead : divisor.leading ≠ 0)
    (hzero : divisor.isZero = false) (hdeg : divisor.degree ≤ dividend.degree)
    (hword : dividend.degree < degreeBound) (hlt : dividend.degree < s.reduced.capacity)
    (hrun : (run dividend divisor).run s = .ok a s') (ha : IsUnit a) : a = 1 := by
  obtain ⟨s₁, hsteps, hone⟩ := steps_induction
    (I := fun _ s => IsUnit s.multiplier → s.multiplier = 1) hlead
    (fun _ _ _ h hunit => stepped_multiplier_eq_one h hunit) (fun _ => rfl)
    (fits_started hzero hdeg hword hlt)
  rw [run_run, hzero, if_neg Bool.false_ne_true, if_neg (not_lt.2 hdeg), if_neg (not_le.2 hlt),
    hsteps] at hrun
  cases hrun
  exact hone ha

end Reduction

namespace Buffer

/-! ## Remainders in buffers -/

/-- Multiplying by an integer that is not zero succeeds, and keeps a buffer canonical. -/
theorem Canonical.exists_run_scale {t : Buffer} (h : t.Canonical .integers) {c : Int}
    (hc : c ≠ 0) :
    ∃ u, (scale .integers c).run t = .ok () u ∧ u.Canonical .integers ∧
      u.capacity = t.capacity ∧ u.image .integers = c • t.image .integers := by
  refine ⟨_, ?_, h.scaled c, ?_, (image_scaled h.toWellFormed c).trans (C_intCast_mul _ _)⟩
  · rw [run_scale, CoeffRing.isZero_integers_eq_false hc, if_neg Bool.false_ne_true]
  · rw [capacity_trim, capacity_mapNonzero]

/-- The buffer holds the remainder of `f` by the divisor, over the integers, in the given number of
    slots. -/
structure RemainderOf (divisor : Buffer) (capacity : Nat) (f : CoeffRing.integers.Element[X])
    (r : Buffer) : Prop where
  canonical : r.Canonical .integers
  capacity_eq : r.capacity = capacity
  identity : ∃ q, f = q * divisor.image .integers + r.image .integers
  isRemainder : IsRemainder (divisor.image .integers) (r.image .integers)

section RemainderOf

variable {capacity : Nat} {f : CoeffRing.integers.Element[X]} {r r' : Buffer}

theorem RemainderOf.hasRemainder (h : divisor.RemainderOf capacity f r) :
    HasRemainder (divisor.image .integers) f := by
  obtain ⟨q, hq⟩ := h.identity
  exact ⟨q, _, hq, h.isRemainder⟩

/-- There is only one such buffer. -/
theorem RemainderOf.unique (h : divisor.RemainderOf capacity f r)
    (h' : divisor.RemainderOf capacity f r') (hd : divisor.Canonical .integers)
    (hzero : divisor.isZero = false) : r = r' := by
  obtain ⟨q, hq⟩ := h.identity
  obtain ⟨q', hq'⟩ := h'.identity
  have hunique := IsRemainder.unique (hd.leadingCoeff_mem_nonZeroDivisors hzero)
    (hq.symm.trans hq') h.isRemainder h'.isRemainder
  exact h.canonical.eq_of_image h'.canonical (h.capacity_eq.trans h'.capacity_eq.symm) hunique.2

/-- Multiplied by an integer that is not zero, it holds the remainder of the multiple. -/
theorem RemainderOf.exists_run_scale (h : divisor.RemainderOf capacity f r) {k : Int}
    (hk : k ≠ 0) :
    ∃ u, (scale .integers k).run r = .ok () u ∧ divisor.RemainderOf capacity (k • f) u := by
  obtain ⟨u, hrun, hu, hcap, himage⟩ := h.canonical.exists_run_scale hk
  obtain ⟨q, hq⟩ := h.identity
  refine ⟨u, hrun, hu, hcap.trans h.capacity_eq, ⟨k • q, ?_⟩, ?_⟩
  · rw [himage, hq, smul_add, smul_mul_assoc]
  · rw [himage]
    exact h.isRemainder.zsmul k

end RemainderOf

/-! ## What each elimination leaves -/

section Eliminations

variable (hp : dividend.Canonical .integers) (hd : divisor.Canonical .integers)
  (hzero : divisor.isZero = false) (hdeg : divisor.degree ≤ dividend.degree)
  (hword : dividend.capacity < degreeBound) (trace : Array Event)

include hp hword in
theorem Canonical.degree_add_one_lt : dividend.degree + 1 < degreeBound := by
  have := hp.degree_lt_capacity
  omega

include hp in
theorem Canonical.sound : dividend.Sound dividend.capacity True where
  toWellFormed := hp.toWellFormed
  capacity_eq := rfl
  trimmed _ := hp.normalized.trimmed

include hp hd hzero hdeg hword

/-- An exact division leaves the remainder of the dividend, or fails for want of one. -/
theorem divideExact_cases :
    (∃ q r trace', (divide .integers .exact dividend divisor).run trace = .ok (q, r) trace' ∧
      divisor.RemainderOf (dividend.degree + 1) (dividend.image .integers) r) ∨
    (∃ e trace', (divide .integers .exact dividend divisor).run trace = .error e trace') ∧
      ¬HasRemainder (divisor.image .integers) (dividend.image .integers) := by
  have hdegree := hp.degree_add_one_lt hword
  have hcases := LongDivision.run_exact_cases hp hd.toWellFormed hzero hdeg (by omega)
    (room_fresh dividend divisor trace)
  have hresult := run_divide_fresh hdegree .integers .exact divisor trace
  split at hcases
  · next s' hrun =>
    obtain ⟨s₁, rfl, hend⟩ := hcases
    rw [hrun] at hresult
    obtain ⟨-, -, hr⟩ := sound_divide hp.sound hword hresult
    obtain ⟨hidentity, hdegree, -, hremainder⟩ := hend.finished
    rw [C_1, one_mul] at hidentity
    exact .inl ⟨_, _, _, hresult, hremainder, hr.capacity_eq, ⟨_, hidentity⟩,
      hremainder.isRemainder_image hd hdegree⟩
  · next e s' hrun =>
    obtain ⟨shift, s₀, hfits, hs₀, hstep⟩ := hcases
    rw [hrun] at hresult
    refine .inr ⟨⟨_, _, hresult⟩, ?_⟩
    exact hs₀.not_hasRemainder hd hzero
      (faithfulLead_of_mem_nonZeroDivisors (hd.leadingCoeff_mem_nonZeroDivisors hzero))
      (LongDivision.refused_of_run_exactStep hfits hstep).2

/-- A pseudo-division leaves the remainder of the dividend multiplied at every step. -/
theorem exists_run_dividePseudo :
    ∃ q r trace', (divide .integers .pseudo dividend divisor).run trace = .ok (q, r) trace' ∧
      divisor.RemainderOf (dividend.degree + 1)
        (divisor.leading ^ (dividend.degree - divisor.degree + 1) • dividend.image .integers)
        r := by
  have hdegree := hp.degree_add_one_lt hword
  obtain ⟨s', hrun, hend⟩ := LongDivision.exists_run_pseudo hp hd hzero hdeg (by omega)
    (room_fresh dividend divisor trace)
  have hresult := run_divide_fresh hdegree .integers .pseudo divisor trace
  rw [hrun] at hresult
  obtain ⟨-, -, hr⟩ := sound_divide hp.sound hword hresult
  obtain ⟨hidentity, hlt, -, hremainder⟩ := hend.finished
  rw [← Int.cast_pow, C_intCast_mul] at hidentity
  exact ⟨_, _, _, hresult, hremainder, hr.capacity_eq, ⟨_, hidentity⟩,
    hremainder.isRemainder_image hd hlt⟩

/-- A reduction leaves the remainder of the dividend multiplied by the least integer that gives it
    one. -/
theorem exists_run_reduce :
    ∃ a r trace', (dividend.reduce divisor).run trace = .ok (a, r) trace' ∧
      divisor.RemainderOf (dividend.degree + 1) (a • dividend.image .integers) r ∧
      a ∣ divisor.leading ^ (dividend.degree - divisor.degree + 1) ∧
      (∀ t : Int, HasRemainder (divisor.image .integers) (t • dividend.image .integers) ↔ a ∣ t) ∧
      (IsUnit a → a = 1) := by
  have hdegree := hp.degree_add_one_lt hword
  have hlt := degree_lt_capacity_fresh dividend trace
  obtain ⟨s', hrun, hend⟩ := Reduction.exists_run_partial hp hd hzero hdeg (by omega)
    (wellFormed_replicate _) hlt
  have hresult := run_reduce_fresh hdegree divisor trace
  rw [hrun] at hresult
  obtain ⟨-, hr⟩ := sound_reduce hp.sound hword hresult
  refine ⟨_, _, _, hresult, ⟨hend.reduced, hr.capacity_eq, hend.identity, hend.isRemainder hd⟩,
    hend.multiplier_dvd_pow, fun t => hend.hasRemainder_iff hd, ?_⟩
  exact Reduction.eq_one_of_isUnit_of_run (hd.leading_ne_zero hzero) hzero hdeg (by omega) hlt hrun

end Eliminations

/-! ## Agreement -/

section Agreement

variable {a : Int} {reduced : Buffer} (hp : dividend.Canonical .integers)
  (hd : divisor.Canonical .integers) (hzero : divisor.isZero = false)
  (hdeg : divisor.degree ≤ dividend.degree) (hword : dividend.capacity < degreeBound)
  (hreduced : divisor.RemainderOf (dividend.degree + 1) (a • dividend.image .integers) reduced)
  (trace : Array Event)

include hp hd hzero hdeg hword hreduced

/-- What a pseudo-division leaves is a multiple of the remainder of any multiple of the dividend by
    a divisor of its power of the leading coefficient. -/
theorem exists_run_dividePseudo_scale
    (hdvd : a ∣ divisor.leading ^ (dividend.degree - divisor.degree + 1)) :
    ∃ q r trace', (divide .integers .pseudo dividend divisor).run trace = .ok (q, r) trace' ∧
      (scale .integers (divisor.leading ^ (dividend.degree - divisor.degree + 1) / a)).run reduced =
        .ok () r := by
  obtain ⟨q, r, trace', hpseudo, hr⟩ := exists_run_dividePseudo hp hd hzero hdeg hword trace
  have hpower : divisor.leading ^ (dividend.degree - divisor.degree + 1) ≠ 0 :=
    pow_ne_zero _ (hd.leading_ne_zero hzero)
  obtain ⟨u, hscale, hu⟩ := hreduced.exists_run_scale
    fun h => hpower (Int.eq_zero_of_ediv_eq_zero hdvd h)
  rw [← mul_smul, Int.ediv_mul_cancel hdvd] at hu
  exact ⟨q, r, trace', hpseudo, hu.unique hr hd hzero ▸ hscale⟩

/-- If the dividend itself has a remainder exactly when `a` is one, an exact division succeeds
    exactly then, and leaves it. -/
theorem divideExact_succeeds_iff
    (hone : HasRemainder (divisor.image .integers) (dividend.image .integers) ↔ a = 1) :
    ((∃ q r trace', (divide .integers .exact dividend divisor).run trace = .ok (q, r) trace') ↔
        a = 1) ∧
      ∀ q r trace', (divide .integers .exact dividend divisor).run trace = .ok (q, r) trace' →
        r = reduced := by
  rcases divideExact_cases hp hd hzero hdeg hword trace with
    ⟨q, r, trace', hexact, hr⟩ | ⟨⟨e, trace', hexact⟩, hnone⟩
  · obtain rfl : a = 1 := hone.1 hr.hasRemainder
    rw [one_smul] at hreduced
    refine ⟨⟨fun _ => rfl, fun _ => ⟨q, r, trace', hexact⟩⟩, fun q' r' trace₁ hexact' => ?_⟩
    rw [hexact] at hexact'
    cases hexact'
    exact hr.unique hreduced hd hzero
  · rw [hexact]
    refine ⟨⟨?_, fun h => absurd (hone.2 h) hnone⟩, ?_⟩
    · rintro ⟨q, r, trace₁, hexact'⟩
      cases hexact'
    · intro q r trace₁ hexact'
      cases hexact'

/-- Once the dividend is multiplied by an integer for which there is a remainder, an exact division
    leaves it. -/
theorem exists_run_scale_divideExact (ha : a ≠ 0) :
    ∃ scaled, (scale .integers a).run dividend = .ok () scaled ∧ ∃ q trace',
      (divide .integers .exact scaled divisor).run trace = .ok (q, reduced) trace' := by
  obtain ⟨scaled, hscale, hs, hcap, himage⟩ := hp.exists_run_scale ha
  have hdegree : scaled.degree = dividend.degree := by
    rw [← hs.natDegree_image, himage, ← C_intCast_mul, natDegree_C_mul, hp.natDegree_image]
    exact_mod_cast ha
  refine ⟨scaled, hscale, ?_⟩
  rcases divideExact_cases hs hd hzero (hdegree ▸ hdeg) (hcap ▸ hword) trace with
    ⟨q, r, trace', hexact, hr⟩ | ⟨-, hnone⟩
  · rw [himage, hdegree] at hr
    exact ⟨q, trace', hr.unique hreduced hd hzero ▸ hexact⟩
  · rw [himage] at hnone
    exact absurd hreduced.hasRemainder hnone

end Agreement

/-- Over the integers, let a reduction give the multiplier `a`. It divides the power of the leading
    coefficient that a pseudo-division multiplies with, and what the pseudo-division leaves is the
    reduced polynomial multiplied by the quotient of the two. An exact division succeeds exactly
    when `a` is one, and then leaves the reduced polynomial. Once the dividend is multiplied by `a`,
    an exact division succeeds in any case, and leaves it too. -/
theorem eliminations_agree (hp : dividend.Canonical .integers) (hd : divisor.Canonical .integers)
    (hzero : divisor.isZero = false) (hdeg : divisor.degree ≤ dividend.degree)
    (hword : dividend.capacity < degreeBound) (trace : Array Event) :
    let power := divisor.leading ^ (dividend.degree - divisor.degree + 1)
    ∃ a reduced trace₁, (dividend.reduce divisor).run trace = .ok (a, reduced) trace₁ ∧
      (a ∣ power ∧ ∃ q r trace₂,
        (divide .integers .pseudo dividend divisor).run trace = .ok (q, r) trace₂ ∧
        (scale .integers (power / a)).run reduced = .ok () r) ∧
      (((∃ q r trace₂, (divide .integers .exact dividend divisor).run trace = .ok (q, r) trace₂) ↔
          a = 1) ∧
        ∀ q r trace₂, (divide .integers .exact dividend divisor).run trace = .ok (q, r) trace₂ →
          r = reduced) ∧
      ∃ scaled, (scale .integers a).run dividend = .ok () scaled ∧ ∃ q trace₂,
        (divide .integers .exact scaled divisor).run trace = .ok (q, reduced) trace₂ := by
  intro power
  obtain ⟨a, reduced, trace₁, hrun, hreduced, hdvd, hiff, hunit⟩ :=
    exists_run_reduce hp hd hzero hdeg hword trace
  have ha : a ≠ 0 := ne_zero_of_dvd_ne_zero (pow_ne_zero _ (hd.leading_ne_zero hzero)) hdvd
  -- The dividend itself has a remainder exactly when the least multiplier is a unit.
  have hone : HasRemainder (divisor.image .integers) (dividend.image .integers) ↔ a = 1 := by
    rw [← one_smul Int (dividend.image .integers), hiff, ← isUnit_iff_dvd_one]
    exact ⟨hunit, fun h => h ▸ isUnit_one⟩
  exact ⟨a, reduced, trace₁, hrun,
    ⟨hdvd, exists_run_dividePseudo_scale hp hd hzero hdeg hword hreduced trace hdvd⟩,
    divideExact_succeeds_iff hp hd hzero hdeg hword hreduced trace hone,
    exists_run_scale_divideExact hp hd hzero hdeg hword hreduced trace ha⟩

/-- By `6 x + 1`, the polynomial `4 x ^ 2 + 3` reduces to `-28` with the multiplier `-9`. The
    pseudo-division multiplies with `36` and leaves `112`, which is `-28` multiplied by `-4`; there
    is no exact division, but one of `-36 x ^ 2 - 27`, which leaves `-28`. -/
theorem eliminations_agree_six :
    let p : Buffer := ⟨3, #[3, 0, 4]⟩
    let d : Buffer := ⟨2, #[1, 6]⟩
    (∃ trace₁, (p.reduce d).run #[] = .ok (-9, ⟨1, #[-28, 0, 0]⟩) trace₁) ∧
      (∃ q trace₁, (divide .integers .pseudo p d).run #[] =
        .ok (q, ⟨1, #[112, 0, 0]⟩) trace₁) ∧
      (¬∃ q r trace₁, (divide .integers .exact p d).run #[] = .ok (q, r) trace₁) ∧
      ∃ q trace₁, (divide .integers .exact ⟨3, #[-27, 0, -36]⟩ d).run #[] =
        .ok (q, ⟨1, #[-28, 0, 0]⟩) trace₁ := by
  intro p d
  have hp : p.Canonical .integers := by
    decide +kernel
  have hd : d.Canonical .integers := by
    decide +kernel
  obtain ⟨a, reduced, trace₁, hrun, ⟨-, q, r, trace₂, hpseudo, hr⟩, ⟨hexact, -⟩, scaled, hs,
    hdivide⟩ := eliminations_agree hp hd (by decide) (by decide) (by decide) #[]
  have hvalue : (p.reduce d).run' #[] = some (-9, ⟨1, #[-28, 0, 0]⟩) := by
    decide +kernel
  rw [Action.run'_of_run_ok hrun] at hvalue
  obtain ⟨rfl, rfl⟩ := Prod.mk.inj (Option.some.inj hvalue)
  have hpower : (scale .integers (d.leading ^ (p.degree - d.degree + 1) / -9)).finalState
      ⟨1, #[-28, 0, 0]⟩ = .ok ⟨1, #[112, 0, 0]⟩ := by
    decide +kernel
  have hmultiplier : (scale .integers (-9)).finalState p = .ok ⟨3, #[-27, 0, -36]⟩ := by
    decide +kernel
  rw [Action.finalState, hr] at hpower
  rw [Action.finalState, hs] at hmultiplier
  obtain rfl := Except.ok.inj hpower
  obtain rfl := Except.ok.inj hmultiplier
  refine ⟨⟨trace₁, hrun⟩, ⟨q, trace₂, hpseudo⟩, ?_, hdivide⟩
  rw [hexact]
  decide

end Buffer

end Univariate
