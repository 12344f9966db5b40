import Univariate.Proofs.PrimitiveParts

/-!
# Primitive buffers

Making a buffer primitive divides its slots by their content, in place and over the integers, and
with `positive` set also by the sign of the leading coefficient. No rounding takes place: the buffer
is the product of what it was divided by and what is left.

* `Buffer.foldl_gcd_eq_content` says that a content is the same in whichever order the common
  divisors are taken, and with or without the zeros.
* `Buffer.WellFormed.natAbs_mul_content_dvd` is why the content that is left is one: the content of
  a multiple is a multiple of the content.
* `Buffer.makePrimitive_represents` puts it together.
-/

namespace Univariate.Buffer

variable {t u : Buffer} {c : Int} {positive : Bool}

/-- Taking common divisors in another order, or leaving out zeros, gives the content too. -/
theorem foldl_gcd_eq_content {cs : List Int}
    (hcs : (cs.filter (· ≠ 0)).Perm (t.coefficients.filter (· ≠ 0))) :
    cs.foldl (fun g c => Nat.gcd g c.natAbs) 0 = t.content := by
  -- Divisibility does not see zeros.
  have hfilter : ∀ (n : Nat) (cs : List Int),
      (∀ c ∈ cs.filter (· ≠ 0), (n : Int) ∣ c) ↔ ∀ c ∈ cs, (n : Int) ∣ c := by
    intro n cs
    refine ⟨fun hall c hc => ?_, fun hall c hc => hall c (List.mem_of_mem_filter hc)⟩
    by_cases hzero : c = 0
    · rw [hzero]
      exact dvd_zero _
    · exact hall c (List.mem_filter.2 ⟨hc, by simpa using hzero⟩)
  refine Nat.dvd_left_iff_eq.1 fun n => ?_
  rw [dvd_foldl_gcd_iff, content, dvd_foldr_gcd_iff, ← hfilter, ← hfilter n t.coefficients]
  exact forall_congr' fun c => by rw [hcs.mem_iff]

theorem primitiveDivisor_eq (t : Buffer) (positive : Bool) :
    t.primitiveDivisor positive =
      (if positive = true ∧ t.leading < 0 then -1 else 1) * t.content := by
  simp only [primitiveDivisor, Bool.and_eq_true, decide_eq_true_eq]
  split_ifs
  · rw [neg_one_mul]
  · rw [one_mul]

theorem natAbs_primitiveDivisor (t : Buffer) (positive : Bool) :
    (t.primitiveDivisor positive).natAbs = t.content := by
  rw [primitiveDivisor]
  split
  · rw [Int.natAbs_neg, Int.natAbs_natCast]
  · rw [Int.natAbs_natCast]

theorem WellFormed.primitiveDivisor_dvd_slot (h : t.WellFormed) (positive : Bool) (i : Nat) :
    t.primitiveDivisor positive ∣ t.slot i := by
  rw [← Int.natAbs_dvd, natAbs_primitiveDivisor]
  exact h.dvd_content_iff.1 dvd_rfl i

/-- The content of a multiple is a multiple of the content. -/
theorem WellFormed.natAbs_mul_content_dvd (ht : t.WellFormed) (hu : u.WellFormed)
    (hslot : ∀ i, t.slot i = c * u.slot i) : c.natAbs * u.content ∣ t.content := by
  refine ht.dvd_content_iff.2 fun i => ?_
  rw [hslot, Int.natCast_dvd, Int.natAbs_mul]
  exact Nat.mul_dvd_mul_left _ (Int.natCast_dvd.1 (hu.dvd_content_iff.1 dvd_rfl i))

/-- Packing over the integers keeps the content. -/
theorem WellFormed.content_toPoly (h : t.WellFormed) :
    (t.toPoly .integers).content = t.content := by
  refine Nat.dvd_left_iff_eq.1 fun n => ?_
  rw [Poly.dvd_content_iff, h.dvd_content_iff]
  exact forall_congr' fun i => by
    rw [coeff_toPoly h, CoeffRing.normalize_of_contains rfl]

/-- A buffer that is primitive already is divided by one. -/
theorem WellFormed.run_makePrimitive_of_content (h : t.WellFormed) (hlead : t.leading ≠ 0)
    (hcontent : t.content = 1) (hpos : positive = true → 0 < t.leading) :
    (makePrimitive positive).run t = .ok () t := by
  obtain ⟨u, hrun, -, hsize, hcap, hslot⟩ := h.exists_run_makePrimitive (.inr hlead) positive
  have hone : t.primitiveDivisor positive = 1 := by
    rw [primitiveDivisor_eq, hcontent, if_neg fun hneg => lt_asymm hneg.2 (hpos hneg.1)]
    rfl
  obtain rfl : u = t := ext_slot hsize hcap fun i => by rw [hslot, hone, Int.ediv_one]
  exact hrun

/-- What making a trimmed buffer primitive leaves. -/
structure IsPrimitiveOf (positive : Bool) (t u : Buffer) : Prop extends u.WellFormed where
  size_eq : u.size = t.size
  capacity_eq : u.capacity = t.capacity
  slot_eq : ∀ i, t.slot i = t.primitiveDivisor positive * u.slot i

namespace IsPrimitiveOf

theorem leading_eq (h : IsPrimitiveOf positive t u) :
    t.leading = t.primitiveDivisor positive * u.leading := by
  rw [leading, leading, degree, degree, h.size_eq]
  exact h.slot_eq _

theorem leading_ne_zero (h : IsPrimitiveOf positive t u) (hlead : t.leading ≠ 0) :
    u.leading ≠ 0 := by
  rw [h.leading_eq] at hlead
  exact right_ne_zero_of_mul hlead

/-- The sign of the leading coefficient is divided out. -/
theorem leading_pos (h : IsPrimitiveOf true t u) (hlead : t.leading ≠ 0) (hc : t.content ≠ 0) :
    0 < u.leading := by
  have hpos : (0 : Int) < t.content := Int.natCast_pos.2 (Nat.pos_of_ne_zero hc)
  have heq := h.leading_eq
  rw [primitiveDivisor_eq] at heq
  refine (mul_pos_iff_of_pos_left hpos).1 ?_
  split_ifs at heq with hneg
  · rw [neg_one_mul, neg_mul] at heq
    omega
  · rw [one_mul] at heq
    have : ¬t.leading < 0 := fun hlt => hneg ⟨rfl, hlt⟩
    omega

theorem content_eq_one (h : IsPrimitiveOf positive t u) (ht : t.WellFormed) (hc : t.content ≠ 0) :
    u.content = 1 := by
  have hdvd := ht.natAbs_mul_content_dvd h.toWellFormed h.slot_eq
  rw [natAbs_primitiveDivisor] at hdvd
  exact Nat.dvd_one.1 ((Nat.mul_dvd_mul_iff_left (Nat.pos_of_ne_zero hc)).1 (by rwa [mul_one]))

end IsPrimitiveOf

theorem WellFormed.exists_isPrimitiveOf (h : t.WellFormed) (htrimmed : t.Trimmed)
    (positive : Bool) : ∃ u, (makePrimitive positive).run t = .ok () u ∧
      IsPrimitiveOf positive t u := by
  obtain ⟨u, hrun, hu, hsize, hcap, hslot⟩ := h.exists_run_makePrimitive htrimmed positive
  refine ⟨u, hrun, hu, hsize, hcap, fun i => ?_⟩
  rw [hslot, Int.mul_ediv_cancel' (h.primitiveDivisor_dvd_slot positive i)]

/-- A trimmed buffer that is not zero is its content times what making it primitive leaves, or the
    opposite of this if the leading coefficient was negative and is to become positive. What is left
    has content one, and making it primitive again changes nothing. The content is that of the
    packed polynomial too, and that of the coefficients in any order, with or without zeros. -/
theorem makePrimitive_represents (h : t.WellFormed) (htrimmed : t.Trimmed)
    (hz : t.isZero = false) (positive : Bool) :
    let s : Int := if positive = true ∧ t.leading < 0 then -1 else 1
    (∃ u, (makePrimitive positive).run t = .ok () u ∧
      u.size = t.size ∧ u.capacity = t.capacity ∧
      (∀ i, t.slot i = s * t.content * u.slot i) ∧ u.content = 1 ∧
      (positive = true → 0 < u.leading) ∧ (makePrimitive positive).run u = .ok () u) ∧
    (t.toPoly .integers).content = t.content ∧
    ∀ cs : List Int, (cs.filter (· ≠ 0)).Perm (t.coefficients.filter (· ≠ 0)) →
      cs.foldl (fun g c => Nat.gcd g c.natAbs) 0 = t.content := by
  intro s
  have hlead := htrimmed.leading_ne_zero hz
  have hcontent := h.content_ne_zero htrimmed hz
  obtain ⟨u, hrun, hu⟩ := h.exists_isPrimitiveOf htrimmed positive
  have hpos : positive = true → 0 < u.leading := by
    rintro rfl
    exact hu.leading_pos hlead hcontent
  have hone := hu.content_eq_one h hcontent
  refine ⟨⟨u, hrun, hu.size_eq, hu.capacity_eq, ?_, hone, hpos,
    hu.run_makePrimitive_of_content (hu.leading_ne_zero hlead) hone hpos⟩, h.content_toPoly,
    fun cs hcs => foldl_gcd_eq_content hcs⟩
  intro i
  rw [← primitiveDivisor_eq]
  exact hu.slot_eq i

/-- The content of `-6 x ^ 3 + 4 x` is two, and the buffer becomes `3 x ^ 3 - 2 x` if the leading
    coefficient is to be positive. -/
theorem makePrimitive_represents_negative :
    let t : Buffer := ⟨4, #[0, 4, 0, -6, 0]⟩
    (makePrimitive true).run t = .ok () ⟨4, #[0, -2, 0, 3, 0]⟩ ∧
      [-6, 4].foldl (fun g c => Nat.gcd g c.natAbs) 0 = t.content := by
  intro t
  obtain ⟨⟨u, hrun, -⟩, -, hfold⟩ := makePrimitive_represents (t := t) (by decide +kernel)
    (.inr (by decide)) (by decide) true
  have hvalue : (makePrimitive true).finalState t = .ok ⟨4, #[0, -2, 0, 3, 0]⟩ := by
    decide +kernel
  rw [Action.finalState, hrun] at hvalue
  obtain rfl := Except.ok.inj hvalue
  exact ⟨hrun, hfold _ (by decide +kernel)⟩

end Univariate.Buffer
