import Univariate.Proofs.DivisionInBuffers

/-!
# Primitive parts

The primitive part of a polynomial is computed over the integers, on the canonical representatives
of the coefficients, and then reduced into the ring. A quotient by the content is no larger than
the representative it is from, so that this reduction changes at most its sign: the one integer that
can be out of range is the opposite of `-m / 2`, modulo an even `m`, and it stands for the same
element.

* `Poly.dvd_content_iff` and `Buffer.WellFormed.dvd_content_iff` characterize a content by what
  divides it, in whichever order the common divisors are taken (`Buffer.Holds.content_eq`).
* `Poly.IsPrimitivePart` says what the coefficients of a primitive part are, and
  `Poly.exists_primitivePart` that they are computed. Reducing them into the ring keeps their
  absolute values (`CoeffRing.natAbs_normalize`).
* `Poly.primitivePart_represents` puts it together. The leading coefficient ends up positive unless
  it is `-m / 2` and nothing can be divided out, where no sign would make it positive.
-/

namespace Univariate

open Polynomial

/-! ## Canonical representatives of a given size -/

namespace CoeffRing

variable {R : CoeffRing} {x y : Int}

/-- The range of the canonical integers is symmetric but for its least element. -/
theorem contains_of_natAbs_lt (hx : R.contains x = true) (h : y.natAbs < x.natAbs) :
    R.contains y = true := by
  cases R with
  | integers => rfl
  | modular m prime hm =>
    rw [contains_modular_iff] at hx ⊢
    omega

/-- The least canonical integer, half an even modulus below zero, is the only one whose opposite is
    not canonical. -/
theorem two_mul_eq_of_contains_neg (hx : R.contains x = true) (h : R.contains (-x) = false) :
    2 * x = -(R.characteristic : Int) := by
  cases R with
  | integers => cases h
  | modular m prime hm =>
    rw [contains_modular_iff] at hx
    rw [← Bool.not_eq_true, contains_modular_iff] at h
    change 2 * x = -(m : Int)
    omega

/-- It stands for its own opposite. -/
theorem neg_eq_self_of_two_mul (hx : R.contains x = true)
    (h : 2 * x = -(R.characteristic : Int)) : R.neg x = x := by
  refine eq_of_contains (contains_normalize R _) hx ?_
  rw [neg, cast_normalize]
  exact (ZMod.intCast_eq_intCast_iff_dvd_sub (-x) x R.characteristic).2 ⟨-1, by omega⟩

/-- What is no larger than a canonical integer and not canonical is the opposite of the least
    one. -/
theorem eq_neg_of_contains_eq_false (hx : R.contains x = true) (h : y.natAbs ≤ x.natAbs)
    (hy : R.contains y = false) : x = -y ∧ 2 * x = -(R.characteristic : Int) := by
  have heq : y.natAbs = x.natAbs := le_antisymm h <| not_lt.1 fun hlt => by
    rw [contains_of_natAbs_lt hx hlt] at hy
    cases hy
  rcases Int.natAbs_eq_natAbs_iff.1 heq with rfl | rfl
  · rw [hx] at hy
    cases hy
  · exact ⟨(neg_neg x).symm, two_mul_eq_of_contains_neg hx hy⟩

/-- Reducing an integer that is no larger than a canonical one keeps its absolute value. -/
theorem natAbs_normalize (hx : R.contains x = true) (h : y.natAbs ≤ x.natAbs) :
    (R.normalize y).natAbs = y.natAbs := by
  cases hy : R.contains y with
  | true => rw [normalize_of_contains hy]
  | false =>
    obtain ⟨hopposite, htwo⟩ := eq_neg_of_contains_eq_false hx h hy
    obtain rfl : y = -x := neg_eq_iff_eq_neg.1 hopposite.symm
    rw [← neg, neg_eq_self_of_two_mul hx htwo, Int.natAbs_neg]

/-- It keeps a positive one positive, unless this is the opposite of the least canonical integer. -/
theorem normalize_pos_or (hx : R.contains x = true) (hy : 0 < y) (h : y.natAbs ≤ x.natAbs) :
    0 < R.normalize y ∨ x = -y ∧ 2 * x = -(R.characteristic : Int) := by
  cases hcontains : R.contains y with
  | true =>
    left
    rwa [normalize_of_contains hcontains]
  | false => exact .inr (eq_neg_of_contains_eq_false hx h hcontains)

end CoeffRing

/-! ## Contents -/

variable {R : CoeffRing} {p q r : Poly} {t : Buffer} {n : Nat}

/-- Common divisors that are taken from the other end are the same. -/
theorem Buffer.dvd_foldl_gcd_iff (n : Nat) (cs : List Int) :
    n ∣ cs.foldl (fun g c => Nat.gcd g c.natAbs) 0 ↔ ∀ c ∈ cs, (n : Int) ∣ c := by
  rw [← List.foldr_reverse, dvd_foldr_gcd_iff]
  simp only [List.mem_reverse]

namespace Poly

/-- What divides the content is what divides all coefficients. -/
theorem dvd_content_iff : n ∣ p.content ↔ ∀ i, (n : Int) ∣ p.coeff i := by
  have hfold := Buffer.dvd_foldl_gcd_iff n (p.terms.map Term.coefficient)
  rw [List.foldl_map, List.forall_mem_map] at hfold
  refine hfold.trans ⟨fun h i => ?_, fun h a ha => ?_⟩
  · by_cases hi : p.coeff i = 0
    · rw [hi]
      exact dvd_zero _
    · exact h _ (mem_of_coeff_ne_zero hi)
  · rw [← coeff_of_mem ha]
    exact h a.degree

theorem content_dvd_coeff (p : Poly) (i : Nat) : (p.content : Int) ∣ p.coeff i :=
  dvd_content_iff.1 dvd_rfl i

theorem content_ne_zero (hz : p.isZero = false) : p.content ≠ 0 := by
  intro hzero
  have hdvd := p.content_dvd_coeff p.degree
  rw [hzero, Int.natCast_zero, zero_dvd_iff] at hdvd
  exact coeff_degree_ne_zero hz hdvd

/-- The content with the sign of the leading coefficient. -/
def signedContent (p : Poly) : Int :=
  if p.coeff p.degree < 0 then -p.content else p.content

theorem natAbs_signedContent (p : Poly) : p.signedContent.natAbs = p.content := by
  rw [signedContent]
  split
  · rw [Int.natAbs_neg, Int.natAbs_natCast]
  · rw [Int.natAbs_natCast]

theorem signedContent_dvd_coeff (p : Poly) (i : Nat) : p.signedContent ∣ p.coeff i := by
  rw [← Int.natAbs_dvd, natAbs_signedContent]
  exact p.content_dvd_coeff i

/-- The content times the quotient by the signed content is the coefficient, but for its sign. -/
theorem content_mul_natAbs_ediv (p : Poly) (i : Nat) :
    p.content * (p.coeff i / p.signedContent).natAbs = (p.coeff i).natAbs := by
  rw [← natAbs_signedContent, ← Int.natAbs_mul, Int.mul_ediv_cancel' (p.signedContent_dvd_coeff i)]

theorem ediv_signedContent_pos (hz : p.isZero = false) :
    0 < p.coeff p.degree / p.signedContent := by
  have hdvd := p.content_dvd_coeff p.degree
  have hne := coeff_degree_ne_zero hz
  rw [signedContent]
  split_ifs with hlt
  · rw [Int.ediv_neg, ← Int.neg_ediv_of_dvd hdvd]
    exact Int.ediv_pos_of_pos_of_dvd (by omega) (Int.natCast_nonneg _) ((dvd_neg).2 hdvd)
  · exact Int.ediv_pos_of_pos_of_dvd (by omega) (Int.natCast_nonneg _) hdvd

end Poly

namespace Buffer

theorem WellFormed.dvd_content_iff (h : t.WellFormed) :
    n ∣ t.content ↔ ∀ i, (n : Int) ∣ t.slot i := by
  rw [content, dvd_foldr_gcd_iff, h.coefficients_eq, List.forall_mem_map]
  refine ⟨fun hall i => ?_, fun hall i _ => hall i⟩
  by_cases hi : i < t.size
  · exact hall i (List.mem_range.2 hi)
  · rw [h.slot_eq_zero i (not_lt.1 hi)]
    exact dvd_zero _

/-- The content is the same before and after packing. -/
theorem Holds.content_eq (h : t.Holds p) : t.content = p.content := by
  refine Nat.dvd_left_iff_eq.1 fun n => ?_
  rw [h.wellFormed.dvd_content_iff, Poly.dvd_content_iff]
  exact forall_congr' fun i => by rw [h.slot_eq]

theorem Holds.primitiveDivisor_eq (h : t.Holds p) :
    t.primitiveDivisor true = p.signedContent := by
  rw [primitiveDivisor, Poly.signedContent, h.content_eq, h.leading_eq]
  simp only [Bool.true_and, decide_eq_true_eq]

/-- A trimmed buffer has the content zero only if it is the zero buffer. -/
theorem WellFormed.content_ne_zero (h : t.WellFormed) (htrimmed : t.Trimmed)
    (hz : t.isZero = false) : t.content ≠ 0 := by
  intro hcontent
  -- A zero content would divide the leading coefficient, which is not zero.
  have hdvd := h.dvd_content_iff.1 dvd_rfl t.degree
  rw [hcontent, Int.natCast_zero, zero_dvd_iff] at hdvd
  exact htrimmed.leading_ne_zero hz hdvd

/-- Making a trimmed buffer primitive divides every slot, and changes neither the size nor the
    capacity. -/
theorem WellFormed.exists_run_makePrimitive (h : t.WellFormed) (htrimmed : t.Trimmed)
    (positive : Bool) :
    ∃ u, (makePrimitive positive).run t = .ok () u ∧ u.WellFormed ∧ u.size = t.size ∧
      u.capacity = t.capacity ∧ ∀ i, u.slot i = t.slot i / t.primitiveDivisor positive := by
  rw [run_makePrimitive]
  split_ifs with hzero hcontent
  · -- The zero polynomial stays as it is.
    refine ⟨t, rfl, h, rfl, rfl, fun i => ?_⟩
    rw [h.slot_of_isZero hzero, Int.zero_ediv]
  · exact absurd hcontent (h.content_ne_zero htrimmed (by simpa using hzero))
  · refine ⟨_, rfl, h.mapNonzero _, rfl, t.capacity_mapNonzero _, fun i => ?_⟩
    rw [slot_mapNonzero]
    split_ifs with hi
    · rfl
    · rw [h.slot_eq_zero_of_not hi, Int.zero_ediv]

/-- Dividing an unpacked polynomial by its signed content divides every slot. -/
theorem Holds.exists_run_makePrimitive (h : t.Holds p) :
    ∃ u, (makePrimitive true).run t = .ok () u ∧ u.WellFormed ∧
      ∀ i, u.slot i = p.coeff i / p.signedContent := by
  obtain ⟨u, hrun, hu, -, -, hslot⟩ := h.wellFormed.exists_run_makePrimitive
    h.canonical_integers.normalized.trimmed true
  refine ⟨u, hrun, hu, fun i => ?_⟩
  rw [hslot, h.slot_eq, h.primitiveDivisor_eq]

end Buffer

/-! ## The primitive part -/

namespace Poly

/-- The coefficients of `r` are those of `p`, divided by the signed content and reduced into the
    ring of `p`. -/
structure IsPrimitivePart (p r : Poly) : Prop where
  ring_eq : r.ring = p.ring
  coeff_eq : ∀ i, r.coeff i = p.ring.normalize (p.coeff i / p.signedContent)

theorem exists_primitivePart (hword : p.degree + 1 < degreeBound) :
    ∃ r, p.primitivePart = .ok r ∧ IsPrimitivePart p r := by
  obtain ⟨t, hof, -⟩ := Buffer.ofPoly_of_lt (Nat.lt_succ_self p.degree)
  obtain ⟨u, hrun, hu, hslot⟩ := (Buffer.holds_of_ofPoly hof).exists_run_makePrimitive
  refine ⟨u.toPoly p.ring, ?_, rfl, fun i => ?_⟩
  · rw [primitivePart, edited, addDegrees, if_pos hword, ok_bind, hof, ok_bind, Action.finalState,
      hrun]
    rfl
  · rw [Buffer.coeff_toPoly hu, hslot]

theorem primitivePart_eq_error (hword : ¬p.degree + 1 < degreeBound) :
    p.primitivePart = .error (.faulted .degreeOverflow) :=
  edited_eq_error p hword _

namespace IsPrimitivePart

/-- Reducing the quotients into the ring keeps their absolute values. -/
theorem natAbs_coeff (h : IsPrimitivePart p r) (i : Nat) :
    (r.coeff i).natAbs = (p.coeff i / p.signedContent).natAbs := by
  rw [h.coeff_eq]
  exact CoeffRing.natAbs_normalize (p.contains_coeff i) (Int.natAbs_ediv_le_natAbs _ _)

theorem content_mul_natAbs (h : IsPrimitivePart p r) (i : Nat) :
    p.content * (r.coeff i).natAbs = (p.coeff i).natAbs := by
  rw [h.natAbs_coeff, content_mul_natAbs_ediv]

/-- A common divisor of the quotients, times the content, divides the coefficients. -/
theorem content_eq_one (h : IsPrimitivePart p r) (hz : p.isZero = false) : r.content = 1 := by
  have hdvd : p.content * r.content ∣ p.content * 1 := by
    rw [mul_one]
    refine dvd_content_iff.2 fun i => ?_
    rw [Int.natCast_dvd, ← h.content_mul_natAbs]
    exact Nat.mul_dvd_mul_left _ (Int.natCast_dvd.1 (r.content_dvd_coeff i))
  exact Nat.dvd_one.1 (Nat.dvd_of_mul_dvd_mul_left (Nat.pos_of_ne_zero (content_ne_zero hz)) hdvd)

theorem signedContent_mul_image (h : IsPrimitivePart p r) (hp : p.ring = R) :
    C (p.signedContent : R.Element) * r.image R = p.image R := by
  subst hp
  ext i
  rw [coeff_C_mul, coeff_image, coeff_image, h.coeff_eq, CoeffRing.cast_normalize, ← Int.cast_mul,
    Int.mul_ediv_cancel' (p.signedContent_dvd_coeff i)]

/-- The content times the primitive part is the polynomial or its opposite. -/
theorem content_mul_image (h : IsPrimitivePart p r) (hp : p.ring = R) :
    C (p.content : R.Element) * r.image R = p.image R ∨
      C (p.content : R.Element) * r.image R = -p.image R := by
  have hsigned := h.signedContent_mul_image hp
  rw [signedContent] at hsigned
  split_ifs at hsigned
  · right
    rw [Int.cast_neg, Int.cast_natCast, C_neg, neg_mul, neg_eq_iff_eq_neg] at hsigned
    exact hsigned
  · left
    rwa [Int.cast_natCast] at hsigned

theorem degree_eq (h : IsPrimitivePart p r) (hz : p.isZero = false) : r.degree = p.degree := by
  refine degree_eq_of_coeff (fun hr => coeff_degree_ne_zero hz ?_) fun i hi => ?_
  · rw [← Int.natAbs_eq_zero, ← h.content_mul_natAbs, hr, Int.natAbs_zero, mul_zero]
  · have hmul := h.content_mul_natAbs i
    rw [coeff_eq_zero_of_degree_lt hi, Int.natAbs_zero, Nat.mul_eq_zero] at hmul
    exact Int.natAbs_eq_zero.1 (hmul.resolve_left (content_ne_zero hz))

/-- The leading coefficient is positive, unless the polynomial has content one and half an even
    modulus, below zero, as its leading coefficient. -/
theorem leading_pos_iff (h : IsPrimitivePart p r) (hz : p.isZero = false) :
    0 < r.coeff r.degree ↔
      ¬(p.content = 1 ∧ 2 * p.coeff p.degree = -(p.ring.characteristic : Int)) := by
  have hcontains := p.contains_coeff p.degree
  rw [h.degree_eq hz, h.coeff_eq]
  constructor
  · rintro hpos ⟨hone, htwo⟩
    have hlt : p.coeff p.degree < 0 := by
      have := coeff_degree_ne_zero hz
      omega
    rw [signedContent, if_pos hlt, hone, Nat.cast_one, Int.ediv_neg, Int.ediv_one,
      ← CoeffRing.neg, CoeffRing.neg_eq_self_of_two_mul hcontains htwo] at hpos
    omega
  · intro hnot
    have hle := Int.natAbs_ediv_le_natAbs (p.coeff p.degree) p.signedContent
    refine (CoeffRing.normalize_pos_or hcontains (p.ediv_signedContent_pos hz) hle).resolve_right ?_
    rintro ⟨hopposite, htwo⟩
    refine hnot ⟨?_, htwo⟩
    -- The quotient is as large as the coefficient, and the content times as large as itself.
    have hsize := (congrArg Int.natAbs hopposite).trans (Int.natAbs_neg _)
    have hpos := Int.natAbs_pos.2 (p.ediv_signedContent_pos hz).ne'
    refine Nat.eq_of_mul_eq_mul_right hpos ?_
    rw [p.content_mul_natAbs_ediv, one_mul, hsize]

end IsPrimitivePart

/-- The opposite of a polynomial with such a leading coefficient has the same one. -/
theorem leading_eq_of_two_mul (hp : p.ring = R) (hq : q.ring = R)
    (htwo : 2 * p.coeff p.degree = -(R.characteristic : Int))
    (himage : q.image R = p.image R ∨ q.image R = -p.image R) :
    q.coeff q.degree = p.coeff p.degree := by
  subst hp
  rcases himage with himage | himage
  · rw [image_injective hq rfl himage]
  · obtain rfl : q = p.neg := image_injective hq rfl (himage.trans (image_neg rfl).symm)
    rw [degree_neg rfl, coeff_neg]
    exact CoeffRing.neg_eq_self_of_two_mul (p.contains_coeff p.degree) htwo

/-- Every polynomial that is not zero has a primitive part in its ring, if a machine word can count
    its coefficients. The content of this is one, and multiplied by the content of the polynomial,
    it gives the polynomial or its opposite. Its leading coefficient is positive, unless the
    polynomial has content one and the leading coefficient `-m / 2`, modulo an even `m`. Then this
    is the leading coefficient of whatever gives the polynomial or its opposite in that way. -/
theorem primitivePart_represents (hp : p.ring = R) (hz : p.isZero = false)
    (hword : p.degree + 1 < degreeBound) :
    ∃ r, p.primitivePart = .ok r ∧ r.ring = R ∧ r.content = 1 ∧
      (C (p.content : R.Element) * r.image R = p.image R ∨
        C (p.content : R.Element) * r.image R = -p.image R) ∧
      (0 < r.coeff r.degree ↔
        ¬(p.content = 1 ∧ 2 * p.coeff p.degree = -(R.characteristic : Int))) ∧
      (p.content = 1 → 2 * p.coeff p.degree = -(R.characteristic : Int) →
        ∀ q : Poly, q.ring = R →
          (C (p.content : R.Element) * q.image R = p.image R ∨
            C (p.content : R.Element) * q.image R = -p.image R) →
          q.coeff q.degree = p.coeff p.degree) := by
  obtain ⟨r, hprimitive, h⟩ := exists_primitivePart hword
  refine ⟨r, hprimitive, h.ring_eq.trans hp, h.content_eq_one hz, h.content_mul_image hp, ?_, ?_⟩
  · rw [← hp]
    exact h.leading_pos_iff hz
  · intro hone htwo q hq himage
    rw [hone, Nat.cast_one, C_1, one_mul] at himage
    exact leading_eq_of_two_mul hp hq htwo himage

/-- Modulo `12`, the primitive part of `-4 x ^ 2 + 4 x - 6` has content one and a positive leading
    coefficient. -/
theorem primitivePart_represents_twelve :
    let p := ofSlots (.modular 12 false (by decide)) [-6, 4, -4]
    ∃ r, p.primitivePart = .ok r ∧ r.content = 1 ∧ 0 < r.coeff r.degree := by
  intro p
  obtain ⟨r, hprimitive, -, hcontent, -, hpos, -⟩ :=
    primitivePart_represents (p := p) rfl (by decide +kernel) (by decide +kernel)
  exact ⟨r, hprimitive, hcontent, hpos.2 (by decide +kernel)⟩

/-- Modulo `4`, the primitive part of `-2 x + 1` is `-2 x - 1`. Over the integers, the power of `x`
    with the highest exponent has none, since its coefficients are more than a machine word can
    count. -/
theorem primitivePart_exceptions :
    let R : CoeffRing := .modular 4 false (by decide)
    let p := ofSlots R [1, -2]
    let r := ofSlots R [-1, -2]
    (p.isZero = false ∧ p.primitivePart = .ok r ∧ r.coeff r.degree = -2) ∧
      (highestPower .integers).isZero = false ∧
      (highestPower .integers).primitivePart = .error (.faulted .degreeOverflow) := by
  exact ⟨by decide +kernel, by decide, primitivePart_eq_error not_degree_highestPower_lt⟩

end Poly

end Univariate
