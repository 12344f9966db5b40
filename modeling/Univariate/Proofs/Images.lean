import Mathlib.Algebra.Polynomial.Degree.Lemmas
import Univariate.Proofs.EditInvariance

/-!
# Images in the ring of polynomials

The integers in the slots of a buffer, and those in the terms of a polynomial, stand for the
coefficients of a polynomial over the elements of a coefficient ring, their *image*.

* `Buffer.coeff_image` and `Poly.coeff_image` read an image through its coefficients. The slots of a
  well-formed buffer that are not significant do not count (`Buffer.image_eq_significant`).
* Trimming does not change the image, since what it drops is zero in the ring (`Buffer.image_trim`);
  the other edits change it as they say (`Buffer.image_subShifted`, `Buffer.image_mapNonzero`, …).
* A polynomial over a ring is determined by its image, and every image has one
  (`Poly.representing`): the polynomials over a ring are a representation of the polynomial ring.
-/

namespace Univariate

open Polynomial

/-- The polynomial with the coefficients that the integers `c i` stand for, below the exponent
    `n`. -/
noncomputable def CoeffRing.polynomial (R : CoeffRing) (n : Nat) (c : Nat → Int) : R.Element[X] :=
  ∑ i ∈ Finset.range n, monomial i (c i : R.Element)

theorem CoeffRing.coeff_polynomial (R : CoeffRing) (n : Nat) (c : Nat → Int) (i : Nat) :
    (R.polynomial n c).coeff i = if i < n then (c i : R.Element) else 0 := by
  simp [CoeffRing.polynomial, coeff_monomial]

/-- The coefficients of a shifted multiple are the multiples of the shifted coefficients. -/
theorem coeff_monomial_mul_eq_ite {A : Type} [CommRing A] (f : A[X]) (d i : Nat) (c : A) :
    (monomial d c * f).coeff i = if d ≤ i then c * f.coeff (i - d) else 0 := by
  rw [← C_mul_X_pow_eq_monomial, mul_assoc, coeff_C_mul, coeff_X_pow_mul']
  split_ifs
  · rfl
  · exact mul_zero c

/-! ## Polynomials -/

namespace Poly

variable {R : CoeffRing} {p q : Poly}

/-- The polynomial that the terms hold. -/
noncomputable def image (R : CoeffRing) (p : Poly) : R.Element[X] :=
  R.polynomial (p.degree + 1) p.coeff

@[simp] theorem coeff_image (R : CoeffRing) (p : Poly) (d : Nat) :
    (p.image R).coeff d = (p.coeff d : R.Element) := by
  rw [image, CoeffRing.coeff_polynomial]
  split_ifs with hd
  · rfl
  · rw [coeff_eq_zero_of_degree_lt (by omega), Int.cast_zero]

/-- A polynomial over a ring is determined by its image. -/
theorem image_injective (hp : p.ring = R) (hq : q.ring = R) (h : p.image R = q.image R) :
    p = q := by
  refine ext_coeff (hp.trans hq.symm) fun d => ?_
  refine CoeffRing.eq_of_contains (R := R) (hp ▸ p.contains_coeff d) (hq ▸ q.contains_coeff d) ?_
  rw [← coeff_image, ← coeff_image, h]

/-- The polynomial over the ring with the given image. -/
noncomputable def representing (R : CoeffRing) (f : R.Element[X]) : Poly :=
  ofSlots R ((List.range (f.natDegree + 1)).map fun d => (f.coeff d).cast)

@[simp] theorem ring_representing (R : CoeffRing) (f : R.Element[X]) :
    (representing R f).ring = R :=
  rfl

@[simp] theorem image_representing (R : CoeffRing) (f : R.Element[X]) :
    (representing R f).image R = f := by
  ext d
  rw [coeff_image, representing, coeff_ofSlots, CoeffRing.cast_normalize, List.getElem?_map]
  by_cases hd : d < f.natDegree + 1
  · rw [List.getElem?_range hd]
    exact ZMod.intCast_zmod_cast _
  · rw [List.getElem?_eq_none (by simpa using hd), coeff_eq_zero_of_natDegree_lt (by omega)]
    exact Int.cast_zero

/-- It is the only one. -/
theorem eq_representing {f : R.Element[X]} (hp : p.ring = R) (h : p.image R = f) :
    p = representing R f :=
  image_injective hp rfl (h.trans (image_representing R f).symm)

theorem representing_image (hp : p.ring = R) : representing R (p.image R) = p :=
  (eq_representing hp rfl).symm

/-- The coefficients of a polynomial, listed and read over a ring. -/
theorem ofSlots_coefficients (R : CoeffRing) (p : Poly) :
    ofSlots R ((List.range (p.degree + 1)).map p.coeff) = representing R (p.image R) := by
  refine eq_representing rfl ?_
  ext i
  rw [coeff_image, coeff_ofSlots_coefficients, CoeffRing.cast_normalize, coeff_image]

@[simp] theorem image_zero (R : CoeffRing) : (zero R).image R = 0 := by
  ext d
  rw [coeff_image, Polynomial.coeff_zero]
  exact Int.cast_zero

theorem representing_zero (R : CoeffRing) : representing R 0 = zero R :=
  (eq_representing rfl (image_zero R)).symm

theorem image_of_isZero (R : CoeffRing) (h : p.isZero = true) : p.image R = 0 := by
  ext d
  rw [coeff_image, Polynomial.coeff_zero, coeff, terms_eq_nil_of_isZero h]
  exact Int.cast_zero

theorem image_const (R : CoeffRing) (c : Int) : (const R c).image R = C (c : R.Element) := by
  ext d
  rw [coeff_image, const, coeff_ofSlots, CoeffRing.cast_normalize, coeff_C]
  cases d with
  | zero => rfl
  | succ d => exact Int.cast_zero

theorem image_neg (hp : p.ring = R) : p.neg.image R = -p.image R := by
  subst hp
  ext d
  rw [coeff_image, coeff_neg, CoeffRing.cast_normalize, Int.cast_neg, Polynomial.coeff_neg,
    coeff_image]

/-- The leading coefficient is canonical and not zero, so that it is not zero in the ring. -/
theorem isZero_leading (hp : p.ring = R) (hz : p.isZero = false) :
    R.isZero (p.coeff p.degree) = false :=
  CoeffRing.isZero_eq_false_iff.2 fun h => coeff_degree_ne_zero hz
    (CoeffRing.eq_zero_of_cast_eq_zero (hp ▸ p.contains_coeff p.degree) h)

/-- The degree of the image is that of the polynomial. -/
theorem natDegree_image (hp : p.ring = R) : (p.image R).natDegree = p.degree := by
  cases hz : p.isZero with
  | true => rw [image_of_isZero R hz, degree_of_isZero hz, natDegree_zero]
  | false =>
    refine natDegree_eq_of_le_of_coeff_ne_zero (natDegree_le_iff_coeff_eq_zero.2 fun d hd => ?_) ?_
    · rw [coeff_image, coeff_eq_zero_of_degree_lt hd, Int.cast_zero]
    · rw [coeff_image]
      exact CoeffRing.isZero_eq_false_iff.1 (isZero_leading hp hz)

theorem degree_representing (f : R.Element[X]) : (representing R f).degree = f.natDegree := by
  rw [← natDegree_image (ring_representing R f), image_representing]

end Poly

/-! ## Buffers -/

namespace Buffer

variable {R : CoeffRing} {t source p q : Buffer}

/-- The polynomial that the slots of a buffer hold. -/
noncomputable def image (R : CoeffRing) (t : Buffer) : R.Element[X] :=
  R.polynomial t.capacity t.slot

@[simp] theorem coeff_image (R : CoeffRing) (t : Buffer) (i : Nat) :
    (t.image R).coeff i = (t.slot i : R.Element) := by
  rw [image, CoeffRing.coeff_polynomial]
  split_ifs with hi
  · rfl
  · rw [slot_of_capacity_le t (not_lt.1 hi), Int.cast_zero]

/-- It is that of the significant coefficients. -/
theorem image_eq_significant (h : t.WellFormed) : t.image R = R.polynomial t.size t.slot := by
  ext i
  rw [coeff_image, CoeffRing.coeff_polynomial]
  split_ifs with hi
  · rfl
  · rw [h.slot_eq_zero i (not_lt.1 hi), Int.cast_zero]

theorem image_eq_zero (h : ∀ i, t.slot i = 0) : t.image R = 0 := by
  ext i
  rw [coeff_image, h, Int.cast_zero, coeff_zero]

theorem image_clear (h : t.WellFormed) : t.clear.image R = 0 :=
  image_eq_zero h.slot_clear_eq_zero

/-- A buffer that holds the constant zero is zero in every ring. -/
theorem image_of_isZero (h : t.WellFormed) (hz : t.isZero = true) : t.image R = 0 :=
  image_eq_zero (h.slot_of_isZero hz)

theorem image_copied (ht : t.WellFormed) (hs : source.WellFormed)
    (hlt : source.degree < t.capacity) : (t.copied source).image R = source.image R := by
  ext i
  rw [coeff_image, coeff_image, slot_copied ht hs hlt]

/-- What trimming drops is zero in the ring. -/
@[simp] theorem image_trim (R : CoeffRing) (t : Buffer) : (t.trim R).image R = t.image R := by
  ext i
  rw [coeff_image, coeff_image, slot_trim]
  split_ifs with hi
  · rw [CoeffRing.isZero_iff.1 (t.isZero_of_trimmedSize_le R hi.1 hi.2), Int.cast_zero]
  · rfl

@[simp] theorem image_resize (R : CoeffRing) (degree : Nat) (t : Buffer) :
    (t.resize R degree).image R = t.image R :=
  image_trim R _

/-- A map that multiplies the elements by `c` multiplies the image by `c`. -/
theorem image_mapNonzero (h : t.WellFormed) {f : Int → Int} {c : R.Element}
    (hf : ∀ x, (f x : R.Element) = c * x) : (t.mapNonzero f).image R = C c * t.image R := by
  ext i
  rw [coeff_image, coeff_C_mul, coeff_image, slot_mapNonzero]
  split_ifs with hi
  · exact hf _
  · rw [h.slot_eq_zero_of_not hi, Int.cast_zero, mul_zero]

theorem image_negate (h : t.WellFormed) : (t.negate R).image R = -t.image R := by
  have hcast : ∀ x, (R.neg x : R.Element) = -1 * x := fun x => by
    rw [CoeffRing.cast_neg, neg_one_mul]
  rw [negate, image_trim, image_mapNonzero h hcast, C_neg, C_1, neg_one_mul]

/-- A coefficient that is written where there was none is added. -/
theorem image_written {i : Nat} (hi : i < t.capacity) (hslot : t.slot i = 0) (c : Int) :
    (t.written i c).image R = t.image R + monomial i (c : R.Element) := by
  ext j
  rw [coeff_image, slot_written, coeff_add, coeff_image, coeff_monomial]
  by_cases hij : i = j
  · subst hij
    rw [if_pos ⟨rfl, hi⟩, if_pos rfl, hslot, Int.cast_zero, zero_add]
  · rw [if_neg fun h => hij h.1, if_neg hij, add_zero]

theorem image_subShifted (hs : source.WellFormed) {a : Term}
    (hd : source.degree + a.degree < t.capacity) :
    (t.subShifted R source a).image R =
      t.image R - monomial a.degree (a.coefficient : R.Element) * source.image R := by
  ext i
  rw [coeff_image, coeff_sub, coeff_image, coeff_monomial_mul_eq_ite, coeff_image, slot_subShifted]
  by_cases hle : a.degree ≤ i
  · rw [if_pos hle]
    -- A zero of the source is passed over, and changes nothing in the image either.
    by_cases hzero : source.slot (i - a.degree) = 0
    · rw [if_neg fun h => h.2.2.2 hzero, hzero, Int.cast_zero, mul_zero, sub_zero]
    · have hlt : i - a.degree < source.size := by
        by_contra hge
        exact hzero (hs.slot_eq_zero _ (not_lt.1 hge))
      have hsize := hs.degree_add_one
      rw [if_pos ⟨by omega, hle, hlt, hzero⟩, CoeffRing.cast_subMul, mul_comm]
  · rw [if_neg fun h => hle h.2.1, if_neg hle, sub_zero]

/-- Row by row, a product is subtracted. -/
theorem image_subRows (hp : p.WellFormed) (hq : q.WellFormed)
    (hd : p.degree + q.degree < t.capacity) :
    (t.subRows R p q).image R = t.image R - p.image R * q.image R := by
  -- After `n` rows, the multiple by the `n` lowest coefficients of `p` is subtracted.
  have hrows : ∀ n ≤ p.size, ((List.range n).foldl
      (fun t i => if p.slot i = 0 then t else t.subShifted R q ⟨i, p.slot i⟩) t).image R =
      t.image R - R.polynomial n p.slot * q.image R ∧
      ((List.range n).foldl
        (fun t i => if p.slot i = 0 then t else t.subShifted R q ⟨i, p.slot i⟩) t).capacity =
        t.capacity := by
    intro n
    induction n with
    | zero => simp [CoeffRing.polynomial]
    | succ n ih =>
      intro hn
      obtain ⟨himage, hcap⟩ := ih (Nat.le_of_succ_le hn)
      have hdeg := hp.degree_add_one
      rw [List.range_succ, List.foldl_append, List.foldl_cons, List.foldl_nil,
        CoeffRing.polynomial, Finset.sum_range_succ, ← CoeffRing.polynomial, add_mul, ← sub_sub,
        ← himage]
      split_ifs with hzero
      · rw [hzero, Int.cast_zero, monomial_zero_right, zero_mul, sub_zero]
        exact ⟨rfl, hcap⟩
      · exact ⟨image_subShifted hq (by rw [hcap]; simp only; omega),
          (capacity_subShifted ..).trans hcap⟩
  rw [image_eq_significant hp, subRows]
  exact (hrows p.size le_rfl).1

/-! ## Packing -/

/-- A fresh buffer has the image of the polynomial that was unpacked into it. -/
theorem exists_ofPoly {p : Poly} {n : Nat} (h : p.degree < n) (R : CoeffRing) :
    ∃ t, ofPoly n p = .ok t ∧ t.WellFormed ∧ t.capacity = n ∧ t.degree = p.degree ∧
      t.image R = p.image R := by
  obtain ⟨t, ht, hsize, hcap, hslot⟩ := ofPoly_of_lt h
  refine ⟨t, ht, (sound_ofPoly (P := True) ht).toWellFormed, hcap, by rw [degree, hsize]; rfl, ?_⟩
  ext i
  rw [coeff_image, Poly.coeff_image, hslot]

/-- Packing reduces the coefficients into the ring. -/
theorem coeff_toPoly (h : t.WellFormed) (R : CoeffRing) (i : Nat) :
    (t.toPoly R).coeff i = R.normalize (t.slot i) := by
  rw [toPoly, Poly.coeff_ofSlots, ← h.slot_eq_getD]

/-- It keeps the image. -/
theorem image_toPoly (h : t.WellFormed) : (t.toPoly R).image R = t.image R := by
  ext i
  rw [Poly.coeff_image, coeff_toPoly h, CoeffRing.cast_normalize, coeff_image]

theorem toPoly_eq_representing (h : t.WellFormed) : t.toPoly R = .representing R (t.image R) :=
  Poly.eq_representing rfl (image_toPoly h)

/-! ## Adding terms -/

/-- Where updates come to a slot, they change it once if each comes to another slot. -/
theorem slot_foldl_update_of_mem {α : Type} {items : List α} {i : α → Nat} {f : α → Int → Int}
    (hnodup : (items.map i).Nodup) {a : α} (ha : a ∈ items) (hi : i a < t.capacity) :
    (items.foldl (fun t a => t.update (i a) (f a)) t).slot (i a) = f a (t.slot (i a)) := by
  induction items generalizing t with
  | nil => cases ha
  | cons b items ih =>
    rw [List.map_cons, List.nodup_cons] at hnodup
    rw [List.foldl_cons]
    rcases List.mem_cons.1 ha with rfl | ha
    · have hne : ∀ b ∈ items, i b ≠ i a := fun b hb hba =>
        hnodup.1 (List.mem_map.2 ⟨b, hb, hba⟩)
      rw [slot_foldl_update_of_forall_ne hne, slot_update, if_pos ⟨rfl, hi⟩]
    · have hne : i b ≠ i a := fun hba => hnodup.1 (List.mem_map.2 ⟨a, ha, hba.symm⟩)
      rw [ih hnodup.2 ha (by rwa [capacity_update]), slot_update, if_neg fun h => hne h.1]

theorem slot_addTerms (R : CoeffRing) (p : Poly) (c : Int) {shift i : Nat} (hi : i < t.capacity) :
    (t.addTerms R p.terms c shift).slot i =
      if shift ≤ i ∧ p.coeff (i - shift) ≠ 0 then
        R.addMul (t.slot i) (p.coeff (i - shift)) c
      else
        t.slot i := by
  have hnodup : (p.terms.map fun a => a.degree + shift).Nodup :=
    List.pairwise_map.2 (p.ascending.imp fun h heq => by omega)
  split_ifs with h
  · have hmem := Poly.mem_of_coeff_ne_zero h.2
    have := slot_foldl_update_of_mem (f := fun a => (R.addMul · a.coefficient c)) hnodup hmem
      (t := t) (by simp only; omega)
    rwa [Nat.sub_add_cancel h.1] at this
  · refine slot_foldl_update_of_forall_ne fun a ha hai => h ⟨by omega, ?_⟩
    rw [← hai, Nat.add_sub_cancel, Poly.coeff_of_mem ha]
    exact (p.canonical a ha).2

theorem image_addTerms (R : CoeffRing) (p : Poly) (c : Int) {shift : Nat}
    (hd : p.degree + shift < t.capacity) :
    (t.addTerms R p.terms c shift).image R =
      t.image R + monomial shift (c : R.Element) * p.image R := by
  ext i
  rw [coeff_image, coeff_add, coeff_image, coeff_monomial_mul_eq_ite, Poly.coeff_image]
  by_cases hi : i < t.capacity
  · rw [slot_addTerms R p c hi]
    by_cases hle : shift ≤ i
    · by_cases hzero : p.coeff (i - shift) = 0
      · rw [if_neg fun h => h.2 hzero, if_pos hle, hzero, Int.cast_zero, mul_zero, add_zero]
      · rw [if_pos ⟨hle, hzero⟩, if_pos hle, CoeffRing.cast_addMul, mul_comm]
    · rw [if_neg fun h => hle h.1, if_neg hle, add_zero]
  · rw [slot_addTerms_of_lt t p c (by omega)]
    split_ifs
    · rw [Poly.coeff_eq_zero_of_degree_lt (by omega), Int.cast_zero, mul_zero, add_zero]
    · rw [add_zero]

end Buffer

end Univariate
