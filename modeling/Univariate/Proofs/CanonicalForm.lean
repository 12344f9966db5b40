import Univariate.Proofs.Images

/-!
# Canonical buffers

A buffer is *canonical* in a ring when its slots hold canonical integers and its highest significant
slot, unless it is the only one, is not zero in the ring.

* Trimming makes a buffer of canonical integers canonical (`Buffer.WellFormed.canonical_trim`), and
  the edits that end by trimming keep it so.
* Subtracting the multiple of a buffer that cancels the highest coefficient leaves zero in the ring
  from there on, whatever integers the slots hold (`Buffer.isZero_slot_eliminated`). In a canonical
  buffer, zero in the ring is the integer zero (`Buffer.Canonical.slot_eliminated`).
-/

namespace Univariate

open Polynomial

namespace Buffer

variable {R : CoeffRing} {t source : Buffer}

/-- The buffer is normalized and holds canonical integers. -/
structure Canonical (R : CoeffRing) (t : Buffer) : Prop extends t.WellFormed where
  contains_slot : ∀ i, R.contains (t.slot i) = true
  normalized : t.Normalized R

theorem canonical_iff : t.Canonical R ↔
    t.WellFormed ∧ (∀ i < t.capacity, R.contains (t.slot i) = true) ∧ t.Normalized R := by
  refine ⟨fun h => ⟨h.toWellFormed, fun i _ => h.contains_slot i, h.normalized⟩, ?_⟩
  rintro ⟨hwell, hslot, hnormalized⟩
  refine ⟨hwell, fun i => ?_, hnormalized⟩
  by_cases hi : i < t.capacity
  · exact hslot i hi
  · rw [t.slot_of_capacity_le (not_lt.1 hi)]
    exact R.contains_zero

instance : Decidable (t.Canonical R) :=
  decidable_of_iff _ canonical_iff.symm

theorem contains_slot_trim (h : ∀ i, R.contains (t.slot i) = true) (i : Nat) :
    R.contains ((t.trim R).slot i) = true := by
  rw [slot_trim]
  split_ifs
  · exact R.contains_zero
  · exact h i

/-- Changing every coefficient to a canonical integer leaves no others, since those that are passed
    over are zero. -/
theorem WellFormed.contains_mapNonzero (h : t.WellFormed) {f : Int → Int}
    (hf : ∀ x, R.contains (f x) = true) (i : Nat) :
    R.contains ((t.mapNonzero f).slot i) = true := by
  rw [slot_mapNonzero]
  split_ifs with hi
  · exact hf _
  · rw [h.slot_eq_zero_of_not hi]
    exact R.contains_zero

theorem contains_put (h : ∀ i, R.contains (t.slot i) = true) {c : Int} (hc : R.contains c = true)
    (j i : Nat) : R.contains ((t.put j c).slot i) = true := by
  rw [slot_put]
  split_ifs
  · exact hc
  · exact h i

theorem contains_subShifted (h : ∀ i, R.contains (t.slot i) = true) (source : Buffer) (a : Term)
    (i : Nat) : R.contains ((t.subShifted R source a).slot i) = true := by
  rw [slot_subShifted]
  split_ifs
  · exact R.contains_renormalize _
  · exact h i

/-- Trimming drops only zeros among canonical integers. -/
theorem slot_trim_of_contains (h : ∀ i, R.contains (t.slot i) = true) (i : Nat) :
    (t.trim R).slot i = t.slot i := by
  refine CoeffRing.eq_of_contains (contains_slot_trim h i) (h i) ?_
  rw [← coeff_image, image_trim, coeff_image]

/-- Trimming makes canonical integers a canonical buffer. -/
theorem WellFormed.canonical_trim (h : t.WellFormed) (hc : ∀ i, R.contains (t.slot i) = true) :
    (t.trim R).Canonical R where
  toWellFormed := h.trim R
  contains_slot := contains_slot_trim hc
  normalized := normalized_trim R h.one_le_size

/-- A step that writes canonical integers to slots up to that of `x ^ d` leaves a canonical buffer
    once its size is settled. -/
theorem WellFormed.canonical_resize (h : t.WellFormed) {u : Buffer} (hsize : u.size = t.size)
    (hcap : u.capacity = t.capacity) {d : Nat} (hd : d < t.capacity)
    (hslot : ∀ i, d < i → u.slot i = t.slot i) (hc : ∀ i, R.contains (u.slot i) = true) :
    (u.resize R d).Canonical R :=
  (h.raise hsize hcap hd hslot).canonical_trim hc

/-- The leading coefficient of a canonical buffer is not zero in the ring unless the buffer is
    zero. -/
theorem Canonical.isZero_leading (h : t.Canonical R) (hz : t.isZero = false) :
    R.isZero t.leading = false := by
  rcases h.normalized with hone | hlead
  · have hslot : t.slot 0 ≠ 0 := by
      intro hslot
      rw [isZero, hone, hslot] at hz
      cases hz
    rw [CoeffRing.isZero_eq_false_iff, leading, degree, hone]
    exact fun hcast => hslot (CoeffRing.eq_zero_of_cast_eq_zero (h.contains_slot 0) hcast)
  · exact hlead

/-- A canonical buffer that holds zero from the exponent `d` on is zero or of smaller degree. -/
theorem Canonical.isZero_or_degree_lt (h : t.Canonical R) {d : Nat}
    (hd : ∀ i, d ≤ i → t.slot i = 0) : t.isZero = true ∨ t.degree < d := by
  by_cases hlt : t.degree < d
  · exact .inr hlt
  · left
    by_contra hz
    have hlead := h.isZero_leading (by simpa using hz)
    rw [leading, hd t.degree (not_lt.1 hlt), CoeffRing.isZero_zero] at hlead
    cases hlead

/-- So its degree is at most the exponent from past which it holds zero. -/
theorem Canonical.degree_le (h : t.Canonical R) {d : Nat} (hd : ∀ i, d < i → t.slot i = 0) :
    t.degree ≤ d := by
  rcases h.isZero_or_degree_lt hd with hzero | hlt
  · rw [isZero, Bool.and_eq_true, beq_iff_eq] at hzero
    rw [degree, hzero.1]
    exact Nat.zero_le d
  · exact Nat.le_of_lt_succ hlt

/-- The degree is the exponent of the last coefficient that is not zero. -/
theorem Canonical.degree_eq (h : t.Canonical R) {d : Nat} (hd : ∀ i, d < i → t.slot i = 0)
    (hne : t.slot d ≠ 0) : t.degree = d :=
  le_antisymm (h.degree_le hd)
    (not_lt.1 fun hlt => hne (h.toWellFormed.slot_eq_zero_of_degree_lt hlt))

theorem Canonical.copied (ht : t.WellFormed) (hs : source.Canonical R)
    (hlt : source.degree < t.capacity) : (t.copied source).Canonical R where
  toWellFormed := ht.copied hs.toWellFormed hlt
  contains_slot i := by
    rw [slot_copied ht hs.toWellFormed hlt]
    exact hs.contains_slot i
  normalized := hs.normalized.imp id fun hlead => by
    rw [leading, slot_copied ht hs.toWellFormed hlt]
    exact hlead

/-- Multiplication reduces all coefficients into the ring, also those of a buffer from elsewhere. -/
theorem WellFormed.canonical_scaled (h : t.WellFormed) (c : Int) :
    ((t.mapNonzero (R.mul · c)).trim R).Canonical R :=
  (h.mapNonzero _).canonical_trim (h.contains_mapNonzero fun _ => R.contains_normalize _)

theorem Canonical.scaled (h : t.Canonical R) (c : Int) :
    ((t.mapNonzero (R.mul · c)).trim R).Canonical R :=
  h.toWellFormed.canonical_scaled c

theorem image_scaled (h : t.WellFormed) (c : Int) :
    ((t.mapNonzero (R.mul · c)).trim R).image R = C (c : R.Element) * t.image R := by
  rw [image_trim]
  refine image_mapNonzero h fun x => ?_
  rw [CoeffRing.cast_mul, mul_comm]

theorem Canonical.subShifted (h : t.Canonical R) {a : Term}
    (hd : source.degree + a.degree < t.capacity) :
    ((t.subShifted R source a).resize R (source.degree + a.degree)).Canonical R :=
  h.toWellFormed.canonical_resize (size_subShifted ..) (capacity_subShifted ..) hd
    (fun _ hi => slot_subShifted_of_lt _ _ _ hi) (contains_subShifted h.contains_slot source a)

/-- A multiplication multiplies the elements in the slots. -/
theorem cast_slot_scaled (h : t.WellFormed) (c : Int) (i : Nat) :
    ((((t.mapNonzero (R.mul · c)).trim R).slot i : Int) : R.Element) = c * t.slot i := by
  rw [← coeff_image, image_scaled h, coeff_C_mul, coeff_image]

theorem isZero_slot_scaled (h : t.WellFormed) (c : Int) {i : Nat}
    (hz : R.isZero (t.slot i) = true) :
    R.isZero (((t.mapNonzero (R.mul · c)).trim R).slot i) = true := by
  rw [CoeffRing.isZero_iff, cast_slot_scaled h, CoeffRing.isZero_iff.1 hz, mul_zero]

/-- Subtracting the multiple that cancels the highest coefficient leaves only what is zero in the
    ring from there on. -/
theorem isZero_slot_eliminated (hs : source.WellFormed) {a : Term}
    (hd : source.degree + a.degree < t.capacity)
    (hcancel : (a.coefficient : R.Element) * source.leading =
      t.slot (source.degree + a.degree))
    (hzero : ∀ i, source.degree + a.degree < i → R.isZero (t.slot i) = true) {i : Nat}
    (hi : source.degree + a.degree ≤ i) :
    R.isZero (((t.subShifted R source a).resize R (source.degree + a.degree)).slot i) = true := by
  rw [CoeffRing.isZero_iff, ← coeff_image, image_resize, image_subShifted hs hd, coeff_sub,
    coeff_image, coeff_monomial_mul_eq_ite, if_pos (by omega), coeff_image]
  rcases Nat.eq_or_lt_of_le hi with rfl | hlt
  · rw [Nat.add_sub_cancel, ← hcancel, leading, sub_self]
  · -- Past the highest coefficient, neither of the two has any.
    rw [CoeffRing.isZero_iff.1 (hzero i hlt), hs.slot_eq_zero_of_degree_lt (by omega),
      Int.cast_zero, mul_zero, sub_self]

/-- In a canonical buffer, it leaves nothing. -/
theorem Canonical.slot_eliminated (h : t.Canonical R) (hs : source.WellFormed) {a : Term}
    (hd : source.degree + a.degree < t.capacity)
    (hcancel : (a.coefficient : R.Element) * source.leading =
      t.slot (source.degree + a.degree))
    (hzero : ∀ i, source.degree + a.degree < i → t.slot i = 0) {i : Nat}
    (hi : source.degree + a.degree ≤ i) :
    ((t.subShifted R source a).resize R (source.degree + a.degree)).slot i = 0 := by
  refine CoeffRing.eq_zero_of_cast_eq_zero ((h.subShifted hd).contains_slot i)
    (CoeffRing.isZero_iff.1 (isZero_slot_eliminated hs hd hcancel (fun k hk => ?_) hi))
  rw [hzero k hk]
  exact R.isZero_zero

end Buffer

end Univariate
