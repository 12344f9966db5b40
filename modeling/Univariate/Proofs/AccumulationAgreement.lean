import Univariate.Proofs.CanonicalEdits
import Univariate.Proofs.Remainders
import Univariate.Proofs.SparseArithmetic

/-!
# The accumulations agree

A multiple of a polynomial can be added or subtracted in many ways: the polynomial is given by its
terms or in a buffer, and the multiplier is a scalar, a term, or another buffer. Each way has a loop
of its own, with its own guards. On a canonical buffer, the ways that are to compute the same image
end in the same way, and leave the same buffer.

* `Buffer.Accumulates` is how each of them ends: it is refused for want of the highest slot, with
  the buffer as it was, or leaves a canonical buffer with the new image. There is only one such end
  (`Buffer.Accumulates.unique`), since a canonical buffer is determined by its image.
* `Buffer.accumulates_of_keeps` collects it from what is known of an edit: when it is refused, what
  it keeps, and what it computes.
* `Buffer.run_subTermMultiple_eq` needs no canonical buffer: the subtraction of a term multiple is
  the addition of the opposite one, slot by slot.
* `Buffer.accumulations_agree` puts it together.
-/

namespace Univariate.Buffer

open Polynomial

variable {R : CoeffRing} {t d m : Buffer} {s : Poly} {degree : Nat} {f : R.Element[X]}
  {outcome outcome' : EStateM.Result Failure Buffer Unit}

/-- How an accumulation in a buffer ends that needs the slot of `x ^ degree`: it is refused for want
    of this slot, or leaves the image `f` in a canonical buffer. -/
inductive Accumulates (R : CoeffRing) (t : Buffer) (degree : Nat) (f : R.Element[X]) :
    EStateM.Result Failure Buffer Unit → Prop
  | refused (hcap : t.capacity ≤ degree) :
      Accumulates R t degree f (.error (.refused (.noSlotFor degree t.capacity)) t)
  | settled {u : Buffer} (hlt : degree < t.capacity) (canonical : u.Canonical R)
      (capacity_eq : u.capacity = t.capacity) (image_eq : u.image R = f) :
      Accumulates R t degree f (.ok () u)

/-- There is only one way to end. -/
theorem Accumulates.unique (h : Accumulates R t degree f outcome)
    (h' : Accumulates R t degree f outcome') : outcome = outcome' := by
  cases h with
  | refused hcap =>
    cases h' with
    | refused => rfl
    | settled hlt => exact absurd hlt (not_lt.2 hcap)
  | settled hlt hu hcap himage =>
    cases h' with
    | refused hle => exact absurd hlt (not_lt.2 hle)
    | settled _ hu' hcap' himage' =>
      rw [hu.eq_of_image hu' (hcap.trans hcap'.symm) (himage.trans himage'.symm)]

theorem accumulates_of_keeps {edit : Edit Unit} (ht : t.Canonical R)
    (hrefused : t.capacity ≤ degree →
      edit.run t = .error (.refused (.noSlotFor degree t.capacity)) t)
    (hcanonical : edit.Keeps (Canonical R)) (hsound : edit.Keeps (Sound t.capacity False))
    (hcomputes : degree < t.capacity → Computes R edit t f) :
    Accumulates R t degree f (edit.run t) := by
  rcases Nat.lt_or_ge degree t.capacity with hlt | hle
  · obtain ⟨u, hrun, -, himage⟩ := hcomputes hlt
    have hu := hcanonical t ht
    have hcap := (hsound t ⟨ht.toWellFormed, rfl, False.elim⟩).capacity_eq
    rw [Action.leaves_of_run_ok hrun] at hu hcap
    rw [hrun]
    exact .settled hlt hu hcap himage
  · rw [hrefused hle]
    exact .refused hle

/-! ## Multiples of polynomials -/

theorem accumulates_addMultiple (ht : t.Canonical R) (hs : s.ring = R) {c : Int}
    (hc : R.isZero c = false) :
    Accumulates R t s.degree (t.image R + C (c : R.Element) * s.image R)
      ((addMultiple s c).run t) := by
  subst hs
  refine accumulates_of_keeps ht (fun hle => ?_) (keeps_canonical_addMultiple s c)
    (keeps_addMultiple s c) fun hlt => computes_addMultiple ht.toWellFormed rfl hc hlt
  rw [run_addMultiple, hc, if_neg Bool.false_ne_true, if_pos hle]

theorem accumulates_addTermMultiple (ht : t.Canonical R) (hs : s.ring = R) {a : Term}
    (ha : a.isTrivial = false) (hword : s.degree + a.degree < degreeBound) :
    Accumulates R t (s.degree + a.degree)
      (t.image R + monomial a.degree (a.coefficient : R.Element) * s.image R)
      ((addTermMultiple s a).run t) := by
  subst hs
  refine accumulates_of_keeps ht (fun hle => ?_) (keeps_canonical_addTermMultiple s a)
    (keeps_addTermMultiple s a) fun hlt =>
      computes_addTermMultiple ht.toWellFormed rfl ha hword hlt
  rw [run_addTermMultiple, ha, if_neg Bool.false_ne_true, addDegrees, if_pos hword]
  exact if_pos hle

/-- Subtracting a multiple of a slot is adding the opposite one. -/
theorem subTerms_eq_addTerms (t : Buffer) (R : CoeffRing) (terms : List Term) (c : Int)
    (shift : Nat) : t.subTerms R terms c shift = t.addTerms R terms (-c) shift := by
  have hslot : ∀ acc x, R.subMul acc x c = R.addMul acc x (-c) := fun acc x => by
    rw [CoeffRing.subMul, CoeffRing.addMul, mul_neg, sub_eq_add_neg]
  simp only [subTerms, addTerms, hslot]

theorem isTrivial_neg (a : Term) :
    (⟨a.degree, -a.coefficient⟩ : Term).isTrivial = a.isTrivial := by
  rw [Bool.eq_iff_iff]
  simp [Term.isTrivial]

theorem run_subTermMultiple_eq (s : Poly) (a : Term) (t : Buffer) :
    (subTermMultiple s a).run t = (addTermMultiple s ⟨a.degree, -a.coefficient⟩).run t := by
  rw [run_subTermMultiple, run_addTermMultiple, isTrivial_neg, subTerms_eq_addTerms]

theorem accumulates_subTermMultiple (ht : t.Canonical R) (hs : s.ring = R) {a : Term}
    (ha : a.isTrivial = false) (hword : s.degree + a.degree < degreeBound) :
    Accumulates R t (s.degree + a.degree)
      (t.image R - monomial a.degree (a.coefficient : R.Element) * s.image R)
      ((subTermMultiple s a).run t) := by
  rw [run_subTermMultiple_eq, sub_eq_add_neg, ← neg_mul, ← monomial_neg, ← Int.cast_neg]
  exact accumulates_addTermMultiple ht hs ((isTrivial_neg a).trans ha) hword

/-! ## Multiples of buffers -/

theorem accumulates_subBufferMultiple (ht : t.Canonical R) (hd : d.WellFormed)
    (hz : d.isZero = false) {a : Term} (ha : a.isTrivial = false)
    (hword : d.degree + a.degree < degreeBound) :
    Accumulates R t (d.degree + a.degree)
      (t.image R - monomial a.degree (a.coefficient : R.Element) * d.image R)
      ((subBufferMultiple R d a).run t) := by
  rw [run_subBufferMultiple, ha, hz, if_neg Bool.false_ne_true, if_neg Bool.false_ne_true,
    addDegrees, if_pos hword]
  dsimp only
  split_ifs with hle
  · exact .refused hle
  · refine .settled (not_le.1 hle) (ht.subShifted (not_le.1 hle)) ?_ ?_
    · exact (capacity_trim ..).trans (capacity_subShifted ..)
    · rw [image_resize, image_subShifted hd (not_le.1 hle)]

theorem accumulates_subProduct (ht : t.Canonical R) (hm : m.WellFormed) (hd : d.WellFormed)
    (hzm : m.isZero = false) (hzd : d.isZero = false) (hword : m.degree + d.degree < degreeBound) :
    Accumulates R t (m.degree + d.degree) (t.image R - m.image R * d.image R)
      ((subProduct R m d).run t) := by
  refine accumulates_of_keeps ht (fun hle => ?_) (keeps_canonical_subProduct m d)
    (keeps_subProduct R m d) fun hlt => computes_subProduct R ht.toWellFormed hm hd hword hlt
  rw [run_subProduct, hzm, hzd, Bool.or_false, if_neg Bool.false_ne_true, addDegrees,
    if_pos hword]
  exact if_pos hle

/-! ## Agreement -/

/-- A buffer with the image of a term has the degree of the term, if the coefficient is not zero. -/
theorem Canonical.of_image_monomial (hm : m.Canonical R) {a : Term}
    (ha : R.isZero a.coefficient = false)
    (himage : m.image R = monomial a.degree (a.coefficient : R.Element)) :
    m.isZero = false ∧ m.degree = a.degree := by
  have hne := CoeffRing.isZero_eq_false_iff.1 ha
  constructor
  · rw [← Bool.not_eq_true, hm.isZero_iff_image_eq_zero, himage, monomial_eq_zero_iff]
    exact hne
  · rw [← hm.natDegree_image, himage, natDegree_monomial_eq _ hne]

/-- In every ring, let a canonical buffer `d` have the image of the polynomial `s`, which is not
    zero. Subtracting a term multiple of `s`, subtracting it of `d`, and adding the opposite term
    multiple of `s` end in the same way in every canonical buffer. So does subtracting the product
    of `d` and a canonical buffer with the image of the term, if its coefficient is not zero in the
    ring. Adding a multiple by a machine integer, by this integer, and by it as a constant term end
    in the same way too. -/
theorem accumulations_agree (ht : t.Canonical R) (hs : s.ring = R) (hz : s.isZero = false)
    (hd : d.Canonical R) (hds : d.image R = s.image R) :
    (∀ a : Term, a.isTrivial = false → s.degree + a.degree < degreeBound →
      let outcome := (subTermMultiple s a).run t
      Accumulates R t (s.degree + a.degree)
        (t.image R - monomial a.degree (a.coefficient : R.Element) * s.image R) outcome ∧
      (subBufferMultiple R d a).run t = outcome ∧
      (addTermMultiple s ⟨a.degree, -a.coefficient⟩).run t = outcome ∧
      (R.isZero a.coefficient = false → ∀ m : Buffer, m.Canonical R →
        m.image R = monomial a.degree (a.coefficient : R.Element) →
        (subProduct R m d).run t = outcome)) ∧
    (s.degree < degreeBound → ∀ c : Int64, R.isZero c.toInt = false →
      let outcome := (addMultipleInt64 s c).run t
      Accumulates R t s.degree (t.image R + C (c.toInt : R.Element) * s.image R) outcome ∧
      (addMultiple s c.toInt).run t = outcome ∧
      (addTermMultiple s ⟨0, c.toInt⟩).run t = outcome) := by
  have hzd : d.isZero = false := by
    rw [← Bool.not_eq_true, hd.isZero_iff_image_eq_zero, hds]
    intro himage
    rw [Poly.isZero_of_image_eq_zero hs himage] at hz
    cases hz
  have hdegree : d.degree = s.degree := by
    rw [← hd.natDegree_image, hds, Poly.natDegree_image hs]
  refine ⟨fun a ha hword => ?_, fun hword c hc => ?_⟩
  · intro outcome
    have hterm : Accumulates R t _ _ outcome := accumulates_subTermMultiple ht hs ha hword
    rw [← hdegree] at hword
    refine ⟨hterm, ?_, (run_subTermMultiple_eq s a t).symm, fun hc m hm himage => ?_⟩
    · have hbuffer := accumulates_subBufferMultiple ht hd.toWellFormed hzd ha hword
      rw [hds, hdegree] at hbuffer
      exact hbuffer.unique hterm
    · obtain ⟨hzm, hdm⟩ := hm.of_image_monomial hc himage
      have hproduct := accumulates_subProduct ht hm.toWellFormed hd.toWellFormed hzm hzd
        (by omega)
      rw [himage, hds, hdm, hdegree, Nat.add_comm] at hproduct
      exact hproduct.unique hterm
  · intro outcome
    have hmultiple : (addMultiple s c.toInt).run t = outcome := by
      rw [← addMultipleInt64_eq]
    have hscalar : Accumulates R t _ _ outcome := hmultiple ▸ accumulates_addMultiple ht hs hc
    have ha : (⟨0, c.toInt⟩ : Term).isTrivial = false := by
      rw [Term.isTrivial, Bool.and_eq_false_imp]
      intro _
      exact beq_false_of_ne (CoeffRing.ne_zero_of_isZero_eq_false hc)
    have hterm := accumulates_addTermMultiple ht hs ha hword
    exact ⟨hscalar, hmultiple, hterm.unique hscalar⟩

/-- Modulo `6`, the term `3 x` times `2 x + 1` is `3 x` again. Whichever way it is subtracted from
    `x ^ 2 + 2 x + 1`, this becomes `x ^ 2 - x + 1`. Adding `2 x + 1` three times adds `3`, either
    way. -/
theorem accumulations_agree_six :
    let R : CoeffRing := .modular 6 false (by decide)
    let s := Poly.ofSlots R [1, 2]
    let t : Buffer := ⟨3, #[1, 2, 1, 0]⟩
    (subBufferMultiple R ⟨2, #[1, 2]⟩ ⟨1, 3⟩).run t = .ok () ⟨3, #[1, -1, 1, 0]⟩ ∧
      (addTermMultiple s ⟨1, -3⟩).run t = .ok () ⟨3, #[1, -1, 1, 0]⟩ ∧
      (subProduct R ⟨2, #[0, -3]⟩ ⟨2, #[1, 2]⟩).run t = .ok () ⟨3, #[1, -1, 1, 0]⟩ ∧
      (addTermMultiple s ⟨0, 3⟩).run t = (addMultiple s 3).run t := by
  intro R s t
  have himage : (⟨2, #[1, 2]⟩ : Buffer).image R = s.image R :=
    (holds_of_ofPoly (p := s) (n := 2) (by decide +kernel)).image_eq R
  -- The coefficient `3` is not canonical, but stands for the same element as `-3`.
  have hmonomial : (⟨2, #[0, -3]⟩ : Buffer).image R = monomial 1 ((3 : Int) : R.Element) := by
    ext i
    rw [coeff_image, coeff_monomial]
    rcases i with _ | _ | i
    · rfl
    · rfl
    · rfl
  obtain ⟨hterm, hscalar⟩ := accumulations_agree (t := t) (s := s) (d := ⟨2, #[1, 2]⟩)
    (by decide +kernel) rfl (by decide +kernel) (by decide +kernel) himage
  obtain ⟨-, hbuffer, hopposite, hproduct⟩ :=
    hterm ⟨1, 3⟩ (by decide) (by decide +kernel)
  obtain ⟨-, hmultiple, hconstant⟩ := hscalar (by decide +kernel) 3 (by decide +kernel)
  have hvalue : (subTermMultiple s ⟨1, 3⟩).run t = .ok () ⟨3, #[1, -1, 1, 0]⟩ := by
    rfl
  exact ⟨hbuffer.trans hvalue, hopposite.trans hvalue,
    (hproduct (by decide +kernel) _ (by decide +kernel) hmonomial).trans hvalue,
    hconstant.trans hmultiple.symm⟩

end Univariate.Buffer
