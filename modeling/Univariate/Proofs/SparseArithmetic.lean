import Univariate.Poly.Arithmetic
import Univariate.Proofs.Images

/-!
# Arithmetic of polynomials is arithmetic of their images

Sums, differences, opposites, products and term multiples of polynomials over a coefficient ring
represent those of their images. They are there unless no machine word counts the slots of the
buffer they are computed in.

* `Buffer.Computes` says of an edit that it succeeds and leaves a given image. It goes from the
  edits (`Buffer.computes_subProduct`, …) over the buffer in which a polynomial is edited
  (`Poly.edited_eq`) to the operations (`Poly.add_eq`, `Poly.mul_eq`, …), and to what they give in
  any case (`Poly.add_eq_ite`, `Poly.mul_eq_ite`, …).
* Since a polynomial is determined by its image, the laws of a commutative ring hold as equalities
  between results (`Poly.AdditiveLaws`, `Poly.MultiplicativeLaws`), wherever there are results on
  both sides (`Poly.Agree`).
-/

namespace Univariate

open Polynomial

@[simp] theorem ok_bind {α β : Type} (a : α) (next : α → Except Failure β) :
    (Except.ok a >>= next) = next a :=
  rfl

namespace Buffer

variable {R : CoeffRing} {t p q : Buffer} {source : Poly}

/-- The edit succeeds on the buffer and leaves a well-formed one with the image `f`. -/
def Computes (R : CoeffRing) (edit : Edit Unit) (t : Buffer) (f : R.Element[X]) : Prop :=
  ∃ u, edit.run t = .ok () u ∧ u.WellFormed ∧ u.image R = f

theorem computes_addMultiple (ht : t.WellFormed) (hR : source.ring = R) {c : Int}
    (hc : R.isZero c = false) (hd : source.degree < t.capacity) :
    Computes R (addMultiple source c) t
      (t.image R + C (c : R.Element) * source.image R) := by
  subst hR
  refine ⟨(t.addTerms source.ring source.terms c 0).resize source.ring source.degree, ?_, ?_, ?_⟩
  · rw [run_addMultiple, hc, if_neg Bool.false_ne_true, if_neg (not_le.2 hd)]
  · exact ht.resize (size_foldl_update ..) (capacity_addTerms ..) hd fun _ hi =>
      slot_addTerms_of_lt t source c hi
  · rw [image_resize, image_addTerms _ source c hd, monomial_zero_left]

theorem computes_addMultipleInt64 (ht : t.WellFormed) (hR : source.ring = R) {c : Int64}
    (hc : R.isZero c.toInt = false) (hd : source.degree < t.capacity) :
    Computes R (addMultipleInt64 source c) t
      (t.image R + C (c.toInt : R.Element) * source.image R) := by
  rw [addMultipleInt64_eq]
  exact computes_addMultiple ht hR hc hd

theorem computes_addTermMultiple (ht : t.WellFormed) (hR : source.ring = R) {a : Term}
    (ha : a.isTrivial = false) (hword : source.degree + a.degree < degreeBound)
    (hd : source.degree + a.degree < t.capacity) :
    Computes R (addTermMultiple source a) t
      (t.image R + monomial a.degree (a.coefficient : R.Element) * source.image R) := by
  subst hR
  refine ⟨(t.addTerms source.ring source.terms a.coefficient a.degree).resize source.ring
    (source.degree + a.degree), ?_, ?_, ?_⟩
  · simp [run_addTermMultiple, ha, addDegrees, hword, not_le.2 hd]
  · exact ht.resize (size_foldl_update ..) (capacity_addTerms ..) hd fun _ hi =>
      slot_addTerms_of_lt t source a.coefficient hi
  · rw [image_resize, image_addTerms _ source a.coefficient hd]

/-- A zero factor leaves the buffer alone. -/
theorem computes_subProduct_of_isZero (R : CoeffRing) (ht : t.WellFormed) (hp : p.WellFormed)
    (hq : q.WellFormed) (hz : (p.isZero || q.isZero) = true) :
    Computes R (subProduct R p q) t (t.image R - p.image R * q.image R) := by
  refine ⟨t, by rw [run_subProduct, if_pos hz], ht, ?_⟩
  rcases Bool.or_eq_true_iff.1 hz with hz | hz
  · rw [image_of_isZero hp hz, zero_mul, sub_zero]
  · rw [image_of_isZero hq hz, mul_zero, sub_zero]

theorem computes_subProduct (R : CoeffRing) (ht : t.WellFormed) (hp : p.WellFormed)
    (hq : q.WellFormed) (hword : p.degree + q.degree < degreeBound)
    (hd : p.degree + q.degree < t.capacity) :
    Computes R (subProduct R p q) t (t.image R - p.image R * q.image R) := by
  by_cases hz : (p.isZero || q.isZero) = true
  · exact computes_subProduct_of_isZero R ht hp hq hz
  · refine ⟨(t.subRows R p q).resize R (p.degree + q.degree), ?_, ?_, ?_⟩
    · rw [run_subProduct, if_neg hz, addDegrees, if_pos hword]
      exact if_neg (not_le.2 hd)
    · exact ht.resize (size_subRows ..) (capacity_subRows ..) hd fun _ hi =>
        slot_subRows_of_lt t p q R hi
    · rw [image_resize, image_subRows hp hq hd]

end Buffer

namespace Poly

variable {R : CoeffRing} {p q r : Poly} {f g : R.Element[X]}

/-! ## Operations -/

theorem toBuffer_eq (hword : p.degree + 1 < degreeBound) :
    p.toBuffer = Buffer.ofPoly (p.degree + 1) p := by
  rw [toBuffer, addDegrees, if_pos hword]
  rfl

theorem toBuffer_eq_error (hword : ¬p.degree + 1 < degreeBound) :
    p.toBuffer = .error (.faulted .degreeOverflow) := by
  rw [toBuffer, addDegrees, if_neg hword]
  rfl

theorem requireSameRing_eq (hp : p.ring = R) (hq : q.ring = R) : requireSameRing p q = .ok () := by
  rw [requireSameRing, if_pos (hp.trans hq.symm)]

/-- What an edit computes in a buffer that has room for the degree is what the operation gives. -/
theorem edited_eq (hp : p.ring = R) {degree : Nat} (hle : p.degree ≤ degree)
    (hword : degree + 1 < degreeBound) {edit : Edit Unit}
    (hedit : ∀ t : Buffer, t.WellFormed → t.capacity = degree + 1 → t.image R = p.image R →
      Buffer.Computes R edit t f) :
    p.edited degree edit = .ok (representing R f) := by
  obtain ⟨t, hof, ht, hcap, -, himage⟩ := Buffer.exists_ofPoly (Nat.lt_succ_of_le hle) R
  obtain ⟨u, hrun, hu, rfl⟩ := hedit t ht hcap himage
  rw [edited, addDegrees, if_pos hword, hp, ok_bind, hof, ok_bind, Action.finalState, hrun, ok_bind,
    Buffer.toPoly_eq_representing hu]
  rfl

/-- The summand zero needs no buffer. -/
theorem add_eq_of_isZero (hp : p.ring = R) (hq : q.ring = R) (hz : q.isZero = true) :
    p.add q = .ok (representing R (p.image R + q.image R)) := by
  rw [add, requireSameRing_eq hp hq, ok_bind, if_pos hz, image_of_isZero R hz, add_zero,
    representing_image hp]
  rfl

theorem add_eq (hp : p.ring = R) (hq : q.ring = R)
    (hword : max p.degree q.degree + 1 < degreeBound) :
    p.add q = .ok (representing R (p.image R + q.image R)) := by
  cases hz : q.isZero with
  | true => exact add_eq_of_isZero hp hq hz
  | false =>
    rw [add, requireSameRing_eq hp hq, hz]
    -- One is not zero in any ring, so that the edit does not refuse it.
    have hone : R.isZero (1 : Int64).toInt = false :=
      CoeffRing.isZero_eq_false_iff.2 R.cast_one_ne_zero
    refine edited_eq hp (Nat.le_max_left _ _) hword fun t ht hcap himage => ?_
    have := Buffer.computes_addMultipleInt64 ht hq hone (by omega)
    rwa [himage, show (1 : Int64).toInt = 1 from rfl, Int.cast_one, C_1, one_mul] at this

theorem sub_eq_of_isZero (hp : p.ring = R) (hq : q.ring = R) (hz : q.isZero = true) :
    p.sub q = .ok (representing R (p.image R - q.image R)) := by
  rw [sub, requireSameRing_eq hp hq, ok_bind, if_pos hz, image_of_isZero R hz, sub_zero,
    representing_image hp]
  rfl

theorem sub_eq (hp : p.ring = R) (hq : q.ring = R)
    (hword : max p.degree q.degree + 1 < degreeBound) :
    p.sub q = .ok (representing R (p.image R - q.image R)) := by
  cases hz : q.isZero with
  | true => exact sub_eq_of_isZero hp hq hz
  | false =>
    rw [sub, requireSameRing_eq hp hq, hz]
    have hone : R.isZero (-1 : Int64).toInt = false := by
      rw [CoeffRing.isZero_eq_false_iff, show (-1 : Int64).toInt = -1 from rfl, Int.cast_neg]
      exact neg_ne_zero.2 R.cast_one_ne_zero
    refine edited_eq hp (Nat.le_max_left _ _) hword fun t ht hcap himage => ?_
    have := Buffer.computes_addMultipleInt64 ht hq hone (by omega)
    rwa [himage, show (-1 : Int64).toInt = -1 from rfl, Int.cast_neg, Int.cast_one, C_neg, C_1,
      neg_one_mul, ← sub_eq_add_neg] at this

theorem neg_eq (hp : p.ring = R) : p.neg = representing R (-p.image R) :=
  eq_representing hp (image_neg hp)

theorem addTermMultiple_eq (hp : p.ring = R) (hq : q.ring = R) {a : Term}
    (ha : a.isTrivial = false) (hword : max p.degree (q.degree + a.degree) + 1 < degreeBound) :
    p.addTermMultiple q a = .ok (representing R
      (p.image R + monomial a.degree (a.coefficient : R.Element) * q.image R)) := by
  rw [addTermMultiple, requireSameRing_eq hp hq, addDegrees, if_pos (by omega)]
  refine edited_eq hp (Nat.le_max_left _ _) hword fun t ht hcap himage => ?_
  have := Buffer.computes_addTermMultiple ht hq ha (by omega) (by omega)
  rwa [himage] at this

/-- A zero factor makes a zero product. -/
theorem image_mul_of_isZero (hz : (p.isZero || q.isZero) = true) :
    p.image R * q.image R = 0 := by
  rcases Bool.or_eq_true_iff.1 hz with hz | hz
  · rw [image_of_isZero R hz, zero_mul]
  · rw [image_of_isZero R hz, mul_zero]

theorem mul_eq_of_isZero (hp : p.ring = R) (hq : q.ring = R) (hz : (p.isZero || q.isZero) = true) :
    p.mul q = .ok (representing R (p.image R * q.image R)) := by
  rw [mul, requireSameRing_eq hp hq, ok_bind, if_pos hz, image_mul_of_isZero hz, hp,
    representing_zero]
  rfl

/-- The product is subtracted from zero, and the result negated. -/
theorem mul_eq (hp : p.ring = R) (hq : q.ring = R) (hword : p.degree + q.degree + 1 < degreeBound) :
    p.mul q = .ok (representing R (p.image R * q.image R)) := by
  by_cases hz : (p.isZero || q.isZero) = true
  · exact mul_eq_of_isZero hp hq hz
  · obtain ⟨t, hof, ht, -, hdt, himage⟩ := Buffer.exists_ofPoly (Nat.lt_succ_self p.degree) R
    obtain ⟨u, hof', hu, -, hdu, himage'⟩ := Buffer.exists_ofPoly (Nat.lt_succ_self q.degree) R
    have hfresh : (⟨1, .replicate (p.degree + q.degree + 1) 0⟩ : Buffer).WellFormed :=
      Buffer.wellFormed_zero (Nat.le_add_left 1 _)
    -- Subtracted from zero, the product is there with the opposite sign.
    obtain ⟨v, hrun, hv, hproduct⟩ := Buffer.computes_subProduct R hfresh ht hu
      (by omega) (by simp [Buffer.capacity]; omega)
    have hneg : (v.negate R).image R = p.image R * q.image R := by
      rw [Buffer.image_negate hv, hproduct, Buffer.image_eq_zero (Buffer.slot_replicate _ _),
        himage, himage', zero_sub, neg_neg]
    rw [mul, requireSameRing_eq hp hq, ok_bind, if_neg hz, toBuffer_eq (by omega), hof, ok_bind,
      toBuffer_eq (by omega), hof', ok_bind, addDegrees, if_pos (by omega), ok_bind,
      Buffer.ofDegreeBound_eq hword, ok_bind, hp, Action.finalState, hrun, ok_bind,
      Buffer.toPoly_eq_representing (hv.negate R), hneg]
    rfl

/-! ## Operations, whatever the degrees -/

theorem edited_eq_error (p : Poly) {degree : Nat} (hword : ¬degree + 1 < degreeBound)
    (edit : Edit Unit) : p.edited degree edit = .error (.faulted .degreeOverflow) := by
  rw [edited, addDegrees, if_neg hword]
  rfl

/-- A sum is there unless a machine word does not count its coefficients. The summand zero needs no
    buffer. -/
theorem add_eq_ite (hp : p.ring = R) (hq : q.ring = R) :
    p.add q =
      if q.isZero = true ∨ max p.degree q.degree + 1 < degreeBound then
        .ok (representing R (p.image R + q.image R))
      else
        .error (.faulted .degreeOverflow) := by
  split_ifs with h
  · rcases h with hz | hword
    · exact add_eq_of_isZero hp hq hz
    · exact add_eq hp hq hword
  · rw [not_or] at h
    rw [add, requireSameRing_eq hp hq, ok_bind, if_neg h.1, edited_eq_error p h.2]

theorem sub_eq_ite (hp : p.ring = R) (hq : q.ring = R) :
    p.sub q =
      if q.isZero = true ∨ max p.degree q.degree + 1 < degreeBound then
        .ok (representing R (p.image R - q.image R))
      else
        .error (.faulted .degreeOverflow) := by
  split_ifs with h
  · rcases h with hz | hword
    · exact sub_eq_of_isZero hp hq hz
    · exact sub_eq hp hq hword
  · rw [not_or] at h
    rw [sub, requireSameRing_eq hp hq, ok_bind, if_neg h.1, edited_eq_error p h.2]

theorem addTermMultiple_eq_ite (hp : p.ring = R) (hq : q.ring = R) {a : Term}
    (ha : a.isTrivial = false) :
    p.addTermMultiple q a =
      if max p.degree (q.degree + a.degree) + 1 < degreeBound then
        .ok (representing R
          (p.image R + monomial a.degree (a.coefficient : R.Element) * q.image R))
      else
        .error (.faulted .degreeOverflow) := by
  split_ifs with hword
  · exact addTermMultiple_eq hp hq ha hword
  · rw [addTermMultiple, requireSameRing_eq hp hq, ok_bind, addDegrees]
    split_ifs
    · exact edited_eq_error p hword _
    · rfl

/-- A product that does not vanish overflows if an operand, the sum of the degrees or the size of
    the buffer does. -/
theorem mul_eq_error (hp : p.ring = R) (hq : q.ring = R) (hz : (p.isZero || q.isZero) = false)
    (hword : ¬p.degree + q.degree + 1 < degreeBound) :
    p.mul q = .error (.faulted .degreeOverflow) := by
  rw [mul, requireSameRing_eq hp hq, ok_bind, hz, if_neg Bool.false_ne_true]
  by_cases hpword : p.degree + 1 < degreeBound
  · obtain ⟨t, ht, -⟩ := Buffer.ofPoly_of_lt (Nat.lt_succ_self p.degree)
    rw [toBuffer_eq hpword, ht, ok_bind]
    by_cases hqword : q.degree + 1 < degreeBound
    · obtain ⟨u, hu, -⟩ := Buffer.ofPoly_of_lt (Nat.lt_succ_self q.degree)
      rw [toBuffer_eq hqword, hu, ok_bind, addDegrees]
      split_ifs
      · rw [ok_bind, Buffer.ofDegreeBound_eq_error hword]
        rfl
      · rfl
    · rw [toBuffer_eq_error hqword]
      rfl
  · rw [toBuffer_eq_error hpword]
    rfl

/-- A product is there unless a machine word does not count its coefficients. A zero factor needs no
    buffer. -/
theorem mul_eq_ite (hp : p.ring = R) (hq : q.ring = R) :
    p.mul q =
      if (p.isZero || q.isZero) = true ∨ p.degree + q.degree + 1 < degreeBound then
        .ok (representing R (p.image R * q.image R))
      else
        .error (.faulted .degreeOverflow) := by
  split_ifs with h
  · rcases h with hz | hword
    · exact mul_eq_of_isZero hp hq hz
    · exact mul_eq hp hq hword
  · rw [not_or, Bool.not_eq_true] at h
    exact mul_eq_error hp hq h.1 h.2

/-! ## Laws -/

/-- Where there are two results, they are equal. -/
def Agree (x y : Except Failure Poly) : Prop :=
  ∀ s t, x = .ok s → y = .ok t → s = t

section Laws

variable (rel : Except Failure Poly → Except Failure Poly → Prop) (p q r : Poly)

/-- The laws of addition, as a relation between results. -/
structure AdditiveLaws : Prop where
  add_comm : rel (p.add q) (q.add p)
  add_assoc : rel (p.add q >>= (·.add r)) (q.add r >>= p.add)
  add_zero : rel (p.add (zero p.ring)) (.ok p)
  add_neg : rel (p.add p.neg) (.ok (zero p.ring))
  sub_eq_add_neg : rel (p.sub q) (p.add q.neg)

/-- The laws of multiplication, as a relation between results. -/
structure MultiplicativeLaws : Prop where
  mul_comm : rel (p.mul q) (q.mul p)
  mul_assoc : rel (p.mul q >>= (·.mul r)) (q.mul r >>= p.mul)
  mul_one : rel (p.mul (const p.ring 1)) (.ok p)
  mul_add : rel (q.add r >>= p.mul) (do (← p.mul q).add (← p.mul r))

end Laws

/-! ### Between results -/

/-- The polynomial is over the ring, and has the image `f` there. -/
structure HasImage (R : CoeffRing) (p : Poly) (f : R.Element[X]) : Prop where
  ring_eq : p.ring = R
  image_eq : p.image R = f

/-- If there is a result, it has the image `f`. -/
def Gives (R : CoeffRing) (x : Except Failure Poly) (f : R.Element[X]) : Prop :=
  ∀ s, x = .ok s → s.HasImage R f

section Gives

variable {x y : Except Failure Poly} {next : Poly → Except Failure Poly} {h : R.Element[X]}

theorem gives_ok (hp : p.HasImage R f) : Gives R (.ok p) f := by
  intro s hs
  obtain rfl := Except.ok.inj hs
  exact hp

theorem gives_error (e : Failure) : Gives R (.error e) f := by
  rintro s ⟨⟩

theorem gives_ite (f : R.Element[X]) (e : Failure) (fits : Prop) [Decidable fits] :
    Gives R (if fits then .ok (representing R f) else .error e) f := by
  split_ifs
  · exact gives_ok ⟨ring_representing R f, image_representing R f⟩
  · exact gives_error e

theorem Gives.bind (hx : Gives R x f) (hnext : ∀ s, s.HasImage R f → Gives R (next s) g) :
    Gives R (x >>= next) g := by
  cases x with
  | error e => exact gives_error e
  | ok t => exact hnext t (hx t rfl)

/-- A polynomial over a ring is determined by its image. -/
theorem Gives.agree (hx : Gives R x f) (hy : Gives R y f) : Agree x y := by
  intro s t hs ht
  have hs := hx s hs
  have ht := hy t ht
  exact image_injective hs.ring_eq ht.ring_eq (hs.image_eq.trans ht.image_eq.symm)

theorem gives_add (hp : p.HasImage R f) (hq : q.HasImage R g) : Gives R (p.add q) (f + g) := by
  obtain ⟨hp, rfl⟩ := hp
  obtain ⟨hq, rfl⟩ := hq
  rw [add_eq_ite hp hq]
  exact gives_ite _ _ _

theorem gives_sub (hp : p.HasImage R f) (hq : q.HasImage R g) : Gives R (p.sub q) (f - g) := by
  obtain ⟨hp, rfl⟩ := hp
  obtain ⟨hq, rfl⟩ := hq
  rw [sub_eq_ite hp hq]
  exact gives_ite _ _ _

theorem gives_mul (hp : p.HasImage R f) (hq : q.HasImage R g) : Gives R (p.mul q) (f * g) := by
  obtain ⟨hp, rfl⟩ := hp
  obtain ⟨hq, rfl⟩ := hq
  rw [mul_eq_ite hp hq]
  exact gives_ite _ _ _

theorem HasImage.neg (hp : p.HasImage R f) : p.neg.HasImage R (-f) where
  ring_eq := hp.ring_eq
  image_eq := by rw [image_neg hp.ring_eq, hp.image_eq]

theorem hasImage_zero (hp : p.ring = R) : (zero p.ring).HasImage R 0 :=
  ⟨hp, image_zero R⟩

theorem hasImage_one (hp : p.ring = R) : (const p.ring 1).HasImage R 1 := by
  subst hp
  exact ⟨rfl, by rw [image_const, Int.cast_one, C_1]⟩

/-- Whatever the degrees, the laws of addition hold between results. -/
theorem additiveLaws_agree (hp : p.HasImage R f) (hq : q.HasImage R g) (hr : r.HasImage R h) :
    AdditiveLaws Agree p q r where
  add_comm := by
    have hqp := gives_add hq hp
    rw [add_comm] at hqp
    exact (gives_add hp hq).agree hqp
  add_assoc := by
    have hleft : Gives R (p.add q >>= (·.add r)) (f + g + h) :=
      (gives_add hp hq).bind fun _ hs => gives_add hs hr
    have hright : Gives R (q.add r >>= p.add) (f + (g + h)) :=
      (gives_add hq hr).bind fun _ hs => gives_add hp hs
    rw [add_assoc] at hleft
    exact hleft.agree hright
  add_zero := by
    have hzero := gives_add hp (hasImage_zero hp.ring_eq)
    rw [add_zero] at hzero
    exact hzero.agree (gives_ok hp)
  add_neg := by
    have hneg := gives_add hp hp.neg
    rw [add_neg_cancel] at hneg
    exact hneg.agree (gives_ok (hasImage_zero hp.ring_eq))
  sub_eq_add_neg := by
    have hneg := gives_add hp hq.neg
    rw [← sub_eq_add_neg] at hneg
    exact (gives_sub hp hq).agree hneg

/-- Whatever the degrees, the laws of multiplication hold between results. -/
theorem multiplicativeLaws_agree (hp : p.HasImage R f) (hq : q.HasImage R g)
    (hr : r.HasImage R h) : MultiplicativeLaws Agree p q r where
  mul_comm := by
    have hqp := gives_mul hq hp
    rw [mul_comm] at hqp
    exact (gives_mul hp hq).agree hqp
  mul_assoc := by
    have hleft : Gives R (p.mul q >>= (·.mul r)) (f * g * h) :=
      (gives_mul hp hq).bind fun _ hs => gives_mul hs hr
    have hright : Gives R (q.mul r >>= p.mul) (f * (g * h)) :=
      (gives_mul hq hr).bind fun _ hs => gives_mul hp hs
    rw [mul_assoc] at hleft
    exact hleft.agree hright
  mul_one := by
    have hone := gives_mul hp (hasImage_one hp.ring_eq)
    rw [mul_one] at hone
    exact hone.agree (gives_ok hp)
  mul_add := by
    have hleft : Gives R (q.add r >>= p.mul) (f * (g + h)) :=
      (gives_add hq hr).bind fun _ hs => gives_mul hp hs
    have hright : Gives R (do (← p.mul q).add (← p.mul r)) (f * g + f * h) :=
      (gives_mul hp hq).bind fun _ hs => (gives_mul hp hr).bind fun _ ht => gives_add hs ht
    rw [mul_add] at hleft
    exact hleft.agree hright

end Gives

/-! ### Where there are results -/

theorem degree_zero (R : CoeffRing) : (zero R).degree = 0 :=
  rfl

theorem degree_const (R : CoeffRing) (c : Int) : (const R c).degree = 0 := by
  rw [← natDegree_image (R := R) (p := const R c) rfl, image_const, natDegree_C]

theorem degree_neg (hp : p.ring = R) : p.neg.degree = p.degree := by
  rw [← natDegree_image (R := R) (p := p.neg) hp, image_neg hp, natDegree_neg, natDegree_image hp]

/-- The degree of a sum is a machine word if those of the summands are. -/
theorem degree_representing_add_le (hp : p.ring = R) (hq : q.ring = R) :
    (representing R (p.image R + q.image R)).degree ≤ max p.degree q.degree := by
  rw [degree_representing, ← natDegree_image hp, ← natDegree_image hq]
  exact natDegree_add_le _ _

theorem degree_representing_mul_le (hp : p.ring = R) (hq : q.ring = R) :
    (representing R (p.image R * q.image R)).degree ≤ p.degree + q.degree := by
  rw [degree_representing, ← natDegree_image hp, ← natDegree_image hq]
  exact natDegree_mul_le

theorem Agree.eq {x y : Except Failure Poly} (h : Agree x y) (hx : ∃ s, x = .ok s)
    (hy : ∃ t, y = .ok t) : x = y := by
  obtain ⟨s, rfl⟩ := hx
  obtain ⟨t, rfl⟩ := hy
  rw [h s t rfl rfl]

/-- There are results on both sides of the laws of addition. -/
theorem additiveLaws (hp : p.ring = R) (hq : q.ring = R) (hr : r.ring = R)
    (hword : max (max p.degree q.degree) r.degree + 1 < degreeBound) :
    AdditiveLaws (· = ·) p q r := by
  have hagree := additiveLaws_agree (p := p) (q := q) (r := r) ⟨hp, rfl⟩ ⟨hq, rfl⟩ ⟨hr, rfl⟩
  have hzero := degree_zero p.ring
  have hpneg := degree_neg hp
  have hqneg := degree_neg hq
  have hpq := degree_representing_add_le hp hq
  have hqr := degree_representing_add_le hq hr
  constructor
  case add_comm =>
    exact hagree.add_comm.eq ⟨_, add_eq hp hq (by omega)⟩ ⟨_, add_eq hq hp (by omega)⟩
  case add_assoc =>
    refine hagree.add_assoc.eq ?_ ?_
    · rw [add_eq hp hq (by omega)]
      exact ⟨_, add_eq (ring_representing R _) hr (by omega)⟩
    · rw [add_eq hq hr (by omega)]
      exact ⟨_, add_eq hp (ring_representing R _) (by omega)⟩
  case add_zero =>
    exact hagree.add_zero.eq ⟨_, add_eq hp hp (by omega)⟩ ⟨_, rfl⟩
  case add_neg =>
    exact hagree.add_neg.eq ⟨_, add_eq hp hp (by omega)⟩ ⟨_, rfl⟩
  case sub_eq_add_neg =>
    exact hagree.sub_eq_add_neg.eq ⟨_, sub_eq hp hq (by omega)⟩ ⟨_, add_eq hp hq (by omega)⟩

/-- There are results on both sides of the laws of multiplication. -/
theorem multiplicativeLaws (hp : p.ring = R) (hq : q.ring = R) (hr : r.ring = R)
    (hword : p.degree + q.degree + r.degree + 1 < degreeBound) :
    MultiplicativeLaws (· = ·) p q r := by
  have hagree := multiplicativeLaws_agree (p := p) (q := q) (r := r) ⟨hp, rfl⟩ ⟨hq, rfl⟩ ⟨hr, rfl⟩
  have hone := degree_const p.ring 1
  have hpq := degree_representing_mul_le hp hq
  have hpr := degree_representing_mul_le hp hr
  have hqr := degree_representing_mul_le hq hr
  have hsum := degree_representing_add_le hq hr
  constructor
  case mul_comm =>
    exact hagree.mul_comm.eq ⟨_, mul_eq hp hq (by omega)⟩ ⟨_, mul_eq hq hp (by omega)⟩
  case mul_assoc =>
    refine hagree.mul_assoc.eq ?_ ?_
    · rw [mul_eq hp hq (by omega)]
      exact ⟨_, mul_eq (ring_representing R _) hr (by omega)⟩
    · rw [mul_eq hq hr (by omega)]
      exact ⟨_, mul_eq hp (ring_representing R _) (by omega)⟩
  case mul_one =>
    exact hagree.mul_one.eq ⟨_, mul_eq hp hp (by omega)⟩ ⟨_, rfl⟩
  case mul_add =>
    refine hagree.mul_add.eq ?_ ?_
    · rw [add_eq hq hr (by omega)]
      exact ⟨_, mul_eq hp (ring_representing R _) (by omega)⟩
    · rw [mul_eq hp hq (by omega), mul_eq hp hr (by omega)]
      exact ⟨_, add_eq (ring_representing R _) (ring_representing R _) (by omega)⟩

/-- Polynomials over a ring are a representation of the polynomial ring, and arithmetic on them is
    arithmetic there: each operation gives the polynomial that represents what it is to compute,
    unless a machine word does not count the slots of the buffer it computes in, which overflows. A
    summand or a factor that is zero needs no buffer. The laws of a commutative ring hold between
    results, and there are results on both sides as long as the degrees are machine words. -/
theorem arithmetic_represents (hp : p.ring = R) (hq : q.ring = R) (hr : r.ring = R) :
    (p.terms.Pairwise (·.degree < ·.degree) ∧
        ∀ a ∈ p.terms, R.contains a.coefficient = true ∧ a.coefficient ≠ 0) ∧
      (p = q ↔ p.image R = q.image R) ∧
      (∀ f, (representing R f).ring = R ∧ (representing R f).image R = f) ∧
      p.neg = representing R (-p.image R) ∧
      (p.add q =
        if q.isZero = true ∨ max p.degree q.degree + 1 < degreeBound then
          .ok (representing R (p.image R + q.image R))
        else
          .error (.faulted .degreeOverflow)) ∧
      (p.sub q =
        if q.isZero = true ∨ max p.degree q.degree + 1 < degreeBound then
          .ok (representing R (p.image R - q.image R))
        else
          .error (.faulted .degreeOverflow)) ∧
      (p.mul q =
        if (p.isZero || q.isZero) = true ∨ p.degree + q.degree + 1 < degreeBound then
          .ok (representing R (p.image R * q.image R))
        else
          .error (.faulted .degreeOverflow)) ∧
      (∀ a : Term, a.isTrivial = false →
        p.addTermMultiple q a =
          if max p.degree (q.degree + a.degree) + 1 < degreeBound then
            .ok (representing R
              (p.image R + monomial a.degree (a.coefficient : R.Element) * q.image R))
          else
            .error (.faulted .degreeOverflow)) ∧
      (AdditiveLaws Agree p q r ∧ MultiplicativeLaws Agree p q r) ∧
      (max (max p.degree q.degree) r.degree + 1 < degreeBound → AdditiveLaws (· = ·) p q r) ∧
      (p.degree + q.degree + r.degree + 1 < degreeBound → MultiplicativeLaws (· = ·) p q r) := by
  refine ⟨⟨p.ascending, hp ▸ p.canonical⟩, ⟨congrArg _, image_injective hp hq⟩,
    fun f => ⟨rfl, image_representing R f⟩, neg_eq hp, add_eq_ite hp hq, sub_eq_ite hp hq,
    mul_eq_ite hp hq, fun a ha => addTermMultiple_eq_ite hp hq ha, ⟨?_, ?_⟩,
    additiveLaws hp hq hr, multiplicativeLaws hp hq hr⟩
  · exact additiveLaws_agree ⟨hp, rfl⟩ ⟨hq, rfl⟩ ⟨hr, rfl⟩
  · exact multiplicativeLaws_agree ⟨hp, rfl⟩ ⟨hq, rfl⟩ ⟨hr, rfl⟩

/-- Modulo `6`, the product of `2 x` and `3 x` vanishes, as a value and as an image. -/
theorem represents_zero_divisors :
    let R : CoeffRing := .modular 6 false (by decide)
    (ofSlots R [0, 2]).mul (ofSlots R [0, 3]) = .ok (zero R) ∧
      (ofSlots R [0, 2]).image R * (ofSlots R [0, 3]).image R = 0 := by
  intro R
  obtain ⟨-, -, -, -, -, -, hmul, -⟩ := arithmetic_represents (R := R) (p := ofSlots R [0, 2])
    (q := ofSlots R [0, 3]) (r := zero R) rfl rfl rfl
  have hvalue : (ofSlots R [0, 2]).mul (ofSlots R [0, 3]) = .ok (zero R) := by
    decide +kernel
  rw [if_pos (.inr (by decide +kernel)), hvalue] at hmul
  refine ⟨hvalue, ?_⟩
  rw [← image_representing R (_ * _), ← Except.ok.inj hmul, image_zero]

/-- The power of `x` with the highest exponent there is. -/
def highestPower (R : CoeffRing) : Poly :=
  ofAscending R [⟨degreeBound - 1, 1⟩] (.cons (by simp) .nil)

theorem not_degree_highestPower_lt : ¬(highestPower .integers).degree + 1 < degreeBound := by
  decide

/-- The highest power and the constant one overflow every operation, although a machine word holds
    the sum of their degrees. -/
theorem arithmetic_highestPower :
    let p := highestPower .integers
    let q := const .integers 1
    p.degree + q.degree < degreeBound ∧
      p.add q = .error (.faulted .degreeOverflow) ∧
      p.sub q = .error (.faulted .degreeOverflow) ∧
      p.mul q = .error (.faulted .degreeOverflow) ∧
      p.addTermMultiple q ⟨0, 1⟩ = .error (.faulted .degreeOverflow) := by
  intro p q
  have hword : ¬p.degree + 1 < degreeBound := not_degree_highestPower_lt
  have hone : q.isZero = false := by
    decide
  have hq : q.degree = 0 := degree_const .integers 1
  refine ⟨by decide, ?_, ?_, ?_, ?_⟩
  · rw [add_eq_ite (R := .integers) rfl rfl, hone, hq, if_neg (by simpa using hword)]
  · rw [sub_eq_ite (R := .integers) rfl rfl, hone, hq, if_neg (by simpa using hword)]
  · exact mul_eq_error rfl rfl (by decide) (by rwa [hq])
  · rw [addTermMultiple_eq_ite (R := .integers) rfl rfl (by decide), hq,
      if_neg (by simpa using hword)]

end Poly

end Univariate
