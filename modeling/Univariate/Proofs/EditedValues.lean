import Univariate.Proofs.AccumulationAgreement
import Univariate.Proofs.Evaluation

/-!
# Values under edits

Over the integers, an edit that combines polynomials changes the value of a buffer, at every
integer, by what the combined polynomials contribute. Horner's rule only sees the significant slots:
that it sees every slot that was written is in the images, which the edits change as they say
whatever the highest significant slots hold.

* `Poly.evaluate` is the value of a polynomial. It is also that of a buffer into which the
  polynomial is unpacked (`Buffer.evaluate_ofPoly`).
* `Buffer.Revalues` says of an edit when it succeeds on a buffer, and which value it leaves. It
  follows from the image that the edit computes (`Buffer.revalues_of_computes`).
* `Buffer.edits_revalue` collects the edits.
-/

namespace Univariate

open Polynomial

variable {R : CoeffRing}

/-! ## Polynomials -/

namespace Poly

/-- The value at `x`. -/
def evaluate (p : Poly) (x : Int) : Int :=
  ∑ i ∈ Finset.range (p.degree + 1), p.coeff i * x ^ i

/-- The value stands for that of the image, in every ring. -/
theorem cast_evaluate (p : Poly) (R : CoeffRing) (x : Int) :
    (p.evaluate x : R.Element) = (p.image R).eval (x : R.Element) := by
  rw [evaluate, image, CoeffRing.polynomial, eval_finsetSum, Int.cast_sum]
  refine Finset.sum_congr rfl fun i _ => ?_
  rw [eval_monomial, Int.cast_mul, Int.cast_pow]

end Poly

namespace Buffer

variable {t p q u source : Buffer} {s : Poly} {edit : Edit Unit} {f : R.Element[X]} {x value : Int}

/-- A polynomial and a buffer into which it is unpacked have the same values. -/
theorem evaluate_ofPoly {n : Nat} (hof : ofPoly n s = .ok u) (x : Int) :
    u.evaluate x = s.evaluate x := by
  have hu := holds_of_ofPoly hof
  refine CoeffRing.eq_of_contains (R := .integers) rfl rfl ?_
  rw [hu.wellFormed.cast_evaluate, hu.image_eq, s.cast_evaluate]

/-! ## What the edits compute -/

theorem computes_subBufferMultiple (ht : t.WellFormed) (hs : source.WellFormed) {a : Term}
    (ha : a.isTrivial = false)
    (hd : source.isZero = true ∨ source.degree + a.degree < min degreeBound t.capacity) :
    Computes R (subBufferMultiple R source a) t
      (t.image R - monomial a.degree (a.coefficient : R.Element) * source.image R) := by
  rw [Computes, run_subBufferMultiple, ha, if_neg Bool.false_ne_true]
  by_cases hz : source.isZero = true
  · rw [if_pos hz, image_of_isZero hs hz, mul_zero, sub_zero]
    exact ⟨t, rfl, ht, rfl⟩
  · obtain ⟨hword, hlt⟩ := lt_min_iff.1 (hd.resolve_left hz)
    rw [if_neg hz, addDegrees, if_pos hword]
    refine ⟨(t.subShifted R source a).resize R (source.degree + a.degree),
      if_neg (not_le.2 hlt), ?_, ?_⟩
    · exact ht.resize (size_subShifted ..) (capacity_subShifted ..) hlt fun _ hi =>
        slot_subShifted_of_lt t source R hi
    · rw [image_resize, image_subShifted hs hlt]

theorem computes_scale (ht : t.WellFormed) {c : Int} (hc : R.isZero c = false) :
    Computes R (scale R c) t (C (c : R.Element) * t.image R) := by
  refine ⟨(t.mapNonzero (R.mul · c)).trim R, ?_, (ht.mapNonzero _).trim R, ?_⟩
  · rw [run_scale, hc, if_neg Bool.false_ne_true]
  · rw [image_trim, image_mapNonzero ht fun y => ?_]
    rw [CoeffRing.cast_mul, mul_comm]

/-! ## When they succeed -/

/-- An accumulation up to the exponent `d + e` succeeds only if there is a slot for it. -/
theorem lt_of_accumulate {v : Buffer} {d e : Nat}
    (h : (match addDegrees d e with
      | .error e => (.error e t : EStateM.Result Failure Buffer Unit)
      | .ok degree =>
        if t.capacity ≤ degree then
          .error (.refused (.noSlotFor degree t.capacity)) t
        else
          .ok () (v.resize R degree)) = .ok () u) : d + e < min degreeBound t.capacity := by
  rw [addDegrees] at h
  split_ifs at h with hword
  dsimp only at h
  split_ifs at h with hle
  exact lt_min hword (not_le.1 hle)

theorem possible_of_run_addMultiple {c : Int} (h : (addMultiple s c).run t = .ok () u) :
    s.ring.isZero c = false ∧ s.degree < t.capacity := by
  rw [run_addMultiple] at h
  split_ifs at h with hc hle
  exact ⟨by simpa using hc, not_le.1 hle⟩

theorem possible_of_run_addTermMultiple {a : Term} (h : (addTermMultiple s a).run t = .ok () u) :
    a.isTrivial = false ∧ s.degree + a.degree < min degreeBound t.capacity := by
  rw [run_addTermMultiple] at h
  split_ifs at h with ha
  exact ⟨by simpa using ha, lt_of_accumulate h⟩

theorem possible_of_run_subBufferMultiple {a : Term}
    (h : (subBufferMultiple R source a).run t = .ok () u) :
    a.isTrivial = false ∧
      (source.isZero = true ∨ source.degree + a.degree < min degreeBound t.capacity) := by
  rw [run_subBufferMultiple] at h
  split_ifs at h with ha hz
  · exact ⟨by simpa using ha, .inl hz⟩
  · exact ⟨by simpa using ha, .inr (lt_of_accumulate h)⟩

theorem possible_of_run_subProduct (h : (subProduct R p q).run t = .ok () u) :
    (p.isZero || q.isZero) = true ∨ p.degree + q.degree < min degreeBound t.capacity := by
  rw [run_subProduct] at h
  split_ifs at h with hz
  · exact .inl hz
  · exact .inr (lt_of_accumulate h)

theorem possible_of_run_scale {c : Int} (h : (scale R c).run t = .ok () u) :
    R.isZero c = false := by
  rw [run_scale] at h
  split_ifs at h with hc
  simpa using hc

/-! ## Values -/

/-- The edit succeeds on the buffer exactly if `possible` holds, and leaves the value `value` at
    `x`. -/
structure Revalues (edit : Edit Unit) (t : Buffer) (possible : Prop) (x value : Int) : Prop where
  succeeds_iff : (∃ u, edit.run t = .ok () u) ↔ possible
  evaluate_eq : ∀ u, edit.run t = .ok () u → u.evaluate x = value

/-- An edit over the integers leaves the value of the image that it computes. -/
theorem revalues_of_computes (hR : R = .integers) {f : R.Element[X]} {possible : Prop}
    (hpossible : ∀ u, edit.run t = .ok () u → possible)
    (hcomputes : possible → Computes R edit t f)
    (hvalue : f.eval (x : R.Element) = (value : R.Element)) :
    Revalues edit t possible x value := by
  subst hR
  refine ⟨⟨fun ⟨u, hrun⟩ => hpossible u hrun, fun h => ?_⟩, fun u hrun => ?_⟩
  · obtain ⟨u, hrun, -⟩ := hcomputes h
    exact ⟨u, hrun⟩
  · obtain ⟨u', hrun', hu, himage⟩ := hcomputes (hpossible u hrun)
    obtain rfl : u = u' := by
      rw [hrun] at hrun'
      cases hrun'
      rfl
    refine CoeffRing.eq_of_contains (R := .integers) rfl rfl ?_
    rw [hu.cast_evaluate, himage, hvalue]

/-- The value of a sum with a multiple of `g`. -/
theorem eval_image_add (ht : t.WellFormed) {g : R.Element[X]} {y : Int}
    (hg : g.eval (x : R.Element) = (y : R.Element)) (d : Nat) (c : Int) :
    (t.image R + monomial d (c : R.Element) * g).eval (x : R.Element) =
      ((t.evaluate x + c * x ^ d * y : Int) : R.Element) := by
  rw [eval_add, eval_mul, eval_monomial, hg, ← ht.cast_evaluate, Int.cast_add, Int.cast_mul,
    Int.cast_mul, Int.cast_pow]

/-- The value of a difference to a product. -/
theorem eval_image_sub (ht : t.WellFormed) {g h : R.Element[X]} {y z : Int}
    (hg : g.eval (x : R.Element) = (y : R.Element))
    (hh : h.eval (x : R.Element) = (z : R.Element)) :
    (t.image R - g * h).eval (x : R.Element) = ((t.evaluate x - y * z : Int) : R.Element) := by
  rw [eval_sub, eval_mul, hg, hh, ← ht.cast_evaluate, Int.cast_sub, Int.cast_mul]

theorem revalues_addMultiple (ht : t.WellFormed) (hs : s.ring = .integers) (c x : Int) :
    Revalues (addMultiple s c) t (c ≠ 0 ∧ s.degree < t.capacity) x
      (t.evaluate x + c * s.evaluate x) := by
  refine revalues_of_computes rfl (fun u hrun => ?_)
    (fun h => computes_addMultiple ht hs (CoeffRing.isZero_integers_eq_false h.1) h.2) ?_
  · obtain ⟨hc, hlt⟩ := possible_of_run_addMultiple hrun
    exact ⟨CoeffRing.ne_zero_of_isZero_eq_false hc, hlt⟩
  · have hvalue := eval_image_add ht (s.cast_evaluate .integers x).symm 0 c
    rwa [pow_zero, mul_one, monomial_zero_left] at hvalue

theorem revalues_addTermMultiple (ht : t.WellFormed) (hs : s.ring = .integers) (a : Term)
    (x : Int) :
    Revalues (addTermMultiple s a) t
      (a.isTrivial = false ∧ s.degree + a.degree < min degreeBound t.capacity) x
      (t.evaluate x + a.coefficient * x ^ a.degree * s.evaluate x) := by
  refine revalues_of_computes rfl (fun u hrun => possible_of_run_addTermMultiple hrun)
    (fun h => ?_) (eval_image_add ht (s.cast_evaluate .integers x).symm _ _)
  obtain ⟨hword, hlt⟩ := lt_min_iff.1 h.2
  exact computes_addTermMultiple ht hs h.1 hword hlt

/-- Subtracting a term multiple is adding the opposite one. -/
theorem revalues_subTermMultiple (ht : t.WellFormed) (hs : s.ring = .integers) (a : Term)
    (x : Int) :
    Revalues (subTermMultiple s a) t
      (a.isTrivial = false ∧ s.degree + a.degree < min degreeBound t.capacity) x
      (t.evaluate x - a.coefficient * x ^ a.degree * s.evaluate x) := by
  have h := revalues_addTermMultiple ht hs ⟨a.degree, -a.coefficient⟩ x
  rw [isTrivial_neg, neg_mul, neg_mul, ← sub_eq_add_neg] at h
  refine ⟨?_, fun u hrun => h.evaluate_eq u ?_⟩
  · rw [run_subTermMultiple_eq]
    exact h.succeeds_iff
  · rwa [← run_subTermMultiple_eq]

theorem revalues_subBufferMultiple (ht : t.WellFormed) (hs : source.WellFormed) (a : Term)
    (x : Int) :
    Revalues (subBufferMultiple .integers source a) t
      (a.isTrivial = false ∧
        (source.isZero = true ∨ source.degree + a.degree < min degreeBound t.capacity)) x
      (t.evaluate x - a.coefficient * x ^ a.degree * source.evaluate x) := by
  refine revalues_of_computes rfl (fun u hrun => possible_of_run_subBufferMultiple hrun)
    (fun h => computes_subBufferMultiple ht hs h.1 h.2) ?_
  refine eval_image_sub ht ?_ (hs.cast_evaluate .integers x).symm
  rw [eval_monomial, Int.cast_mul, Int.cast_pow]

theorem revalues_subProduct (ht : t.WellFormed) (hp : p.WellFormed) (hq : q.WellFormed) (x : Int) :
    Revalues (subProduct .integers p q) t
      ((p.isZero || q.isZero) = true ∨ p.degree + q.degree < min degreeBound t.capacity) x
      (t.evaluate x - p.evaluate x * q.evaluate x) := by
  refine revalues_of_computes rfl (fun u hrun => possible_of_run_subProduct hrun) ?_
    (eval_image_sub ht (hp.cast_evaluate .integers x).symm (hq.cast_evaluate .integers x).symm)
  rintro (hz | hlt)
  · exact computes_subProduct_of_isZero .integers ht hp hq hz
  · obtain ⟨hword, hlt⟩ := lt_min_iff.1 hlt
    exact computes_subProduct .integers ht hp hq hword hlt

theorem revalues_scale (ht : t.WellFormed) (c x : Int) :
    Revalues (scale .integers c) t (c ≠ 0) x (c * t.evaluate x) := by
  refine revalues_of_computes rfl (fun u hrun => ?_)
    (fun h => computes_scale ht (CoeffRing.isZero_integers_eq_false h)) ?_
  · exact CoeffRing.ne_zero_of_isZero_eq_false (possible_of_run_scale hrun)
  · rw [eval_mul, eval_C, ← ht.cast_evaluate, Int.cast_mul]

theorem evaluate_negate (ht : t.WellFormed) (x : Int) :
    (t.negate .integers).evaluate x = -t.evaluate x := by
  refine CoeffRing.eq_of_contains (R := .integers) rfl rfl ?_
  rw [(ht.negate .integers).cast_evaluate, image_negate ht, eval_neg, ← ht.cast_evaluate,
    Int.cast_neg]

/-- Over the integers, let an edit combine polynomials in a well-formed buffer, whatever the highest
    significant slots hold. It succeeds exactly if its multiplier is not the constant zero and there
    are slots for what it writes. The value at every integer `x` then changes by what it combines:
    the product of the values of two buffers is subtracted, and the value of the multiplier times
    that of the polynomial is added or subtracted. A multiplication by a scalar multiplies the
    value, and a negation negates it. The value of a polynomial is that of any buffer into which it
    is unpacked. -/
theorem edits_revalue (ht : t.WellFormed) (hp : p.WellFormed) (hq : q.WellFormed)
    (hs : s.ring = .integers) (x : Int) :
    Revalues (subProduct .integers p q) t
        ((p.isZero || q.isZero) = true ∨ p.degree + q.degree < min degreeBound t.capacity) x
        (t.evaluate x - p.evaluate x * q.evaluate x) ∧
      (∀ c : Int, Revalues (addMultiple s c) t (c ≠ 0 ∧ s.degree < t.capacity) x
        (t.evaluate x + c * s.evaluate x)) ∧
      (∀ c : Int64, Revalues (addMultipleInt64 s c) t (c.toInt ≠ 0 ∧ s.degree < t.capacity) x
        (t.evaluate x + c.toInt * s.evaluate x)) ∧
      (∀ a : Term,
        Revalues (addTermMultiple s a) t
          (a.isTrivial = false ∧ s.degree + a.degree < min degreeBound t.capacity) x
          (t.evaluate x + a.coefficient * x ^ a.degree * s.evaluate x) ∧
        Revalues (subTermMultiple s a) t
          (a.isTrivial = false ∧ s.degree + a.degree < min degreeBound t.capacity) x
          (t.evaluate x - a.coefficient * x ^ a.degree * s.evaluate x) ∧
        Revalues (subBufferMultiple .integers p a) t
          (a.isTrivial = false ∧
            (p.isZero = true ∨ p.degree + a.degree < min degreeBound t.capacity)) x
          (t.evaluate x - a.coefficient * x ^ a.degree * p.evaluate x)) ∧
      (∀ c : Int, Revalues (scale .integers c) t (c ≠ 0) x (c * t.evaluate x)) ∧
      (t.negate .integers).evaluate x = -t.evaluate x ∧
      ∀ n u, ofPoly n s = .ok u → u.evaluate x = s.evaluate x := by
  refine ⟨revalues_subProduct ht hp hq x, fun c => revalues_addMultiple ht hs c x,
    fun c => ?_, fun a => ⟨?_, ?_, ?_⟩,
    fun c => revalues_scale ht c x, evaluate_negate ht x, fun n u hof => evaluate_ofPoly hof x⟩
  · rw [addMultipleInt64_eq]
    exact revalues_addMultiple ht hs c.toInt x
  · exact revalues_addTermMultiple ht hs a x
  · exact revalues_subTermMultiple ht hs a x
  · exact revalues_subBufferMultiple ht hp a x

/-- The highest significant slots of `2 x + 1` and of `x` hold zero. Subtracting the product of `x`
    and `3 - x` takes the value at `2` from `5` to `3`, and subtracting `3 x` times `x` takes it to
    `-7`. Adding `x` times `x ^ 2 - 1` takes it to `11`. -/
theorem edits_revalue_exposed :
    let t : Buffer := ⟨4, #[1, 2, 0, 0, 0]⟩
    let p : Buffer := ⟨3, #[0, 1, 0]⟩
    (∃ u, (subProduct .integers p ⟨2, #[3, -1]⟩).run t = .ok () u ∧ u.evaluate 2 = 3) ∧
      (∃ u, (subBufferMultiple .integers p ⟨1, 3⟩).run t = .ok () u ∧ u.evaluate 2 = -7) ∧
      ∃ u, (addTermMultiple (.ofSlots .integers [-1, 0, 1]) ⟨1, 1⟩).run t = .ok () u ∧
        u.evaluate 2 = 11 := by
  intro t p
  obtain ⟨hproduct, -, -, hterm, -⟩ := edits_revalue (t := t) (p := p) (q := ⟨2, #[3, -1]⟩)
    (s := .ofSlots .integers [-1, 0, 1]) (by decide +kernel) (by decide +kernel)
    (by decide +kernel) rfl 2
  obtain ⟨-, -, hbuffer⟩ := hterm ⟨1, 3⟩
  obtain ⟨hadd, -, -⟩ := hterm ⟨1, 1⟩
  obtain ⟨u, hu⟩ := hproduct.succeeds_iff.2 (by decide +kernel)
  obtain ⟨v, hv⟩ := hbuffer.succeeds_iff.2 (by decide +kernel)
  obtain ⟨w, hw⟩ := hadd.succeeds_iff.2 (by decide +kernel)
  exact ⟨⟨u, hu, hproduct.evaluate_eq u hu⟩, ⟨v, hv, hbuffer.evaluate_eq v hv⟩,
    ⟨w, hw, (hadd.evaluate_eq w hw).trans (by decide +kernel)⟩⟩

end Buffer

end Univariate
