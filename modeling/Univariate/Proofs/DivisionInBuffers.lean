import Univariate.Poly.Division
import Univariate.Proofs.DivisionSteps
import Univariate.Proofs.ReductionSteps
import Univariate.Proofs.Remainders
import Univariate.Proofs.SparseArithmetic

/-!
# Divisions of polynomials, in buffers

A division of polynomials is a division of the buffers they are unpacked into, unless the dividend
is of smaller degree than the divisor. So is a reduction.

* `Buffer.Holds` says that a buffer is an unpacked polynomial. It is canonical in the ring of the
  polynomial, and over the integers, where the canonical representatives stand for themselves
  (`Buffer.Holds.canonical`).
* `Poly.exists_run_divide` and `Poly.exists_run_reduce` open a division and a reduction around the
  elimination. Only a degree that leaves no machine word for the number of coefficients stops them
  before it (`Poly.run_divide_overflow`, `Poly.run_reduce_overflow`).
-/

namespace Univariate

open Polynomial

variable {R : CoeffRing} {p d : Poly} {t : Buffer}

/-! ## Unpacked polynomials -/

namespace Buffer

/-- The buffer holds the coefficients of the polynomial, from the constant to the leading one. -/
structure Holds (t : Buffer) (p : Poly) : Prop where
  wellFormed : t.WellFormed
  degree_eq : t.degree = p.degree
  slot_eq : ∀ i, t.slot i = p.coeff i

/-- A buffer holds the polynomial it was constructed from. -/
theorem holds_of_ofPoly {n : Nat} (h : ofPoly n p = .ok t) : t.Holds p := by
  have hwell := (sound_ofPoly (P := True) h).toWellFormed
  obtain ⟨-, hsize, -, hslot⟩ := slots_of_ofPoly h
  exact ⟨hwell, Nat.succ.inj (hwell.degree_add_one.trans hsize), hslot⟩

theorem Holds.image_eq (h : t.Holds p) (R : CoeffRing) : t.image R = p.image R := by
  ext i
  rw [coeff_image, Poly.coeff_image, h.slot_eq]

theorem Holds.leading_eq (h : t.Holds p) : t.leading = p.coeff p.degree := by
  rw [leading, h.slot_eq, h.degree_eq]

theorem Holds.isZero_eq_false (h : t.Holds p) (hz : p.isZero = false) : t.isZero = false := by
  by_contra hzero
  refine Poly.coeff_degree_ne_zero hz ?_
  rw [← h.slot_eq]
  exact h.wellFormed.slot_of_isZero (by simpa using hzero) _

/-- Where its coefficients are canonical, the buffer is: the leading one is not zero. -/
theorem Holds.canonical (h : t.Holds p) (hc : ∀ i, R.contains (p.coeff i) = true) :
    t.Canonical R where
  toWellFormed := h.wellFormed
  contains_slot i := by
    rw [h.slot_eq]
    exact hc i
  normalized := by
    cases hz : p.isZero with
    | true =>
      left
      rw [← h.wellFormed.degree_add_one, h.degree_eq, Poly.degree_of_isZero hz]
    | false =>
      right
      rw [h.leading_eq, CoeffRing.isZero_eq_false_iff]
      exact fun hcast =>
        Poly.coeff_degree_ne_zero hz (CoeffRing.eq_zero_of_cast_eq_zero (hc _) hcast)

theorem Holds.canonical_ring (h : t.Holds p) (hp : p.ring = R) : t.Canonical R :=
  h.canonical (hp ▸ p.contains_coeff)

theorem Holds.canonical_integers (h : t.Holds p) : t.Canonical .integers :=
  h.canonical fun _ => rfl

end Buffer

namespace Poly

theorem exists_toBuffer (hword : p.degree + 1 < degreeBound) :
    ∃ t, p.toBuffer = .ok t ∧ t.Holds p := by
  obtain ⟨t, ht, -⟩ := Buffer.ofPoly_of_lt (Nat.lt_succ_self p.degree)
  exact ⟨t, (toBuffer_eq hword).trans ht, Buffer.holds_of_ofPoly ht⟩

theorem requireDivisor_eq (hp : p.ring = R) (hd : d.ring = R) (hz : d.isZero = false) :
    requireDivisor p d = .ok () := by
  rw [requireDivisor, requireSameRing_eq hp hd, hz]
  rfl

end Poly

/-! ## Fresh buffers -/

/-- Zero buffers of just the capacities that the degrees ask for. -/
def LongDivision.fresh (dividend divisor : Buffer) (trace : Array Event) : LongDivision where
  quotient := ⟨1, .replicate (dividend.degree - divisor.degree + 1) 0⟩
  remainder := ⟨1, .replicate (dividend.degree + 1) 0⟩
  trace := trace

/-- A zero buffer of just the capacity that the degree asks for. -/
def Reduction.fresh (dividend : Buffer) (trace : Array Event) : Reduction where
  reduced := ⟨1, .replicate (dividend.degree + 1) 0⟩
  multiplier := 1
  trace := trace

namespace Buffer

theorem wellFormed_replicate (degree : Nat) :
    (⟨1, .replicate (degree + 1) 0⟩ : Buffer).WellFormed :=
  wellFormed_zero (Nat.le_add_left 1 degree)

theorem capacity_replicate (size capacity : Nat) :
    (⟨size, .replicate capacity 0⟩ : Buffer).capacity = capacity :=
  Array.size_replicate

/-- The fresh buffers of a division have slots for what it writes. -/
theorem room_fresh (dividend divisor : Buffer) (trace : Array Event) :
    (LongDivision.fresh dividend divisor trace).Room dividend divisor := by
  refine ⟨wellFormed_replicate _, ?_, wellFormed_replicate _, ?_⟩
  all_goals
    rw [LongDivision.fresh, capacity_replicate]
    exact Nat.lt_succ_self _

theorem degree_lt_capacity_fresh (dividend : Buffer) (trace : Array Event) :
    dividend.degree < (Reduction.fresh dividend trace).reduced.capacity := by
  rw [Reduction.fresh, capacity_replicate]
  exact Nat.lt_succ_self _

theorem run_divide_fresh {dividend : Buffer} (hword : dividend.degree + 1 < degreeBound)
    (R : CoeffRing) (kind : DivisionKind) (divisor : Buffer) (trace : Array Event) :
    (divide R kind dividend divisor).run trace =
      match (LongDivision.run R kind dividend divisor).run (.fresh dividend divisor trace) with
      | .ok _ s => .ok (s.quotient, s.remainder) s.trace
      | .error e s => .error e s.trace := by
  rw [run_divide, if_pos hword]
  rfl

theorem run_reduce_fresh {dividend : Buffer} (hword : dividend.degree + 1 < degreeBound)
    (divisor : Buffer) (trace : Array Event) :
    (reduce dividend divisor).run trace =
      match (Reduction.run dividend divisor).run (.fresh dividend trace) with
      | .ok a s => .ok (a, s.reduced) s.trace
      | .error e s => .error e s.trace := by
  rw [run_reduce, if_pos hword]
  rfl

end Buffer

namespace Poly

/-! ## Division -/

/-- A dividend of smaller degree is its own remainder. -/
theorem run_divide_of_degree_lt (hp : p.ring = R) (hd : d.ring = R) (hz : d.isZero = false)
    (hlt : p.degree < d.degree) (kind : DivisionKind) (trace : Array Event) :
    (p.divide kind d).run trace = .ok (zero R, p) trace := by
  simp [divide, requireDivisor_eq hp hd hz, hlt, hp, -bind_pure_comp]

theorem run_divide_overflow (hp : p.ring = R) (hd : d.ring = R) (hz : d.isZero = false)
    (hle : d.degree ≤ p.degree) (hword : ¬p.degree + 1 < degreeBound) (kind : DivisionKind)
    (trace : Array Event) :
    (p.divide kind d).run trace = .error (.faulted .degreeOverflow) trace := by
  simp [divide, requireDivisor_eq hp hd hz, not_lt.2 hle, toBuffer_eq_error hword]

/-- Any other division is run on the unpacked polynomials, in fresh buffers. -/
theorem exists_run_divide (hp : p.ring = R) (hd : d.ring = R) (hz : d.isZero = false)
    (hle : d.degree ≤ p.degree) (hword : p.degree + 1 < degreeBound) :
    ∃ dividend divisor : Buffer, dividend.Holds p ∧ divisor.Holds d ∧ ∀ kind trace,
      (p.divide kind d).run trace =
        match (LongDivision.run R kind dividend divisor).run (.fresh dividend divisor trace) with
        | .ok _ s => .ok (s.quotient.toPoly R, s.remainder.toPoly R) s.trace
        | .error e s => .error e s.trace := by
  obtain ⟨dividend, hpb, hdividend⟩ := exists_toBuffer hword
  obtain ⟨divisor, hdb, hdivisor⟩ := exists_toBuffer (p := d) (by omega)
  refine ⟨dividend, divisor, hdividend, hdivisor, fun kind trace => ?_⟩
  simp only [divide, requireDivisor_eq hp hd hz, EStateM.run_bind, Action.run_give_ok,
    if_neg (not_lt.2 hle), hpb, hdb, hp]
  rw [Buffer.run_divide_fresh (hdividend.degree_eq ▸ hword)]
  cases (LongDivision.run R kind dividend divisor).run (.fresh dividend divisor trace) <;> rfl

/-! ## Reduction -/

/-- A dividend of smaller degree is reduced already. -/
theorem run_reduce_of_degree_lt (hp : p.ring = R) (hd : d.ring = R) (hz : d.isZero = false)
    (hlt : p.degree < d.degree) (trace : Array Event) :
    (p.reduce d).run trace = .ok (1, p) trace := by
  simp [reduce, requireDivisor_eq hp hd hz, hlt, -bind_pure_comp]

theorem run_reduce_overflow (hp : p.ring = R) (hd : d.ring = R) (hz : d.isZero = false)
    (hle : d.degree ≤ p.degree) (hword : ¬p.degree + 1 < degreeBound) (trace : Array Event) :
    (p.reduce d).run trace = .error (.faulted .degreeOverflow) trace := by
  simp [reduce, requireDivisor_eq hp hd hz, not_lt.2 hle, toBuffer_eq_error hword]

/-- Any other reduction is run on the unpacked polynomials, in a fresh buffer. -/
theorem exists_run_reduce (hp : p.ring = R) (hd : d.ring = R) (hz : d.isZero = false)
    (hle : d.degree ≤ p.degree) (hword : p.degree + 1 < degreeBound) :
    ∃ dividend divisor : Buffer, dividend.Holds p ∧ divisor.Holds d ∧ ∀ trace,
      (p.reduce d).run trace =
        match (Reduction.run dividend divisor).run (.fresh dividend trace) with
        | .ok a s => .ok (a, s.reduced.toPoly R) s.trace
        | .error e s => .error e s.trace := by
  obtain ⟨dividend, hpb, hdividend⟩ := exists_toBuffer hword
  obtain ⟨divisor, hdb, hdivisor⟩ := exists_toBuffer (p := d) (by omega)
  refine ⟨dividend, divisor, hdividend, hdivisor, fun trace => ?_⟩
  simp only [reduce, requireDivisor_eq hp hd hz, EStateM.run_bind, Action.run_give_ok,
    if_neg (not_lt.2 hle), hpb, hdb, hp]
  rw [Buffer.run_reduce_fresh (hdividend.degree_eq ▸ hword)]
  cases (Reduction.run dividend divisor).run (.fresh dividend trace) <;> rfl

end Poly

end Univariate
