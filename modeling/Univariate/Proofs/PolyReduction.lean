import Mathlib.Data.Nat.Prime.Int
import Univariate.Proofs.DivisionInBuffers
import Univariate.Proofs.ReductionIdentity

/-!
# Reductions of polynomials

A reduction of polynomials over any ring is one over the integers, of the canonical representatives
of their coefficients. Its identity is one over the integers, and carries over to the ring.

* `CoeffRing.residue` takes the integers to the elements of a ring, and the image of a buffer over
  the integers to the one over the ring (`Buffer.map_image`).
* `Buffer.ReducesTo` and `Poly.ReducesTo` say what the outcome of a reduction is to be. Modulo a
  prime, the multiplier is invertible, since it divides a power of the leading coefficient of the
  divisor (`Reduction.Partial.not_prime_dvd_multiplier`).
-/

namespace Univariate

open Polynomial

variable {R : CoeffRing} {p d : Poly} {dividend divisor : Buffer} {a : Int}

/-! ## From the integers to a ring -/

/-- The element that an integer stands for. -/
def CoeffRing.residue (R : CoeffRing) : integers.Element →+* R.Element :=
  ZMod.castHom (dvd_zero R.characteristic) R.Element

theorem Buffer.map_image (R : CoeffRing) (t : Buffer) :
    (t.image .integers).map R.residue = t.image R := by
  ext i
  rw [coeff_map, coeff_image, coeff_image, map_intCast]

theorem CoeffRing.map_residue_zsmul (R : CoeffRing) (n : Int) (f : integers.Element[X]) :
    (n • f).map R.residue = n • f.map R.residue :=
  map_zsmul (mapRingHom R.residue) n f

/-! ## What a reduction is to give -/

/-- A buffer that a multiple of the dividend reduces to: the two differ by a multiple of the
    divisor, over the integers, and the buffer is zero or of smaller degree than the divisor. -/
structure Buffer.ReducesTo (dividend divisor : Buffer) (a : Int) (reduced : Buffer) : Prop where
  multiplier_ne_zero : a ≠ 0
  identity : ∃ q,
    a • dividend.image .integers - reduced.image .integers = q * divisor.image .integers
  isZero_or_degree_lt : reduced.isZero = true ∨ reduced.degree < divisor.degree
  canonical : reduced.Canonical .integers

/-- A polynomial that a multiple of `p` reduces to: the two differ by a multiple of `d`, over the
    ring, and the polynomial is zero or of smaller degree than `d`. Modulo a prime, the multiplier
    is not zero in the ring. -/
structure Poly.ReducesTo (R : CoeffRing) (p d : Poly) (a : Int) (r : Poly) : Prop where
  ring_eq : r.ring = R
  multiplier_ne_zero : a ≠ 0
  identity : ∃ q, a • p.image R - r.image R = q * d.image R
  isZero_or_degree_lt : r.isZero = true ∨ r.degree < d.degree
  not_prime_dvd : R.characteristic.Prime → ¬(R.characteristic : Int) ∣ a

namespace Reduction

variable {total : Nat} {s : Reduction}

theorem Partial.reducesTo (h : Partial dividend divisor total 0 s)
    (hlead : divisor.leading ≠ 0) : dividend.ReducesTo divisor s.multiplier s.reduced where
  multiplier_ne_zero := h.multiplier_ne_zero hlead
  identity := by
    obtain ⟨q, hq⟩ := h.identity
    exact ⟨q, sub_eq_iff_eq_add.2 hq⟩
  isZero_or_degree_lt := h.reduced.isZero_or_degree_lt h.reduced_eq_zero
  canonical := h.reduced

/-- Modulo a prime, the multiplier is not zero if the leading coefficient of the divisor is not. -/
theorem Partial.not_prime_dvd_multiplier (h : Partial dividend divisor total 0 s)
    (hlead : R.isZero divisor.leading = false) (hprime : R.characteristic.Prime) :
    ¬(R.characteristic : Int) ∣ s.multiplier := by
  intro hdvd
  have hpow := hdvd.trans h.multiplier_dvd_pow
  have := (Nat.prime_iff_prime_int.1 hprime).dvd_of_dvd_pow hpow
  exact CoeffRing.isZero_eq_false_iff_not_dvd.1 hlead this

/-- The identity over the integers carries over to every ring. -/
theorem Partial.identity_residue (h : Partial dividend divisor total 0 s) (R : CoeffRing) :
    ∃ q, s.multiplier • dividend.image R - s.reduced.image R = q * divisor.image R := by
  obtain ⟨q, hq⟩ := h.identity
  refine ⟨q.map R.residue, sub_eq_iff_eq_add.2 ?_⟩
  have hmap := congrArg (map R.residue) hq
  rwa [Polynomial.map_add, Polynomial.map_mul, CoeffRing.map_residue_zsmul, Buffer.map_image,
    Buffer.map_image, Buffer.map_image] at hmap

/-- What is reduced over the integers is reduced in every ring. -/
theorem Partial.reducesTo_toPoly (h : Partial dividend divisor total 0 s) (hd : d.ring = R)
    (hz : d.isZero = false) (hp : dividend.Holds p) (hdivisor : divisor.Holds d) :
    p.ReducesTo R d s.multiplier (s.reduced.toPoly R) where
  ring_eq := rfl
  multiplier_ne_zero := h.multiplier_ne_zero
    (hdivisor.canonical_integers.leading_ne_zero (hdivisor.isZero_eq_false hz))
  identity := by
    rw [Buffer.image_toPoly h.reduced.toWellFormed, ← hp.image_eq, ← hdivisor.image_eq]
    exact h.identity_residue R
  isZero_or_degree_lt := by
    rw [← Poly.isRemainder_image_iff (R := R) rfl hd, isRemainder_iff, Poly.natDegree_image hd,
      Buffer.image_toPoly h.reduced.toWellFormed]
    intro i hi
    rw [Buffer.coeff_image, h.reduced_eq_zero i (hdivisor.degree_eq.trans_le hi), Int.cast_zero]
  not_prime_dvd := h.not_prime_dvd_multiplier
    ((hdivisor.canonical_ring hd).isZero_leading (hdivisor.isZero_eq_false hz))

end Reduction

namespace Reduction

/-- A reduction over the integers comes to its end, into whichever buffer. -/
theorem exists_run_reducesTo {s : Reduction} (hp : dividend.Canonical .integers)
    (hd : divisor.Canonical .integers) (hzero : divisor.isZero = false)
    (hdeg : divisor.degree ≤ dividend.degree) (hword : dividend.degree < degreeBound)
    (hr : s.reduced.WellFormed) (hlt : dividend.degree < s.reduced.capacity) :
    ∃ a s', (run dividend divisor).run s = .ok a s' ∧
      dividend.ReducesTo divisor a s'.reduced := by
  obtain ⟨s', hrun, hend⟩ := exists_run_partial hp hd hzero hdeg hword hr hlt
  exact ⟨_, _, hrun, hend.reducesTo (hd.leading_ne_zero hzero)⟩

end Reduction

namespace Poly

/-- What is of smaller degree than the divisor reduces to itself. -/
theorem ReducesTo.refl (hp : p.ring = R) (hlt : p.degree < d.degree) :
    p.ReducesTo R d 1 p where
  ring_eq := hp
  multiplier_ne_zero := one_ne_zero
  identity := ⟨0, by rw [one_smul, sub_self, zero_mul]⟩
  isZero_or_degree_lt := .inr hlt
  not_prime_dvd hprime hdvd := (Nat.prime_iff_prime_int.1 hprime).not_dvd_one hdvd

/-- A reduction of polynomials of no smaller degree is one of the unpacked polynomials, which comes
    to its end. -/
theorem exists_run_reduce_partial (hp : p.ring = R) (hd : d.ring = R) (hz : d.isZero = false)
    (hle : d.degree ≤ p.degree) (hword : p.degree + 1 < degreeBound) (trace : Array Event) :
    ∃ dividend divisor s s', dividend.Holds p ∧ divisor.Holds d ∧
      (Reduction.run dividend divisor).run (.fresh dividend trace) = .ok s.multiplier s' ∧
      Reduction.Partial dividend divisor (dividend.degree - divisor.degree + 1) 0 s ∧
      (p.reduce d).run trace = .ok (s.multiplier, s.reduced.toPoly R) s'.trace := by
  obtain ⟨dividend, divisor, hdividend, hdivisor, hreduce⟩ := exists_run_reduce hp hd hz hle hword
  rw [← hdividend.degree_eq] at hle hword
  rw [← hdivisor.degree_eq] at hle
  obtain ⟨s, hrun, hend⟩ := Reduction.exists_run_partial hdividend.canonical_integers
    hdivisor.canonical_integers (hdivisor.isZero_eq_false hz) hle (by omega)
    (Buffer.wellFormed_replicate _) (Buffer.degree_lt_capacity_fresh dividend trace)
  have hresult := hreduce trace
  rw [hrun] at hresult
  exact ⟨dividend, divisor, s, _, hdividend, hdivisor, hrun, hend, hresult⟩

/-- A reduction of polynomials comes to its end, in every ring. -/
theorem exists_run_reducesTo (hp : p.ring = R) (hd : d.ring = R) (hz : d.isZero = false)
    (hword : d.degree ≤ p.degree → p.degree + 1 < degreeBound) (trace : Array Event) :
    ∃ a r trace', (p.reduce d).run trace = .ok (a, r) trace' ∧ p.ReducesTo R d a r := by
  rcases Nat.lt_or_ge p.degree d.degree with hlt | hle
  · exact ⟨1, p, trace, run_reduce_of_degree_lt hp hd hz hlt trace, .refl hp hlt⟩
  · obtain ⟨dividend, divisor, s, s', hdividend, hdivisor, -, hend, hresult⟩ :=
      exists_run_reduce_partial hp hd hz hle (hword hle) trace
    exact ⟨_, _, _, hresult, hend.reducesTo_toPoly hd hz hdividend hdivisor⟩

/-- A reduction over the integers into a buffer, and a reduction of polynomials over any ring, come
    to their end with a multiplier and with what that multiple of the dividend reduces to. For
    polynomials, the number of coefficients of a dividend that is not reduced already has to be a
    machine word. -/
theorem reduction_identity :
    (∀ {dividend divisor : Buffer} {s : Reduction}, dividend.Canonical .integers →
        divisor.Canonical .integers → divisor.isZero = false → divisor.degree ≤ dividend.degree →
        dividend.degree < degreeBound → s.reduced.WellFormed →
        dividend.degree < s.reduced.capacity →
        ∃ a s', (Reduction.run dividend divisor).run s = .ok a s' ∧
          dividend.ReducesTo divisor a s'.reduced) ∧
      ∀ {R : CoeffRing} {p d : Poly}, p.ring = R → d.ring = R → d.isZero = false →
        (d.degree ≤ p.degree → p.degree + 1 < degreeBound) → ∀ trace,
        ∃ a r trace', (p.reduce d).run trace = .ok (a, r) trace' ∧ p.ReducesTo R d a r :=
  ⟨Reduction.exists_run_reducesTo, exists_run_reducesTo⟩

/-- By `2 x + 1`, the multiple `-4 * (3 x ^ 2 + 1)` reduces to `-7`, which is zero modulo `7`. -/
theorem reduction_identity_seven :
    let R : CoeffRing := .modular 7 true (by decide)
    (∃ a s', (Reduction.run ⟨3, #[1, 0, 3]⟩ ⟨2, #[1, 2]⟩).run ⟨⟨1, #[0, 0, 0]⟩, 1, #[]⟩ =
        .ok a s' ∧ (⟨3, #[1, 0, 3]⟩ : Buffer).ReducesTo ⟨2, #[1, 2]⟩ a s'.reduced) ∧
      (ofSlots R [1, 0, 3]).ReducesTo R (ofSlots R [1, 2]) (-4) (zero R) := by
  intro R
  obtain ⟨hbuffers, hpolys⟩ := reduction_identity
  refine ⟨hbuffers (by decide +kernel) (by decide +kernel) (by decide) (by decide) (by decide)
    (by decide +kernel) (by decide), ?_⟩
  obtain ⟨a, r, trace', hrun, hreduces⟩ := hpolys (R := R) (p := ofSlots R [1, 0, 3])
    (d := ofSlots R [1, 2]) rfl rfl (by decide +kernel) (fun _ => by decide +kernel) #[]
  have hvalue : ((ofSlots R [1, 0, 3]).reduce (ofSlots R [1, 2])).run' #[] =
      some (-4, zero R) := by
    decide +kernel
  rw [Action.run'_of_run_ok hrun] at hvalue
  obtain ⟨rfl, rfl⟩ := Prod.mk.inj (Option.some.inj hvalue)
  exact hreduces

/-- The power of `x` with the highest exponent does not reduce by one, although one is not zero and
    not of higher degree: its coefficients are more than a machine word can count. -/
theorem not_exists_run_reduce_highestPower :
    (const .integers 1).isZero = false ∧
      (const .integers 1).degree ≤ (highestPower .integers).degree ∧
      ¬∃ a r trace',
        ((highestPower .integers).reduce (const .integers 1)).run #[] = .ok (a, r) trace' ∧
        (highestPower .integers).ReducesTo .integers (const .integers 1) a r := by
  have hdivisor : (const .integers 1).isZero = false := by decide
  have hle : (const .integers 1).degree ≤ (highestPower .integers).degree := by decide
  refine ⟨hdivisor, hle, ?_⟩
  rintro ⟨a, r, trace', hrun, -⟩
  rw [run_reduce_overflow (p := highestPower .integers) (d := const .integers 1) rfl rfl hdivisor
    hle not_degree_highestPower_lt] at hrun
  cases hrun

end Poly

end Univariate
