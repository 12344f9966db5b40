import Univariate.Proofs.DivisionAgreement
import Univariate.Proofs.PolyReduction

/-!
# Pseudo-division commutes with residues

The pseudo-division of two polynomials over the integers, taken modulo `m`, is the pseudo-division
of what the two are modulo `m`, as long as neither loses its leading coefficient. This does not
follow from the identities of the two divisions: for a composite `m`, a dividend may have several
quotients.

* `LongDivision.Congruent` relates a division over the integers and one over a ring step by step:
  what they have come to has the same image over the ring. The division over the ring may pass over
  a coefficient that the other eliminates, and its buffers may be trimmed further.
* `Poly.inRing` is a polynomial over another ring, by its list of coefficients. It has the image of
  the polynomial there (`Poly.image_of_inRing`), and its degree if the leading coefficient does not
  vanish (`Poly.degree_of_inRing`).
-/

namespace Univariate

open Polynomial

variable {R : CoeffRing}

namespace LongDivision

variable {dividend divisor dividend' divisor' : Buffer} {shift count total : Nat}
  {s t : LongDivision}

/-- The step of a pseudo-division over the integers, seen in a ring. -/
theorem map_image_pseudoStepped (R : CoeffRing) (hd : divisor.WellFormed)
    (hfits : s.Fits divisor shift) (hslot : s.quotient.slot shift = 0)
    (hr : s.remainder.WellFormed) :
    let b : R.Element := divisor.leading
    let c : R.Element := s.remainder.slot (divisor.degree + shift)
    (s.pseudoStepped .integers divisor shift).quotient.image R =
        s.quotient.image R + monomial shift (c * b ^ shift) ∧
      (s.pseudoStepped .integers divisor shift).remainder.image R =
        C b * s.remainder.image R - monomial shift c * divisor.image R := by
  intro b c
  obtain ⟨hquotient, hremainder⟩ := image_pseudoStepped (R := .integers) hd hfits hslot hr
  constructor
  · rw [← Buffer.map_image, hquotient, Polynomial.map_add, Buffer.map_image, map_monomial, map_mul,
      map_pow, map_intCast R.residue, map_intCast R.residue]
  · rw [← Buffer.map_image, hremainder, Polynomial.map_sub, Polynomial.map_mul, Polynomial.map_mul,
      Buffer.map_image, Buffer.map_image, map_C, map_monomial, map_intCast R.residue,
      map_intCast R.residue]

/-- A pseudo-division over the integers that has come to `s`, and one over the ring that has come to
    `t`, after the same steps of `total`, with `count` still to come. -/
structure Congruent (R : CoeffRing) (dividend divisor dividend' divisor' : Buffer)
    (total count : Nat) (s t : LongDivision) : Prop where
  integers : Partial .integers dividend divisor (Int.cast divisor.leading ^ total)
    (Int.cast divisor.leading ^ count) count s
  ring : Partial R dividend' divisor' (Int.cast divisor'.leading ^ total)
    (Int.cast divisor'.leading ^ count) count t
  quotient : t.quotient.image R = s.quotient.image R
  remainder : t.remainder.image R = s.remainder.image R

/-- A step of each keeps them congruent. -/
theorem Congruent.pseudoStepped
    (h : Congruent R dividend divisor dividend' divisor' total (shift + 1) s t)
    (hd : divisor.WellFormed) (hd' : divisor'.WellFormed)
    (hdegree : divisor'.degree = divisor.degree)
    (himage : divisor'.image R = divisor.image R) (hfits : s.Fits divisor shift)
    (hfits' : t.Fits divisor' shift) :
    Congruent R dividend divisor dividend' divisor' total shift
      (s.pseudoStepped .integers divisor shift) (t.pseudoStepped R divisor' shift) := by
  have hlast := Nat.lt_succ_self shift
  obtain ⟨hquotient, hremainder⟩ := map_image_pseudoStepped R hd hfits
    (h.integers.quotient_eq_zero shift hlast) h.integers.remainder.toWellFormed
  obtain ⟨hquotient', hremainder'⟩ := image_pseudoStepped hd' hfits'
    (h.ring.quotient_eq_zero shift hlast) h.ring.remainder.toWellFormed
  -- Both multiply with the same element, and eliminate the same.
  have hlead : (divisor'.leading : R.Element) = divisor.leading := by
    rw [Buffer.leading, Buffer.leading, ← Buffer.coeff_image, ← Buffer.coeff_image, himage, hdegree]
  have hcoeff : (t.remainder.slot (divisor'.degree + shift) : R.Element) =
      s.remainder.slot (divisor.degree + shift) := by
    rw [← Buffer.coeff_image, ← Buffer.coeff_image, h.remainder, hdegree]
  refine ⟨h.integers.pseudoStepped hd hfits, h.ring.pseudoStepped hd' hfits', ?_, ?_⟩
  · rw [hquotient, hquotient', h.quotient, hlead, hcoeff]
  · rw [hremainder, hremainder', h.remainder, himage, hlead, hcoeff]

/-- So do all steps, which come to their end in both. -/
theorem Congruent.exists_run_steps
    (h : Congruent R dividend divisor dividend' divisor' total count s t)
    (hd : divisor.WellFormed) (hd' : divisor'.WellFormed)
    (hdegree : divisor'.degree = divisor.degree) (himage : divisor'.image R = divisor.image R)
    (hlead : CoeffRing.integers.isZero divisor.leading = false)
    (hlead' : R.isZero divisor'.leading = false)
    (hfits : ∀ shift < count, s.Fits divisor shift)
    (hfits' : ∀ shift < count, t.Fits divisor' shift) :
    ∃ s₁ t₁, (steps .integers .pseudo divisor count).run s = .ok () s₁ ∧
      (steps R .pseudo divisor' count).run t = .ok () t₁ ∧
      Congruent R dividend divisor dividend' divisor' total 0 s₁ t₁ := by
  induction count generalizing s t with
  | zero => exact ⟨s, t, rfl, rfl, h⟩
  | succ shift ih =>
    have hlast := hfits shift (Nat.lt_succ_self shift)
    have hlast' := hfits' shift (Nat.lt_succ_self shift)
    rw [run_steps_succ, run_steps_succ, step, step, run_pseudoStep hlast hlead,
      run_pseudoStep hlast' hlead']
    refine ih (h.pseudoStepped hd hd' hdegree himage hlast hlast')
      (fun k hk => ?_) fun k hk => ?_
    · exact (hfits k (Nat.lt_succ_of_lt hk)).mono le_rfl (capacity_quotient_pseudoStepped ..)
        (capacity_remainder_pseudoStepped ..)
    · exact (hfits' k (Nat.lt_succ_of_lt hk)).mono le_rfl (capacity_quotient_pseudoStepped ..)
        (capacity_remainder_pseudoStepped ..)

/-- At their end, the quotients and the remainders have the same images over the ring. Over the
    integers, neither has a larger degree than the dividend. -/
theorem Congruent.finished (h : Congruent R dividend divisor dividend' divisor' total 0 s t)
    (hp : dividend.Canonical .integers) (hd : divisor.Canonical .integers)
    (hzero : divisor.isZero = false) (hdeg : divisor.degree ≤ dividend.degree) :
    ((t.finished R).quotient.image R = (s.finished .integers).quotient.image R ∧
        ((s.finished .integers).quotient.image .integers).natDegree ≤ dividend.degree) ∧
      (t.finished R).remainder.image R = (s.finished .integers).remainder.image R ∧
        ((s.finished .integers).remainder.image .integers).natDegree ≤ dividend.degree := by
  have hintegers := h.integers
  rw [pow_zero] at hintegers
  obtain ⟨hidentity, hlt, -, hremainder⟩ := hintegers.finished
  have hisRemainder := hremainder.isRemainder_image hd hlt
  refine ⟨⟨?_, ?_⟩, h.remainder, ?_⟩
  · change (t.quotient.trim R).image R = (s.quotient.trim .integers).image R
    rw [Buffer.image_trim, h.quotient, ← Buffer.map_image R s.quotient,
      ← Buffer.map_image R (s.quotient.trim _), Buffer.image_trim]
  · rw [← hp.natDegree_image]
    exact (natDegree_le_of_eq_mul_add (hd.leadingCoeff_mem_nonZeroDivisors hzero) hidentity
      hisRemainder).trans (natDegree_C_mul_le _ _)
  · refine (hisRemainder.natDegree_le).trans ?_
    rwa [hd.natDegree_image]

/-- Two pseudo-divisions, one over the integers and one over the ring, of operands with the same
    degrees and with the same images over the ring, end with the same images. -/
theorem exists_run_congruent (hp : dividend.Canonical .integers) (hp' : dividend'.Canonical R)
    (hd : divisor.Canonical .integers) (hd' : divisor'.Canonical R)
    (hzero : divisor.isZero = false) (hzero' : divisor'.isZero = false)
    (hpdeg : dividend'.degree = dividend.degree) (hddeg : divisor'.degree = divisor.degree)
    (hpimage : dividend'.image R = dividend.image R)
    (hdimage : divisor'.image R = divisor.image R) (hdeg : divisor.degree ≤ dividend.degree)
    (hword : dividend.degree < degreeBound) (hs : s.Room dividend divisor)
    (ht : t.Room dividend' divisor') :
    ∃ s₁ t₁, (run .integers .pseudo dividend divisor).run s = .ok () (s₁.finished .integers) ∧
      (run R .pseudo dividend' divisor').run t = .ok () (t₁.finished R) ∧
      Congruent R dividend divisor dividend' divisor' (dividend.degree - divisor.degree + 1) 0
        s₁ t₁ := by
  have hdeg' : divisor'.degree ≤ dividend'.degree := by omega
  have hword' : dividend'.degree < degreeBound := by omega
  have hcount : dividend'.degree - divisor'.degree + 1 = dividend.degree - divisor.degree + 1 := by
    rw [hpdeg, hddeg]
  have hstart : Congruent R dividend divisor dividend' divisor'
      (dividend.degree - divisor.degree + 1) (dividend.degree - divisor.degree + 1)
      (s.started .integers .pseudo dividend divisor) (t.started R .pseudo dividend' divisor') := by
    refine ⟨.started .pseudo _ hp hdeg hs.quotient hs.remainder hs.degree_lt_remainder, ?_, ?_, ?_⟩
    · have := Partial.started (s := t) .pseudo (Int.cast divisor'.leading ^
        (dividend'.degree - divisor'.degree + 1)) hp' hdeg' ht.quotient ht.remainder
        ht.degree_lt_remainder
      rwa [hcount] at this
    · change t.quotient.clear.image R = s.quotient.clear.image R
      rw [Buffer.image_clear hs.quotient, Buffer.image_clear ht.quotient]
    · change (t.remainder.copied dividend').image R = (s.remainder.copied dividend).image R
      rw [Buffer.image_copied hs.remainder hp.toWellFormed hs.degree_lt_remainder,
        Buffer.image_copied ht.remainder hp'.toWellFormed ht.degree_lt_remainder, hpimage]
  have hfits' : ∀ shift < dividend'.degree - divisor'.degree + 1,
      (t.started R .pseudo dividend' divisor').Fits divisor' shift :=
    ht.fits hzero' hdeg' hword'
  rw [hcount] at hfits'
  obtain ⟨s₁, t₁, hsteps, hsteps', hend⟩ := hstart.exists_run_steps hd.toWellFormed hd'.toWellFormed
    hddeg hdimage (hd.isZero_leading hzero) (hd'.isZero_leading hzero')
    (hs.fits hzero hdeg hword) hfits'
  refine ⟨s₁, t₁, ?_, ?_, hend⟩
  · rw [hs.run_eq hzero hdeg, hsteps]
  · rw [ht.run_eq hzero' hdeg', hcount, hsteps']

end LongDivision

namespace Poly

variable {p d q r p' d' : Poly} {trace trace' : Array Event}

/-! ## Polynomials over another ring -/

/-- The polynomial with the same coefficients over another ring. -/
def inRing (R : CoeffRing) (p : Poly) : Except Failure Poly := do
  ofCoefficients R (← p.toCoefficients)

/-- It has the same image there. -/
theorem inRing_eq (R : CoeffRing) (hword : p.degree + 1 < degreeBound) :
    p.inRing R = .ok (representing R (p.image R)) := by
  rw [inRing, toCoefficients_eq hword, ok_bind, ofCoefficients, if_neg (by simp),
    ofSlots_coefficients]

theorem degree_lt_of_inRing (h : p.inRing R = .ok p') : p.degree + 1 < degreeBound := by
  by_contra hword
  rw [inRing, toCoefficients_eq_error hword] at h
  cases h

theorem image_of_inRing (h : p.inRing R = .ok p') : p'.ring = R ∧ p'.image R = p.image R := by
  rw [inRing_eq R (degree_lt_of_inRing h)] at h
  obtain rfl := Except.ok.inj h
  exact ⟨rfl, image_representing R _⟩

theorem map_image (R : CoeffRing) (p : Poly) :
    (p.image .integers).map R.residue = p.image R := by
  ext i
  rw [coeff_map, coeff_image, coeff_image, map_intCast]

/-- A polynomial that does not lose its leading coefficient over the ring keeps its degree. -/
theorem degree_of_inRing (h : p.inRing R = .ok p')
    (hlead : p.isZero = false → R.isZero (p.coeff p.degree) = false) : p'.degree = p.degree := by
  obtain ⟨hring, himage⟩ := image_of_inRing h
  rw [← natDegree_image hring, himage]
  cases hz : p.isZero with
  | true => rw [image_of_isZero R hz, degree_of_isZero hz, natDegree_zero]
  | false =>
    refine natDegree_eq_of_le_of_coeff_ne_zero (natDegree_le_iff_coeff_eq_zero.2 fun i hi => ?_) ?_
    · rw [coeff_image, coeff_eq_zero_of_degree_lt hi, Int.cast_zero]
    · rw [coeff_image]
      exact CoeffRing.isZero_eq_false_iff.1 (hlead hz)

/-- It is not zero there. -/
theorem isZero_of_inRing (h : p.inRing R = .ok p') (hlead : R.isZero (p.coeff p.degree) = false) :
    p'.isZero = false := by
  by_contra hzero
  have himage := image_of_isZero R (Bool.not_eq_false _ ▸ hzero)
  rw [(image_of_inRing h).2] at himage
  rw [CoeffRing.isZero_eq_false_iff, ← coeff_image, himage, coeff_zero] at hlead
  exact hlead rfl

/-- Packed over the integers, a buffer has over the ring what a buffer with its image packs to. -/
theorem inRing_toPoly {t u : Buffer} (ht : t.WellFormed) (hu : u.WellFormed)
    (himage : u.image R = t.image R) (hword : (t.image .integers).natDegree + 1 < degreeBound) :
    (t.toPoly .integers).inRing R = .ok (u.toPoly R) := by
  have hinteger : (t.toPoly .integers).image .integers = t.image .integers := Buffer.image_toPoly ht
  have hdegree : (t.toPoly .integers).degree = (t.image .integers).natDegree := by
    rw [← natDegree_image (R := .integers) rfl, hinteger]
  rw [inRing_eq R (hdegree ▸ hword), ← map_image, hinteger, Buffer.map_image, ← himage,
    Buffer.toPoly_eq_representing hu]

/-! ## Division -/

/-- The coefficients of a dividend can be listed, if those of the divisor can and the division
    ends. -/
theorem degree_lt_of_run_divide (hp : p.ring = R) (hd : d.ring = R) (hz : d.isZero = false)
    (hdword : d.degree + 1 < degreeBound) {kind : DivisionKind}
    (hrun : (p.divide kind d).run trace = .ok (q, r) trace') : p.degree + 1 < degreeBound := by
  rcases Nat.lt_or_ge p.degree d.degree with hlt | hle
  · omega
  · by_contra hword
    rw [run_divide_overflow hp hd hz hle hword] at hrun
    cases hrun

/-- A pseudo-division over the integers, seen in a ring in which neither leading coefficient
    vanishes, is a pseudo-division there. -/
theorem exists_dividePseudo_inRing (hp : p.ring = .integers) (hd : d.ring = .integers)
    (hz : d.isZero = false) (hplead : p.isZero = false → R.isZero (p.coeff p.degree) = false)
    (hdlead : R.isZero (d.coeff d.degree) = false) (hp' : p.inRing R = .ok p')
    (hd' : d.inRing R = .ok d') (hrun : (p.divide .pseudo d).run trace = .ok (q, r) trace')
    (start : Array Event) :
    ∃ q' r' finish, q.inRing R = .ok q' ∧ r.inRing R = .ok r' ∧
      (p'.divide .pseudo d').run start = .ok (q', r') finish := by
  obtain ⟨hpring, hpimage⟩ := image_of_inRing hp'
  obtain ⟨hdring, hdimage⟩ := image_of_inRing hd'
  have hpword := degree_lt_of_inRing hp'
  have hpdeg := degree_of_inRing hp' hplead
  have hddeg := degree_of_inRing hd' fun _ => hdlead
  have hz' := isZero_of_inRing hd' hdlead
  rcases Nat.lt_or_ge p.degree d.degree with hlt | hle
  · -- No elimination is run, neither over the integers nor over the ring.
    rw [run_divide_of_degree_lt hp hd hz hlt] at hrun
    cases hrun
    refine ⟨zero R, p', start, ?_, hp', ?_⟩
    · rw [inRing_eq R (show (zero .integers).degree + 1 < degreeBound by decide),
        image_of_isZero R rfl, representing_zero]
    · exact run_divide_of_degree_lt hpring hdring hz' (by omega) .pseudo start
  · obtain ⟨dividend, divisor, hdividend, hdivisor, hdivide⟩ :=
      exists_run_divide hp hd hz hle hpword
    obtain ⟨dividend', divisor', hdividend', hdivisor', hdivide'⟩ :=
      exists_run_divide hpring hdring hz' (by omega) (by omega)
    have hpdegree := hdividend.degree_eq
    have hddegree := hdivisor.degree_eq
    have hpcanonical := hdividend.canonical_ring hp
    have hdcanonical := hdivisor.canonical_ring hd
    have hzero := hdivisor.isZero_eq_false hz
    obtain ⟨s₁, t₁, hs, ht, hend⟩ := LongDivision.exists_run_congruent hpcanonical
      (hdividend'.canonical_ring hpring) hdcanonical (hdivisor'.canonical_ring hdring) hzero
      (hdivisor'.isZero_eq_false hz') (by rw [hdividend'.degree_eq, hpdeg, hpdegree])
      (by rw [hdivisor'.degree_eq, hddeg, hddegree])
      (by rw [hdividend'.image_eq, hpimage, hdividend.image_eq])
      (by rw [hdivisor'.image_eq, hdimage, hdivisor.image_eq]) (by omega) (by omega)
      (Buffer.room_fresh dividend divisor trace) (Buffer.room_fresh dividend' divisor' start)
    obtain ⟨⟨hquotient, hqdeg⟩, hremainder, hrdeg⟩ :=
      hend.finished hpcanonical hdcanonical hzero (by omega)
    have hresult := hdivide' .pseudo start
    rw [hdivide, hs] at hrun
    rw [ht] at hresult
    cases hrun
    refine ⟨_, _, _, inRing_toPoly (hend.integers.quotient.trim _) (hend.ring.quotient.trim R)
      hquotient ?_, inRing_toPoly hend.integers.remainder.toWellFormed
      hend.ring.remainder.toWellFormed hremainder ?_, hresult⟩ <;> omega

/-- Where neither of two polynomials over the integers loses its leading coefficient modulo `m`, the
    pseudo-division of what they are modulo `m` gives what their quotient and their remainder are
    modulo `m`. -/
theorem dividePseudo_inRing {m : Nat} {prime : Bool} (hm : 2 ≤ m) (hp : p.ring = .integers)
    (hd : d.ring = .integers) (hz : d.isZero = false)
    (hplead : ∀ a, p.leading? = some a → ¬(m : Int) ∣ a)
    (hdlead : ∀ b, d.leading? = some b → ¬(m : Int) ∣ b)
    (hd' : d.inRing (.modular m prime hm) = .ok d')
    (hrun : (p.divide .pseudo d).run trace = .ok (q, r) trace') (start : Array Event) :
    ∃ p' q' r' finish, p.inRing (.modular m prime hm) = .ok p' ∧
      q.inRing (.modular m prime hm) = .ok q' ∧ r.inRing (.modular m prime hm) = .ok r' ∧
      (p'.divide .pseudo d').run start = .ok (q', r') finish := by
  have hp' := inRing_eq (.modular m prime hm)
    (degree_lt_of_run_divide hp hd hz (degree_lt_of_inRing hd') hrun)
  have hpvanish : p.isZero = false →
      (CoeffRing.modular m prime hm).isZero (p.coeff p.degree) = false := fun hz =>
    CoeffRing.isZero_eq_false_iff_not_dvd.2 (hplead _ (leading?_eq_some_iff.2 ⟨hz, rfl⟩))
  have hdvanish : (CoeffRing.modular m prime hm).isZero (d.coeff d.degree) = false :=
    CoeffRing.isZero_eq_false_iff_not_dvd.2 (hdlead _ (leading?_eq_some_iff.2 ⟨hz, rfl⟩))
  obtain ⟨q', r', finish, hq', hr', hfinish⟩ :=
    exists_dividePseudo_inRing hp hd hz hpvanish hdvanish hp' hd' hrun start
  exact ⟨_, q', r', finish, hp', hq', hr', hfinish⟩

/-- Over the integers, the pseudo-division of `3 x ^ 2 + 1` by `2 x + 2` gives `6 x - 6` and leaves
    `16`. Modulo `4`, where `2` divides zero, it gives `2 x + 2` and leaves nothing. -/
theorem dividePseudo_inRing_four :
    let R : CoeffRing := .modular 4 false (by decide)
    (∃ trace, ((ofSlots .integers [1, 0, 3]).divide .pseudo (ofSlots .integers [2, 2])).run #[] =
        .ok (ofSlots .integers [-6, 6], ofSlots .integers [16]) trace) ∧
      (ofSlots .integers [-6, 6]).inRing R = .ok (ofSlots R [2, 2]) ∧
      (ofSlots .integers [16]).inRing R = .ok (zero R) ∧
      ∃ trace, ((ofSlots R [1, 0, 3]).divide .pseudo (ofSlots R [2, 2])).run #[] =
        .ok (ofSlots R [2, 2], zero R) trace := by
  intro R
  have hvalue : ((ofSlots .integers [1, 0, 3]).divide .pseudo (ofSlots .integers [2, 2])).run' #[] =
      some (ofSlots .integers [-6, 6], ofSlots .integers [16]) := by
    decide +kernel
  have hquotient : (ofSlots .integers [-6, 6]).inRing R = .ok (ofSlots R [2, 2]) := by
    decide +kernel
  have hremainder : (ofSlots .integers [16]).inRing R = .ok (zero R) := by
    decide +kernel
  have hp : (ofSlots .integers [1, 0, 3]).inRing R = .ok (ofSlots R [1, 0, 3]) := by
    decide +kernel
  have hd : (ofSlots .integers [2, 2]).inRing R = .ok (ofSlots R [2, 2]) := by
    decide +kernel
  have hplead : (ofSlots .integers [1, 0, 3]).leading? = some 3 := by
    decide +kernel
  have hdlead : (ofSlots .integers [2, 2]).leading? = some 2 := by
    decide +kernel
  obtain ⟨trace, hrun⟩ := Action.exists_run_of_run' hvalue
  obtain ⟨p', q', r', finish, hp', hq, hr, hfinish⟩ := dividePseudo_inRing (by decide) rfl rfl
    (by decide +kernel)
    (fun a ha => by rw [hplead] at ha; obtain rfl := Option.some.inj ha; decide)
    (fun b hb => by rw [hdlead] at hb; obtain rfl := Option.some.inj hb; decide) hd hrun #[]
  rw [hp] at hp'
  rw [hquotient] at hq
  rw [hremainder] at hr
  obtain rfl := Except.ok.inj hp'
  obtain rfl := Except.ok.inj hq
  obtain rfl := Except.ok.inj hr
  exact ⟨⟨trace, hrun⟩, hquotient, hremainder, finish, hfinish⟩

end Poly

end Univariate
