import Univariate.Proofs.DivisionInBuffers

/-!
# Unpacking and packing back

A polynomial and the buffers it is unpacked into determine each other, and so do a polynomial and
the list of its coefficients.

* Unpacking writes the coefficients up to the degree, the zeros among them too, and nothing else
  (`Poly.Unpacked`). What the slots held before does not matter.
* The coefficients of a buffer that holds a polynomial are those that the polynomial lists
  (`Buffer.Holds.coefficients_eq`), and packing them gives the polynomial back
  (`Poly.ofSlots_coefficients`).
* Packing a canonical buffer does not lower the degree, so what has room for the buffer has room
  for the polynomial (`Buffer.Canonical.degree_toPoly`), and comes to hold the same coefficients.
-/

namespace Univariate

variable {R : CoeffRing} {p : Poly} {t : Buffer} {n : Nat}

namespace Poly

/-! ## Unpacking -/

/-- What unpacking `p` makes of an array: its first slots hold the coefficients, and the slots past
    the degree are as they were. -/
structure Unpacked (p : Poly) (slots slots' : Array Int) : Prop where
  size_eq : slots'.size = slots.size
  written : ∀ i ≤ p.degree, slots'[i]? = some (p.coeff i)
  untouched : ∀ i, p.degree < i → slots'[i]? = slots[i]?

theorem exists_run_unpack {slots : Array Int} (h : p.degree < slots.size) :
    ∃ slots', p.unpack.run slots = .ok () slots' ∧ p.Unpacked slots slots' := by
  refine ⟨slots.mapIdx fun i c => if i ≤ p.degree then p.coeff i else c, ?_, ?_, fun i hi => ?_,
    fun i hi => ?_⟩
  · rw [run_unpack, if_neg (Nat.not_le.2 h), scatter_cleared]
  · exact Array.size_mapIdx
  · rw [Array.getElem?_mapIdx, Array.getElem?_eq_getElem (hi.trans_lt h), Option.map_some,
      if_pos hi]
  · rw [Array.getElem?_mapIdx]
    simp only [if_neg (Nat.not_le.2 hi), Option.map_id']

end Poly

/-! ## Buffers -/

namespace Buffer

theorem exists_ofPoly_iff : (∃ t, ofPoly n p = .ok t) ↔ p.degree < n := by
  refine ⟨fun ⟨t, ht⟩ => (slots_of_ofPoly ht).1, fun h => ?_⟩
  obtain ⟨t, ht, -⟩ := ofPoly_of_lt h
  exact ⟨t, ht⟩

theorem Holds.coefficients_eq (h : t.Holds p) :
    t.coefficients = (List.range (p.degree + 1)).map p.coeff := by
  rw [h.wellFormed.coefficients_eq, ← h.wellFormed.degree_add_one, h.degree_eq]
  exact List.map_congr_left fun i _ => h.slot_eq i

theorem Holds.toPoly_eq (h : t.Holds p) (hp : p.ring = R) : t.toPoly R = p := by
  rw [toPoly, h.coefficients_eq, Poly.ofSlots_coefficients, Poly.representing_image hp]

theorem Canonical.degree_toPoly (h : t.Canonical R) : (t.toPoly R).degree = t.degree := by
  rw [← Poly.natDegree_image (R := R) rfl, image_toPoly h.toWellFormed, h.natDegree_image]

/-- A packed canonical buffer is unpacked to one with the same coefficients. -/
theorem Canonical.exists_ofPoly_toPoly (h : t.Canonical R) (hn : t.degree < n) :
    ∃ u, ofPoly n (t.toPoly R) = .ok u ∧ u.sameCoefficients t = true := by
  obtain ⟨u, hu⟩ := exists_ofPoly_iff.2 (h.degree_toPoly.trans_lt hn)
  have hholds := holds_of_ofPoly hu
  have hcanonical : u.Canonical R := hholds.canonical_ring rfl
  refine ⟨u, hu, (hcanonical.sameCoefficients_iff h).2 ?_⟩
  rw [hholds.image_eq, image_toPoly h.toWellFormed]

end Buffer

namespace Poly

/-- In every ring, a polynomial is unpacked into the buffers of a capacity above its degree, and into
    no others; packing gives the polynomial back, and the buffer has the coefficients that the
    polynomial lists. A canonical buffer has the coefficients of any buffer that its packed
    polynomial is unpacked into. The listed coefficients give the polynomial back, if a machine
    word counts them. Unpacking into an array writes the slots up to the degree, and no others. -/
theorem unpack_inverts (hp : p.ring = R) :
    (∀ n, (∃ t, Buffer.ofPoly n p = .ok t) ↔ p.degree < n) ∧
      (∀ n < degreeBound, ∀ t, Buffer.ofPoly n p = .ok t →
        t.toPoly R = p ∧ p.toCoefficients = .ok t.coefficients) ∧
      (∀ t : Buffer, t.Canonical R → ∀ n, t.degree < n →
        ∃ u, Buffer.ofPoly n (t.toPoly R) = .ok u ∧ u.sameCoefficients t = true) ∧
      (p.degree + 1 < degreeBound →
        ∃ cs, p.toCoefficients = .ok cs ∧ ofCoefficients R cs = .ok p) ∧
      ∀ slots : Array Int, p.degree < slots.size →
        ∃ slots', p.unpack.run slots = .ok () slots' ∧ p.Unpacked slots slots' := by
  refine ⟨fun n => Buffer.exists_ofPoly_iff, fun n hn t ht => ?_,
    fun t ht n => ht.exists_ofPoly_toPoly, fun hword => ?_, fun slots => exists_run_unpack⟩
  · have hholds := Buffer.holds_of_ofPoly ht
    have hlt := Buffer.exists_ofPoly_iff.1 ⟨t, ht⟩
    exact ⟨hholds.toPoly_eq hp, by rw [toCoefficients_eq (by omega), hholds.coefficients_eq]⟩
  · refine ⟨_, toCoefficients_eq hword, ?_⟩
    rw [ofCoefficients, if_neg (by simp), ofSlots_coefficients, representing_image hp]

/-- Modulo `6`, the polynomial `2 - 3 * x ^ 3` goes into six slots and back, and unpacking it
    overwrites four slots. -/
theorem unpack_inverts_six :
    let R : CoeffRing := .modular 6 false (by decide)
    let p := ofSlots R [2, 0, 0, 3]
    (∃ t, Buffer.ofPoly 6 p = .ok t ∧ t.toPoly R = p ∧ p.toCoefficients = .ok t.coefficients) ∧
      (∃ cs, p.toCoefficients = .ok cs ∧ ofCoefficients R cs = .ok p) ∧
      ∃ slots', p.unpack.run #[7, 7, 7, 7, 7] = .ok () slots' ∧ slots'[3]? = some (-3) ∧
        slots'[4]? = some 7 := by
  intro R p
  obtain ⟨hfits, hback, -, hlisted, hunpacked⟩ := unpack_inverts (p := p) (R := R) rfl
  obtain ⟨t, ht⟩ := (hfits 6).2 (by decide)
  obtain ⟨slots', hrun, h⟩ := hunpacked #[7, 7, 7, 7, 7] (by decide)
  exact ⟨⟨t, ht, hback 6 (by decide) t ht⟩, hlisted (by decide), slots', hrun,
    h.written 3 (by decide), h.untouched 4 (by decide)⟩

/-- No machine word counts the coefficients of the highest power, so that listing them faults. -/
theorem toCoefficients_highestPower :
    ¬∃ cs, (highestPower .integers).toCoefficients = .ok cs ∧
      ofCoefficients .integers cs = .ok (highestPower .integers) := by
  rintro ⟨cs, hcs, -⟩
  rw [toCoefficients_eq_error not_degree_highestPower_lt] at hcs
  cases hcs

end Poly

end Univariate
