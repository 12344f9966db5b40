import Univariate.Proofs.DivisionInBuffers
import Univariate.Proofs.Quotients

/-!
# Edits in one ring

A buffer that is canonical in a ring stays so under the edits in that ring, whatever integers their
scalars and terms hold, and however they end. What is left out makes slots significant without
writing them, or works over the integers in any case.

* Every integer that an edit puts in a slot is canonical, also where it skips the canonical form of
  what looks canonical already (`Buffer.contains_foldl_update`, `Buffer.Divided.contains_slot`).
* An edit that stops midway has not come to the highest slot (`Buffer.keeps_canonical_unscale`).
* During a pseudo-division the quotient may end in a coefficient that is zero in the ring, until the
  end trims it (`LongDivision.Canonical`).
-/

namespace Univariate

variable {R : CoeffRing} {n : Nat} {P : Prop}

namespace Buffer

variable {t u source : Buffer}

/-! ## Constructions -/

theorem canonical_zero (hn : 1 ≤ n) : (⟨1, .replicate n 0⟩ : Buffer).Canonical R where
  toWellFormed := wellFormed_zero hn
  contains_slot i := by
    rw [slot_replicate]
    exact R.contains_zero
  normalized := .inl rfl

theorem canonical_ofCapacity (h : ofCapacity n = .ok t) : t.Canonical R := by
  rw [ofCapacity] at h
  split at h
  · cases h
  · next hn =>
    cases h
    exact canonical_zero (Nat.pos_of_ne_zero hn)

theorem canonical_ofDegreeBound {d : Nat} (h : ofDegreeBound d = .ok t) : t.Canonical R := by
  by_cases hd : d + 1 < degreeBound
  · rw [ofDegreeBound_eq hd] at h
    cases h
    exact canonical_zero (Nat.le_add_left 1 d)
  · rw [ofDegreeBound_eq_error hd] at h
    cases h

/-- The given coefficients are reduced into the ring, the other slots hold zero. -/
theorem canonical_ofCoefficients {cs : List Int} (h : ofCoefficients R n cs = .ok t) :
    t.Canonical R := by
  have hwell := (sound_ofCoefficients (P := True) h).toWellFormed
  rw [ofCoefficients_eq] at h
  split_ifs at h
  cases h
  refine ⟨hwell, contains_slot_trim fun i => ?_, normalized_trim R (Nat.le_max_right cs.length 1)⟩
  cases hc : cs[i]? with
  | none => by_cases hi : i < n <;> simp [slot, hi, hc, R.contains_zero]
  | some c => by_cases hi : i < n <;> simp [slot, hi, hc, R.contains_zero, R.contains_normalize]

/-! ## Edits of one buffer -/

theorem WellFormed.canonical_clear (h : t.WellFormed) : t.clear.Canonical R where
  toWellFormed := h.clear
  contains_slot i := by
    rw [h.slot_clear_eq_zero]
    exact R.contains_zero
  normalized := .inl rfl

theorem Canonical.clear (h : t.Canonical R) : t.clear.Canonical R :=
  h.toWellFormed.canonical_clear

theorem Canonical.negate (h : t.Canonical R) : (t.negate R).Canonical R :=
  (h.toWellFormed.mapNonzero _).canonical_trim
    (h.toWellFormed.contains_mapNonzero fun _ => R.contains_normalize _)

/-- A written coefficient that is not zero in the ring is the highest one, or leaves that as it
    was. -/
theorem Normalized.written (h : t.Normalized R) (ht : t.WellFormed) {i : Nat}
    (hi : i < t.capacity) {c : Int} (hc : R.isZero c = false) : (t.written i c).Normalized R := by
  right
  change R.isZero ((t.written i c).slot (max t.size (i + 1) - 1)) = false
  have := ht.one_le_size
  rw [slot_written]
  split_ifs with hj
  · exact hc
  · have hlt : i + 1 < t.size := by omega
    rw [Nat.max_eq_left (by omega)]
    exact h.resolve_left (by omega)

theorem keeps_canonical_copy (hs : source.Canonical R) : (copy source).Keeps (Canonical R) := by
  intro t h
  rw [Action.leaves, run_copy]
  split
  · exact h
  · next hlt => exact .copied h.toWellFormed hs (not_le.1 hlt)

theorem keeps_canonical_scale (c : Int) : (scale R c).Keeps (Canonical R) := by
  intro t h
  rw [Action.leaves, run_scale]
  split
  · exact h
  · exact h.scaled c

/-- A division of coefficients puts exact quotients in the slots, which are canonical. -/
theorem Divided.contains_slot {c : Int} {j : Nat} (hu : Divided R c 0 j t u)
    (h : ∀ k, R.contains (t.slot k) = true) (k : Nat) : R.contains (u.slot k) = true := by
  by_cases hk : k < j
  · exact (CoeffRing.exactQuotient_mul (hu.quotient k (Nat.zero_le k) hk)).1
  · rw [hu.slot_eq k (not_lt.1 hk)]
    exact h k

theorem keeps_canonical_unscale (c : Int) : (unscale R c).Keeps (Canonical R) := by
  intro t h
  cases hc : R.isZero c with
  | true =>
    rw [Action.leaves_of_run_error (run_unscale_of_isZero hc t)]
    exact h
  | false =>
    rcases unscale_cases hc t with ⟨u, hrun, hu⟩ | ⟨k, u, hrun, hk, -, hu⟩
    · rw [Action.leaves_of_run_ok hrun]
      exact (hu.wellFormed le_rfl h.toWellFormed).canonical_trim (hu.contains_slot h.contains_slot)
    · rw [Action.leaves_of_run_error hrun]
      refine ⟨hu.wellFormed hk.le h.toWellFormed, hu.contains_slot h.contains_slot, ?_⟩
      -- The division stopped at a significant slot, so the highest one is as it was.
      change u.size = 1 ∨ R.isZero u.leading = false
      rw [hu.size_eq, hu.leading_eq hk]
      exact h.normalized

/-! ## Accumulation -/

/-- Updates that give canonical integers leave canonical integers. -/
theorem contains_foldl_update {α : Type} {items : List α} {i : α → Nat} {f : α → Int → Int}
    (h : ∀ j, R.contains (t.slot j) = true) (hf : ∀ a x, R.contains (f a x) = true) (j : Nat) :
    R.contains ((items.foldl (fun t a => t.update (i a) (f a)) t).slot j) = true := by
  induction items generalizing t with
  | nil => exact h j
  | cons a items ih =>
    refine ih fun k => ?_
    rw [slot_update]
    split_ifs
    · exact hf a _
    · exact h k

theorem contains_addTerms (h : ∀ i, R.contains (t.slot i) = true) (terms : List Term) (c : Int)
    (shift i : Nat) : R.contains ((t.addTerms R terms c shift).slot i) = true :=
  contains_foldl_update h (fun _ _ => CoeffRing.contains_renormalize R _) i

theorem contains_subTerms (h : ∀ i, R.contains (t.slot i) = true) (terms : List Term) (c : Int)
    (shift i : Nat) : R.contains ((t.subTerms R terms c shift).slot i) = true :=
  contains_foldl_update h (fun _ _ => CoeffRing.contains_renormalize R _) i

theorem contains_subRows (h : ∀ i, R.contains (t.slot i) = true) (p q : Buffer) (i : Nat) :
    R.contains ((t.subRows R p q).slot i) = true := by
  unfold subRows
  induction List.range p.size generalizing t with
  | nil => exact h i
  | cons k ks ih =>
    rw [List.foldl_cons]
    split
    · exact ih h
    · exact ih (contains_subShifted h q ⟨k, p.slot k⟩)

theorem keeps_canonical_addMultiple (p : Poly) (c : Int) :
    (addMultiple p c).Keeps (Canonical p.ring) := by
  intro t h
  rw [Action.leaves, run_addMultiple]
  split_ifs with _ hd
  · exact h
  · exact h
  · exact h.toWellFormed.canonical_resize (size_foldl_update ..) (capacity_addTerms ..)
      (not_le.1 hd) (fun i hi => slot_addTerms_of_lt t p c hi)
      (contains_addTerms h.contains_slot p.terms c 0)

theorem keeps_canonical_addTermMultiple (p : Poly) (a : Term) :
    (addTermMultiple p a).Keeps (Canonical p.ring) := by
  intro t h
  rw [Action.leaves, run_addTermMultiple]
  split
  · exact h
  · exact stateOf_accumulate h fun hd =>
      h.toWellFormed.canonical_resize (size_foldl_update ..) (capacity_addTerms ..) hd
        (fun i hi => slot_addTerms_of_lt t p _ hi) (contains_addTerms h.contains_slot p.terms _ _)

theorem keeps_canonical_subTermMultiple (p : Poly) (a : Term) :
    (subTermMultiple p a).Keeps (Canonical p.ring) := by
  intro t h
  rw [Action.leaves, run_subTermMultiple]
  split
  · exact h
  · exact stateOf_accumulate h fun hd =>
      h.toWellFormed.canonical_resize (size_foldl_update ..) (capacity_subTerms ..) hd
        (fun i hi => slot_subTerms_of_lt t p _ hi) (contains_subTerms h.contains_slot p.terms _ _)

theorem keeps_canonical_subBufferMultiple (source : Buffer) (a : Term) :
    (subBufferMultiple R source a).Keeps (Canonical R) := by
  intro t h
  rw [Action.leaves, run_subBufferMultiple]
  split_ifs
  · exact h
  · exact h
  · exact stateOf_accumulate h fun hd => h.subShifted hd

theorem keeps_canonical_subProduct (p q : Buffer) :
    (subProduct R p q).Keeps (Canonical R) := by
  intro t h
  rw [Action.leaves, run_subProduct]
  split
  · exact h
  · exact stateOf_accumulate h fun hd =>
      h.toWellFormed.canonical_resize (size_subRows ..) (capacity_subRows ..) hd
        (fun i hi => slot_subRows_of_lt t p q R hi) (contains_subRows h.contains_slot p q)

/-! ## Derivatives -/

theorem keeps_canonical_differentiate (source : Buffer) :
    (differentiate R source).Keeps (Canonical R) := by
  intro t h
  rw [Action.leaves, run_differentiate]
  split_ifs with hzero hcap
  · exact h.clear
  · exact h
  · refine h.clear.toWellFormed.canonical_resize (size_putDerivative ..)
      (capacity_putDerivative ..) ?_ (fun i hi => slot_putDerivative_of_lt _ _ _ hi) fun i => ?_
    · rw [capacity_clear]
      omega
    · rw [slot_putDerivative]
      split_ifs
      · exact R.contains_normalize _
      · exact h.clear.contains_slot i

end Buffer

/-! ## Long division -/

namespace LongDivision

variable {dividend divisor : Buffer} {s : LongDivision}

/-- Both buffers hold canonical integers, and the remainder is normalized. So is the quotient if `P`
    holds. -/
structure Canonical (R : CoeffRing) (P : Prop) (s : LongDivision) : Prop where
  quotient : s.quotient.WellFormed
  contains_quotient : ∀ i, R.contains (s.quotient.slot i) = true
  normalized_quotient : P → s.quotient.Normalized R
  remainder : s.remainder.Canonical R

theorem Canonical.of_buffers (hq : s.quotient.Canonical R) (hr : s.remainder.Canonical R) :
    s.Canonical R P :=
  ⟨hq.toWellFormed, hq.contains_slot, fun _ => hq.normalized, hr⟩

theorem Canonical.canonical_quotient (h : s.Canonical R True) : s.quotient.Canonical R :=
  ⟨h.quotient, h.contains_quotient, h.normalized_quotient trivial⟩

theorem Canonical.reported (h : s.Canonical R P) (event : Event) :
    (s.reported event).Canonical R P :=
  ⟨h.quotient, h.contains_quotient, h.normalized_quotient, h.remainder⟩

theorem Canonical.subtracted {shift : Nat} (h : s.Canonical R P) (hfits : s.Fits divisor shift)
    {factor coefficient : Int} (hcanonical : R.contains coefficient = true)
    (hc : R.isZero factor = false → P → R.isZero coefficient = false) :
    (s.subtracted R divisor shift factor coefficient).Canonical R P := by
  rw [LongDivision.subtracted]
  split
  · exact h
  · next hz =>
    refine ⟨h.quotient.written hfits.shift_lt_quotient coefficient,
      Buffer.contains_put h.contains_quotient hcanonical shift, fun hP => ?_,
      h.remainder.subShifted hfits.degree_lt_remainder⟩
    exact (h.normalized_quotient hP).written h.quotient hfits.shift_lt_quotient
      (hc (by simpa using hz) hP)

/-- The step of an exact division puts a coefficient in the quotient that is not zero in the
    ring. -/
theorem Canonical.exactStepped {shift : Nat} {factor : Int} (h : s.Canonical R P)
    (hfits : s.Fits divisor shift)
    (hq : R.exactQuotient (s.remainder.slot (divisor.degree + shift)) divisor.leading =
      .ok factor) :
    ((s.announced divisor shift).subtracted R divisor shift factor factor).Canonical R P :=
  (h.reported _).subtracted hfits.announced (CoeffRing.exactQuotient_mul hq).1 fun hz _ => hz

/-- A division of a canonical dividend keeps its buffers canonical, whatever the divisor holds. -/
theorem keeps_canonical_run (kind : DivisionKind) (divisor : Buffer) (hp : dividend.Canonical R)
    (hword : dividend.degree < degreeBound) :
    (run R kind dividend divisor).Keeps (Canonical R True) := by
  have hinvariant : Invariant R kind dividend divisor (Canonical R True) (Canonical R False) := {
    reported := fun s event h => h.reported event
    started := fun s hr h =>
      .of_buffers h.canonical_quotient.clear (.copied h.remainder.toWellFormed hp hr)
    exactStepped := fun s shift factor hfits hq h => h.exactStepped hfits hq
    weaken := fun s h => ⟨h.quotient, h.contains_quotient, False.elim, h.remainder⟩
    pseudoStepped := fun s shift hfits h =>
      have hscaled : ((s.announced divisor shift).scaled R divisor).Canonical R False :=
        ⟨h.quotient, h.contains_quotient, False.elim, h.remainder.scaled divisor.leading⟩
      hscaled.subtracted (hfits.scaled R) (R.contains_normalize _) fun _ => False.elim
    finished := fun s h =>
      .of_buffers (h.quotient.canonical_trim h.contains_quotient) h.remainder }
  exact hinvariant.keeps_run hword

end LongDivision

namespace Buffer

/-- Where a division of a canonical dividend into fresh buffers succeeds, these are canonical. -/
theorem canonical_divide {kind : DivisionKind} {dividend divisor quotient remainder : Buffer}
    {trace trace' : Array Event} (hp : dividend.Canonical R)
    (h : (divide R kind dividend divisor).run trace = .ok (quotient, remainder) trace') :
    quotient.Canonical R ∧ remainder.Canonical R := by
  rw [run_divide] at h
  split_ifs at h with hd
  have hkeeps := LongDivision.keeps_canonical_run kind divisor hp (by omega)
    ⟨⟨1, .replicate (dividend.degree - divisor.degree + 1) 0⟩,
      ⟨1, .replicate (dividend.degree + 1) 0⟩, trace⟩
    (LongDivision.Canonical.of_buffers (canonical_zero (Nat.le_add_left 1 _))
      (canonical_zero (Nat.le_add_left 1 _)))
  split at h
  · next s hrun =>
    rw [Action.leaves_of_run_ok hrun] at hkeeps
    cases h
    exact ⟨hkeeps.canonical_quotient, hkeeps.remainder⟩
  · cases h

end Buffer

end Univariate
