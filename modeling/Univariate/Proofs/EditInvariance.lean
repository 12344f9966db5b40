import Univariate.Proofs.Representation

/-!
# Every edit keeps the representation invariant

The edits that copy, write, accumulate, differentiate or divide by the content keep
`Buffer.Sound`, and the constructions establish it.

* A copy holds, slot by slot, what its source holds (`Buffer.slot_copied`), whatever the buffer
  held before.
* Accumulation only writes slots up to the exponent it asked for
  (`Buffer.slot_addTerms_of_lt`, `Buffer.slot_subShifted_of_lt`, `Buffer.slot_subRows_of_lt`).
* Division by the content is exact, so that no coefficient vanishes
  (`Buffer.primitiveDivisor_dvd`).
-/

namespace Univariate.Buffer

variable {t source : Buffer} {R : CoeffRing} {n m : Nat} {P Q : Prop}

/-! ## The list of coefficients -/

theorem getElem?_coefficients (t : Buffer) (i : Nat) :
    t.coefficients[i]? = if i < t.size ∧ i < t.capacity then some (t.slot i) else none := by
  rw [coefficients, List.getElem?_take, slot, Array.getElem?_toList]
  by_cases hi : i < t.size <;> by_cases hc : i < t.slots.size <;> simp [capacity, hi, hc]

/-- The list holds the significant slots. -/
theorem WellFormed.coefficients_eq (h : t.WellFormed) :
    t.coefficients = (List.range t.size).map t.slot := by
  refine List.ext_getElem? fun i => ?_
  rw [getElem?_coefficients, List.getElem?_map]
  by_cases hi : i < t.size
  · rw [if_pos ⟨hi, hi.trans_le h.size_le_capacity⟩, List.getElem?_range hi]
    rfl
  · rw [if_neg fun hlt => hi hlt.1, List.getElem?_eq_none (by simpa using hi)]
    rfl

theorem WellFormed.slot_eq_getD (h : t.WellFormed) (i : Nat) :
    t.slot i = t.coefficients[i]?.getD 0 := by
  rw [getElem?_coefficients]
  by_cases hi : i < t.size
  · rw [if_pos ⟨hi, hi.trans_le h.size_le_capacity⟩, Option.getD_some]
  · rw [if_neg fun hlt => hi hlt.1, h.slot_eq_zero i (not_lt.1 hi), Option.getD_none]

theorem WellFormed.leading_mem_coefficients (h : t.WellFormed) : t.leading ∈ t.coefficients := by
  have hlt := h.degree_lt_capacity
  have := h.degree_add_one
  refine List.mem_of_getElem? (i := t.degree) ?_
  rw [getElem?_coefficients, if_pos ⟨by omega, hlt⟩, leading]

/-! ## Constructions -/

theorem slot_replicate (size capacity i : Nat) :
    (⟨size, .replicate capacity 0⟩ : Buffer).slot i = 0 := by
  by_cases h : i < capacity <;> simp [slot, h]

theorem wellFormed_zero (hn : 1 ≤ n) : (⟨1, .replicate n 0⟩ : Buffer).WellFormed where
  one_le_size := Nat.le_refl 1
  size_le_capacity := by simpa [capacity] using hn
  slot_eq_zero i _ := slot_replicate 1 n i

/-- The zero polynomial in any positive number of slots is sound. -/
theorem sound_zero (hn : 1 ≤ n) : (⟨1, .replicate n 0⟩ : Buffer).Sound n P where
  toWellFormed := wellFormed_zero hn
  capacity_eq := by simp [capacity]
  trimmed _ := .inl rfl

theorem sound_ofCapacity (h : ofCapacity n = .ok t) : t.Sound n P := by
  rw [ofCapacity] at h
  split at h
  · cases h
  · next hn =>
    cases h
    exact sound_zero (Nat.pos_of_ne_zero hn)

theorem ofDegreeBound_eq {d : Nat} (h : d + 1 < degreeBound) :
    ofDegreeBound d = .ok ⟨1, .replicate (d + 1) 0⟩ := by
  rw [ofDegreeBound, addDegrees, if_pos h]
  rfl

theorem ofDegreeBound_eq_error {d : Nat} (h : ¬d + 1 < degreeBound) :
    ofDegreeBound d = .error (.faulted .degreeOverflow) := by
  rw [ofDegreeBound, addDegrees, if_neg h]
  rfl

theorem sound_ofDegreeBound {d : Nat} (h : ofDegreeBound d = .ok t) :
    t.Sound (d + 1) P ∧ d + 1 < degreeBound := by
  by_cases hd : d + 1 < degreeBound
  · rw [ofDegreeBound_eq hd] at h
    cases h
    exact ⟨sound_zero (by omega), hd⟩
  · rw [ofDegreeBound_eq_error hd] at h
    cases h

theorem ofCoefficients_eq (R : CoeffRing) (capacity : Nat) (cs : List Int) :
    ofCoefficients R capacity cs =
      if capacity = 0 then
        .error (.refused .noSlots)
      else if capacity < cs.length then
        .error (.refused (.noSlotFor (cs.length - 1) capacity))
      else
        .ok (trim R ⟨max cs.length 1,
          (Array.replicate capacity 0).mapIdx fun i c => (cs[i]?.map R.normalize).getD c⟩) := by
  by_cases hc : capacity = 0
  · rw [if_pos hc, ofCoefficients, ofCapacity, if_pos hc]
    rfl
  · by_cases hlen : capacity < cs.length
    · simp [ofCoefficients, ofCapacity, hc, hlen]
      rfl
    · simp [ofCoefficients, ofCapacity, hc, hlen]

theorem sound_ofCoefficients {cs : List Int} (h : ofCoefficients R n cs = .ok t) :
    t.Sound n P := by
  rw [ofCoefficients_eq] at h
  split_ifs at h with hn hlen
  cases h
  refine WellFormed.sound_trim ⟨?_, ?_, fun i hi => ?_⟩ (by simp [capacity])
  · exact Nat.le_max_right _ _
  · simp only [capacity, Array.size_mapIdx, Array.size_replicate]
    omega
  · have hi : cs.length ≤ i := (Nat.le_max_left _ _).trans hi
    by_cases hin : i < n <;> simp [slot, hin, List.getElem?_eq_none hi]

/-- A polynomial fits in more slots than its degree, and its coefficients come to lie in them. -/
theorem ofPoly_of_lt {p : Poly} (h : p.degree < n) :
    ∃ t, ofPoly n p = .ok t ∧ t.size = p.degree + 1 ∧ t.capacity = n ∧
      ∀ i, t.slot i = p.coeff i := by
  refine ⟨⟨p.degree + 1, (Array.replicate n 0).mapIdx fun i c =>
    if i ≤ p.degree then p.coeff i else c⟩, ?_, rfl, by simp [capacity], fun i => ?_⟩
  · simp [ofPoly, Poly.run_unpack, Poly.scatter_cleared, Action.finalState, Nat.not_le.2 h]
  · by_cases hi : i ≤ p.degree
    · simp [slot, hi, Nat.lt_of_le_of_lt hi h]
    · rw [Poly.coeff_eq_zero_of_degree_lt (Nat.lt_of_not_le hi)]
      by_cases hin : i < n <;> simp [slot, hi, hin]

theorem ofPoly_of_le {p : Poly} (h : n ≤ p.degree) :
    ofPoly n p = .error (.refused (.noSlotFor p.degree n)) := by
  simp [ofPoly, h]
  rfl

/-- A buffer that a polynomial was unpacked into has room for its degree. -/
theorem slots_of_ofPoly {p : Poly} (h : ofPoly n p = .ok t) :
    p.degree < n ∧ t.size = p.degree + 1 ∧ t.capacity = n ∧ ∀ i, t.slot i = p.coeff i := by
  have hlt : p.degree < n := by
    by_contra hle
    rw [ofPoly_of_le (not_lt.1 hle)] at h
    cases h
  obtain ⟨u, hu, hu'⟩ := ofPoly_of_lt hlt
  obtain rfl : u = t := by simpa [hu] using h
  exact ⟨hlt, hu'⟩

theorem sound_ofPoly {p : Poly} (h : ofPoly n p = .ok t) : t.Sound n P := by
  obtain ⟨hlt, hsize, hcap, hslot⟩ := slots_of_ofPoly h
  -- There is no coefficient past the degree, and only the zero polynomial has none at it.
  refine ⟨⟨by omega, by omega, fun i hi => ?_⟩, hcap, fun _ => ?_⟩
  · rw [hslot]
    exact Poly.coeff_eq_zero_of_degree_lt (by omega)
  · cases hz : p.isZero with
    | true =>
      rw [Poly.degree_of_isZero hz] at hsize
      exact .inl hsize
    | false =>
      right
      rw [leading, degree, hslot, hsize]
      exact Poly.coeff_degree_ne_zero hz

/-! ## Copying and writing -/

/-- A copy holds what its source holds, and nothing else. -/
theorem slot_copied (ht : t.WellFormed) (hs : source.WellFormed)
    (hlt : source.degree < t.capacity) (i : Nat) : (t.copied source).slot i = source.slot i := by
  have hsize := hs.degree_add_one
  have hcopied : (t.copied source).slot i =
      if i < t.capacity then
        if i < source.size then source.slot i else if i < t.size then 0 else t.slot i
      else 0 := by
    by_cases hi : i < t.slots.size <;> simp [slot, copied, capacity, hi]
  rw [hcopied]
  -- Past the source, there is zero where `t` was significant, and where it was not.
  by_cases his : i < source.size
  · rw [if_pos (by omega), if_pos his]
  · rw [if_neg his, hs.slot_eq_zero i (not_lt.1 his)]
    split_ifs with _ hit
    · rfl
    · exact ht.slot_eq_zero i (not_lt.1 hit)
    · rfl

theorem capacity_copied (t source : Buffer) : (t.copied source).capacity = t.capacity := by
  simp [capacity, copied]

theorem WellFormed.copied (ht : t.WellFormed) (hs : source.WellFormed)
    (hlt : source.degree < t.capacity) : (t.copied source).WellFormed where
  one_le_size := hs.one_le_size
  size_le_capacity := by
    rw [capacity_copied]
    exact hs.degree_add_one ▸ hlt
  slot_eq_zero i hi := by
    rw [slot_copied ht hs hlt]
    exact hs.slot_eq_zero i hi

theorem sound_copied (ht : t.WellFormed) (hs : source.Sound m P)
    (hlt : source.degree < t.capacity) : (t.copied source).Sound t.capacity P where
  toWellFormed := ht.copied hs.toWellFormed hlt
  capacity_eq := t.capacity_copied source
  trimmed hP := (hs.trimmed hP).imp id fun hlead => by
    rw [leading, slot_copied ht hs.toWellFormed hlt]
    exact hlead

theorem keeps_copy (hs : source.Sound m P) : (copy source).Keeps (Sound n P) := by
  intro t h
  rw [Action.leaves, run_copy]
  split
  · exact h
  · next hlt => exact h.capacity_eq ▸ sound_copied h.toWellFormed hs (not_le.1 hlt)

theorem WellFormed.expose (h : t.WellFormed) {d : Nat} (hd : d < t.capacity) :
    ({ t with size := max t.size (d + 1) } : Buffer).WellFormed :=
  h.raise rfl rfl hd fun _ _ => rfl

/-- Making slots significant keeps all but the trimming. -/
theorem keeps_expose (hP : ¬P) (degree : Nat) : (expose degree).Keeps (Sound n P) := by
  intro t h
  by_cases hd : degree < t.capacity
  · rw [Action.leaves_of_run_ok (run_expose_of_lt hd)]
    exact ⟨h.toWellFormed.expose hd, h.capacity_eq, fun hP' => absurd hP' hP⟩
  · rw [Action.leaves, run_expose]
    split_ifs with hs hc
    · exact h
    · exact h
    · exact absurd (not_le.1 hc) hd

/-- The buffer with `c` in the slot of `x ^ i`, which is made significant. -/
def written (t : Buffer) (i : Nat) (c : Int) : Buffer :=
  { t.put i c with size := max t.size (i + 1) }

@[simp] theorem capacity_written (t : Buffer) (i : Nat) (c : Int) :
    (t.written i c).capacity = t.capacity :=
  t.capacity_put i c

theorem slot_written (t : Buffer) (i j : Nat) (c : Int) :
    (t.written i c).slot j = if i = j ∧ j < t.capacity then c else t.slot j :=
  t.slot_put i j c

theorem run_write_of_lt {i : Nat} (hi : i < t.capacity) (c : Int) :
    (write i c).run t = .ok () (t.written i c) := by
  rw [run_write, run_expose_of_lt (by rwa [capacity_put])]
  rfl

theorem WellFormed.written (h : t.WellFormed) {i : Nat} (hi : i < t.capacity) (c : Int) :
    (t.written i c).WellFormed :=
  h.raise (u := t.put i c) rfl (t.capacity_put i c) hi fun j hj => by
    rw [slot_put, if_neg fun hij => by omega]

theorem Sound.written (h : t.Sound n P) {i : Nat} (hi : i < t.capacity) {c : Int}
    (hc : P → c ≠ 0) : (t.written i c).Sound n P where
  toWellFormed := h.toWellFormed.written hi c
  capacity_eq := (t.capacity_written i c).trans h.capacity_eq
  trimmed hP := by
    right
    -- The highest significant slot is the one written, or the one that was highest before.
    change (t.written i c).slot (max t.size (i + 1) - 1) ≠ 0
    rw [slot_written]
    split_ifs with hj
    · exact hc hP
    · have hlt : i + 1 < t.size := by omega
      rw [Nat.max_eq_left (by omega)]
      exact (h.trimmed hP).resolve_left (by omega)

/-! ## Accumulation -/

theorem size_foldl_update {α : Type} (items : List α) (i : α → Nat) (f : α → Int → Int)
    (t : Buffer) : (items.foldl (fun t a => t.update (i a) (f a)) t).size = t.size := by
  induction items generalizing t with
  | nil => rfl
  | cons a items ih => exact ih _

/-- Updates do not change the slots they do not come to. -/
theorem slot_foldl_update_of_forall_ne {α : Type} {items : List α} {i : α → Nat}
    {f : α → Int → Int} {j : Nat} (h : ∀ a ∈ items, i a ≠ j) :
    (items.foldl (fun t a => t.update (i a) (f a)) t).slot j = t.slot j := by
  induction items generalizing t with
  | nil => rfl
  | cons a items ih =>
    rw [List.foldl_cons, ih fun b hb => h b (List.mem_cons_of_mem _ hb), slot_update,
      if_neg fun hij => h a List.mem_cons_self hij.1]

theorem slot_addTerms_of_lt (t : Buffer) (p : Poly) (c : Int) {shift j : Nat}
    (hj : p.degree + shift < j) : (t.addTerms R p.terms c shift).slot j = t.slot j :=
  slot_foldl_update_of_forall_ne fun a ha => by
    have := Poly.degree_le_of_mem ha
    omega

theorem slot_subTerms_of_lt (t : Buffer) (p : Poly) (c : Int) {shift j : Nat}
    (hj : p.degree + shift < j) : (t.subTerms R p.terms c shift).slot j = t.slot j :=
  slot_foldl_update_of_forall_ne fun a ha => by
    have := Poly.degree_le_of_mem ha
    omega

theorem slot_subShifted_of_lt (t source : Buffer) (R : CoeffRing) {a : Term} {j : Nat}
    (hj : source.degree + a.degree < j) : (t.subShifted R source a).slot j = t.slot j := by
  rw [slot_subShifted, if_neg]
  rintro ⟨_, _, hlt, _⟩
  rw [degree] at hj
  omega

theorem size_subShifted (t : Buffer) (R : CoeffRing) (source : Buffer) (a : Term) :
    (t.subShifted R source a).size = t.size :=
  rfl

theorem size_subRows (t : Buffer) (R : CoeffRing) (p q : Buffer) :
    (t.subRows R p q).size = t.size := by
  unfold subRows
  induction List.range p.size generalizing t with
  | nil => rfl
  | cons i is ih =>
    rw [List.foldl_cons, ih]
    split <;> rfl

theorem slot_subRows_of_lt (t p q : Buffer) (R : CoeffRing) {j : Nat}
    (hj : p.degree + q.degree < j) : (t.subRows R p q).slot j = t.slot j := by
  have hrange : ∀ i ∈ List.range p.size, i ≤ p.degree := fun i hi => by
    have := List.mem_range.1 hi
    rw [degree]
    omega
  unfold subRows
  revert hrange
  generalize List.range p.size = is
  intro hrange
  induction is generalizing t with
  | nil => rfl
  | cons i is ih =>
    have hi := hrange i List.mem_cons_self
    rw [List.foldl_cons, ih _ fun k hk => hrange k (List.mem_cons_of_mem _ hk)]
    split
    · rfl
    · exact slot_subShifted_of_lt t q R (by simp only; omega)

theorem keeps_addMultiple (source : Poly) (c : Int) : (addMultiple source c).Keeps (Sound n P) := by
  intro t h
  rw [Action.leaves, run_addMultiple]
  split_ifs with _ hd
  · exact h
  · exact h
  · exact h.toWellFormed.sound_resize h.capacity_eq (size_foldl_update ..) (capacity_addTerms ..)
      (not_le.1 hd) fun i hi => slot_addTerms_of_lt t source c hi

/-- What accumulates up to the exponent `d + e` keeps what its buffer satisfies if settling the size
    does, since nothing changes where there is no slot for the exponent. -/
theorem stateOf_accumulate {I : Buffer → Prop} {u : Buffer} {d e : Nat} (h : I t)
    (hresize : d + e < t.capacity → I (u.resize R (d + e))) :
    I (Action.stateOf (match addDegrees d e with
      | .error e => (.error e t : EStateM.Result Failure Buffer Unit)
      | .ok degree =>
        if t.capacity ≤ degree then
          .error (.refused (.noSlotFor degree t.capacity)) t
        else
          .ok () (u.resize R degree))) := by
  rw [addDegrees]
  split_ifs
  · dsimp only
    split_ifs with hd
    · exact h
    · exact hresize (not_le.1 hd)
  · exact h

/-- An accumulation up to the exponent `d + e` keeps the invariant, whether there is a slot for the
    exponent or not. -/
theorem Sound.accumulate (h : t.Sound n P) {u : Buffer} (hsize : u.size = t.size)
    (hcap : u.capacity = t.capacity) {d e : Nat} (hslot : ∀ i, d + e < i → u.slot i = t.slot i) :
    (Action.stateOf (match addDegrees d e with
      | .error e => (.error e t : EStateM.Result Failure Buffer Unit)
      | .ok degree =>
        if t.capacity ≤ degree then
          .error (.refused (.noSlotFor degree t.capacity)) t
        else
          .ok () (u.resize R degree))).Sound n P :=
  stateOf_accumulate h fun hd => h.toWellFormed.sound_resize h.capacity_eq hsize hcap hd hslot

theorem keeps_addTermMultiple (source : Poly) (a : Term) :
    (addTermMultiple source a).Keeps (Sound n P) := by
  intro t h
  rw [Action.leaves, run_addTermMultiple]
  split
  · exact h
  · exact h.accumulate (size_foldl_update ..) (capacity_addTerms ..) fun i hi =>
      slot_addTerms_of_lt t source _ hi

theorem keeps_subTermMultiple (source : Poly) (a : Term) :
    (subTermMultiple source a).Keeps (Sound n P) := by
  intro t h
  rw [Action.leaves, run_subTermMultiple]
  split
  · exact h
  · exact h.accumulate (size_foldl_update ..) (capacity_subTerms ..) fun i hi =>
      slot_subTerms_of_lt t source _ hi

theorem keeps_subBufferMultiple (R : CoeffRing) (source : Buffer) (a : Term) :
    (subBufferMultiple R source a).Keeps (Sound n P) := by
  intro t h
  rw [Action.leaves, run_subBufferMultiple]
  split_ifs
  · exact h
  · exact h
  · exact h.accumulate (size_subShifted ..) (capacity_subShifted ..) fun i hi =>
      slot_subShifted_of_lt t source R hi

theorem keeps_subProduct (R : CoeffRing) (p q : Buffer) :
    (subProduct R p q).Keeps (Sound n P) := by
  intro t h
  rw [Action.leaves, run_subProduct]
  split
  · exact h
  · exact h.accumulate (size_subRows ..) (capacity_subRows ..) fun i hi =>
      slot_subRows_of_lt t p q R hi

/-! ## Derivatives -/

theorem slot_putDerivative (t : Buffer) (R : CoeffRing) (source : Buffer) (i : Nat) :
    (t.putDerivative R source).slot i =
      if i < t.capacity ∧ i + 1 < source.size ∧ source.slot (i + 1) ≠ 0 then
        R.mulInt (source.slot (i + 1)) (.ofNat (i + 1))
      else
        t.slot i := by
  simp only [slot, putDerivative, capacity, Array.getElem?_mapIdx]
  grind

theorem size_putDerivative (t : Buffer) (R : CoeffRing) (source : Buffer) :
    (t.putDerivative R source).size = t.size :=
  rfl

/-- The highest slot written is that of the degree of the source, less one. -/
theorem slot_putDerivative_of_lt (t : Buffer) (R : CoeffRing) (source : Buffer) {i : Nat}
    (hi : source.degree - 1 < i) : (t.putDerivative R source).slot i = t.slot i := by
  rw [slot_putDerivative, if_neg]
  rintro ⟨_, hlt, _⟩
  rw [degree] at hi
  omega

theorem keeps_differentiate (R : CoeffRing) (source : Buffer) :
    (differentiate R source).Keeps (Sound n P) := by
  intro t h
  rw [Action.leaves, run_differentiate]
  split_ifs with hzero hcap
  · exact h.clear
  · exact h
  · refine h.toWellFormed.clear.sound_resize (h.clear (P := P)).capacity_eq
      (size_putDerivative ..) (capacity_putDerivative ..) ?_
      fun i hi => slot_putDerivative_of_lt _ _ _ hi
    rw [capacity_clear]
    omega

/-! ## Contents -/

/-- What divides the greatest common divisor of a list is what divides all its members. -/
theorem dvd_foldr_gcd_iff {cs : List Int} {n : Nat} :
    n ∣ cs.foldr (fun c g => Nat.gcd g c.natAbs) 0 ↔ ∀ c ∈ cs, (n : Int) ∣ c := by
  induction cs with
  | nil => simp
  | cons c cs ih =>
    rw [List.foldr_cons, Nat.dvd_gcd_iff, ih, ← Int.natCast_dvd, List.forall_mem_cons, and_comm]

theorem foldr_gcd_dvd {cs : List Int} {c : Int} (hc : c ∈ cs) :
    ((cs.foldr (fun c g => Nat.gcd g c.natAbs) 0 : Nat) : Int) ∣ c :=
  dvd_foldr_gcd_iff.1 dvd_rfl c hc

theorem primitiveDivisor_dvd (positive : Bool) {c : Int} (hc : c ∈ t.coefficients) :
    t.primitiveDivisor positive ∣ c := by
  rw [primitiveDivisor]
  split
  · exact (Int.neg_dvd).2 (foldr_gcd_dvd hc)
  · exact foldr_gcd_dvd hc

theorem keeps_makePrimitive (positive : Bool) : (makePrimitive positive).Keeps (Sound n P) := by
  intro t h
  rw [Action.leaves, run_makePrimitive]
  split_ifs
  · exact h
  · exact h
  · refine ⟨h.toWellFormed.mapNonzero _, (t.capacity_mapNonzero _).trans h.capacity_eq,
      fun hP => (h.trimmed hP).imp id fun hlead => ?_⟩
    have hdvd := primitiveDivisor_dvd positive h.toWellFormed.leading_mem_coefficients
    change (t.mapNonzero _).slot t.degree ≠ 0
    rw [slot_mapNonzero, if_pos ⟨by have := h.toWellFormed.degree_add_one; omega, hlead⟩]
    -- The leading coefficient is a multiple of its quotient, which is then not zero either.
    intro hquot
    refine hlead ?_
    rw [← Int.mul_ediv_cancel' hdvd, leading, hquot, mul_zero]

end Univariate.Buffer
