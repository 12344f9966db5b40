import Univariate.Buffer.Accumulation
import Univariate.Buffer.Differentiation
import Univariate.Buffer.Scaling
import Univariate.Poly.Packing
import Univariate.Proofs.Coefficients
import Univariate.Proofs.Preservation
import Univariate.Proofs.Quotients

/-!
# The representation invariant of buffers

What every edit keeps, in whichever ring it works and however it ends: there is a significant slot,
the significant slots lie within the capacity, the other slots hold zero, the capacity is the one of
the construction, and the highest significant slot holds zero only if it is the only one.

* `Buffer.Sound` is the invariant. Its last part is conditional on a proposition, since making slots
  significant without writing them (`Buffer.expose`) breaks it.
* Nearly every edit ends by trimming, which makes any well-formed buffer sound
  (`Buffer.WellFormed.sound_trim`); what has to be shown is that the slots it wrote before lie
  below the size it then claims (`Buffer.WellFormed.sound_resize`).
* `Buffer.keeps_unscale` covers a division of the coefficients that stops midway. `Buffer.Divided`
  says which slots have been divided: all of them, or those below the one where the division
  stopped (`Buffer.DivisionEnds`), and nothing else has changed.
-/

namespace Univariate.Buffer

/-- The highest significant slot is the only one, or it does not hold zero. -/
def Trimmed (t : Buffer) : Prop :=
  t.size = 1 ∨ t.leading ≠ 0

/-- The highest significant slot is the only one, or it is not zero in the ring. -/
def Normalized (R : CoeffRing) (t : Buffer) : Prop :=
  t.size = 1 ∨ R.isZero t.leading = false

theorem Normalized.trimmed {R : CoeffRing} {t : Buffer} (h : t.Normalized R) : t.Trimmed :=
  h.imp id CoeffRing.ne_zero_of_isZero_eq_false

/-- The buffer is well-formed, has the given capacity and, if `trimmed` holds, is trimmed. -/
structure Sound (capacity : Nat) (trimmed : Prop) (t : Buffer) : Prop extends t.WellFormed where
  capacity_eq : t.capacity = capacity
  trimmed : trimmed → t.Trimmed

variable {t u source : Buffer} {R : CoeffRing} {n m : Nat} {P : Prop}

/-- Only the slots within the capacity count. -/
theorem wellFormed_iff : t.WellFormed ↔
    1 ≤ t.size ∧ t.size ≤ t.capacity ∧ ∀ i < t.capacity, t.size ≤ i → t.slot i = 0 := by
  refine ⟨fun h => ⟨h.one_le_size, h.size_le_capacity, fun i _ => h.slot_eq_zero i⟩, ?_⟩
  rintro ⟨hpos, hle, hslot⟩
  refine ⟨hpos, hle, fun i hi => ?_⟩
  by_cases hic : i < t.capacity
  · exact hslot i hic hi
  · exact t.slot_of_capacity_le (not_lt.1 hic)

instance : Decidable t.WellFormed :=
  decidable_of_iff _ wellFormed_iff.symm

instance : Decidable (t.Normalized R) :=
  inferInstanceAs (Decidable (_ ∨ _))

theorem WellFormed.degree_lt_capacity (h : t.WellFormed) : t.degree < t.capacity := by
  have := h.one_le_size
  have := h.size_le_capacity
  rw [degree]
  omega

theorem WellFormed.degree_add_one (h : t.WellFormed) : t.degree + 1 = t.size :=
  Nat.sub_add_cancel h.one_le_size

theorem WellFormed.slot_eq_zero_of_degree_lt (h : t.WellFormed) {i : Nat} (hi : t.degree < i) :
    t.slot i = 0 :=
  h.slot_eq_zero i (h.degree_add_one ▸ hi)

theorem Sound.imp_trimmed {Q : Prop} (h : t.Sound n P) (hQ : Q → P) : t.Sound n Q :=
  ⟨h.toWellFormed, h.capacity_eq, fun hq => h.trimmed (hQ hq)⟩

/-- The zero test looks at the size and at one slot. -/
theorem isZero_iff : t.isZero = true ↔ t.size = 1 ∧ t.slot 0 = 0 := by
  rw [isZero, Bool.and_eq_true, beq_iff_eq, beq_iff_eq]

/-- A buffer that passes it holds zero in all slots. -/
theorem WellFormed.slot_of_isZero (h : t.WellFormed) (hz : t.isZero = true) (i : Nat) :
    t.slot i = 0 := by
  obtain ⟨hsize, hslot⟩ := isZero_iff.1 hz
  rcases Nat.eq_zero_or_pos i with rfl | hi
  · exact hslot
  · exact h.slot_eq_zero i (by omega)

/-- A trimmed buffer that does not pass it has a leading coefficient. -/
theorem Trimmed.leading_ne_zero (h : t.Trimmed) (hz : t.isZero = false) : t.leading ≠ 0 := by
  rcases h with hone | hlead
  · intro hlead
    rw [leading, degree, hone] at hlead
    rw [isZero_iff.2 ⟨hone, hlead⟩] at hz
    cases hz
  · exact hlead

/-! ## Trimming -/

theorem normalized_trim (R : CoeffRing) (h : 1 ≤ t.size) : (t.trim R).Normalized R := by
  have hpos := t.one_le_trimmedSize R h
  rcases t.trimmedSize_stop R t.size with hone | hlead
  · exact .inl (Nat.le_antisymm hone hpos)
  · right
    rwa [leading, slot_trim, if_neg (by simp only [degree, trim]; omega)]

theorem WellFormed.trim (h : t.WellFormed) (R : CoeffRing) : (t.trim R).WellFormed where
  one_le_size := t.one_le_trimmedSize R h.one_le_size
  size_le_capacity := by
    rw [capacity_trim]
    exact (t.trimmedSize_le R t.size).trans h.size_le_capacity
  slot_eq_zero i hi := by
    rw [slot_trim]
    split
    · rfl
    · next hlt => exact h.slot_eq_zero i (not_lt.1 fun hit => hlt ⟨hi, hit⟩)

/-- Trimming makes a well-formed buffer sound. -/
theorem WellFormed.sound_trim (h : t.WellFormed) (hn : t.capacity = n) : (t.trim R).Sound n P where
  toWellFormed := h.trim R
  capacity_eq := (t.capacity_trim R).trans hn
  trimmed _ := (normalized_trim R h.one_le_size).trimmed

/-- The buffer that `t` becomes when a step writes to slots up to that of `x ^ d` is well-formed
    once its size covers them. -/
theorem WellFormed.raise (h : t.WellFormed) (hsize : u.size = t.size)
    (hcap : u.capacity = t.capacity) {d : Nat} (hd : d < t.capacity)
    (hslot : ∀ i, d < i → u.slot i = t.slot i) :
    ({ u with size := max u.size (d + 1) } : Buffer).WellFormed where
  one_le_size := by
    change 1 ≤ max u.size (d + 1)
    omega
  size_le_capacity := by
    have := h.size_le_capacity
    change max u.size (d + 1) ≤ u.capacity
    omega
  slot_eq_zero i hi := by
    change max u.size (d + 1) ≤ i at hi
    change u.slot i = 0
    rw [hslot i (by omega)]
    exact h.slot_eq_zero i (by omega)

theorem WellFormed.resize (h : t.WellFormed) (hsize : u.size = t.size)
    (hcap : u.capacity = t.capacity) {d : Nat} (hd : d < t.capacity)
    (hslot : ∀ i, d < i → u.slot i = t.slot i) : (u.resize R d).WellFormed :=
  (h.raise hsize hcap hd hslot).trim R

/-- Resizing makes it sound. -/
theorem WellFormed.sound_resize (h : t.WellFormed) (hn : t.capacity = n) (hsize : u.size = t.size)
    (hcap : u.capacity = t.capacity) {d : Nat} (hd : d < t.capacity)
    (hslot : ∀ i, d < i → u.slot i = t.slot i) : (u.resize R d).Sound n P :=
  (h.raise hsize hcap hd hslot).sound_trim (hcap.trans hn)

/-! ## Edits of one buffer -/

theorem WellFormed.mapNonzero (h : t.WellFormed) (f : Int → Int) : (t.mapNonzero f).WellFormed where
  one_le_size := h.one_le_size
  size_le_capacity := by
    rw [capacity_mapNonzero]
    exact h.size_le_capacity
  slot_eq_zero i hi := by
    rw [slot_mapNonzero, if_neg fun hlt => Nat.not_le.2 hlt.1 hi]
    exact h.slot_eq_zero i hi

/-- The slots that `Buffer.mapNonzero` passes over hold zero. -/
theorem WellFormed.slot_eq_zero_of_not (h : t.WellFormed) {i : Nat}
    (hi : ¬(i < t.size ∧ t.slot i ≠ 0)) : t.slot i = 0 := by
  by_contra hne
  exact hi ⟨not_le.1 fun hle => hne (h.slot_eq_zero i hle), hne⟩

/-- A cleared buffer holds zero in all slots. -/
theorem WellFormed.slot_clear_eq_zero (h : t.WellFormed) (i : Nat) : t.clear.slot i = 0 := by
  rw [slot_clear]
  split
  · rfl
  · next hi => exact h.slot_eq_zero i (not_lt.1 hi)

theorem WellFormed.clear (h : t.WellFormed) : t.clear.WellFormed where
  one_le_size := Nat.le_refl 1
  size_le_capacity := by
    rw [capacity_clear]
    exact h.one_le_size.trans h.size_le_capacity
  slot_eq_zero i _ := h.slot_clear_eq_zero i

theorem Sound.clear (h : t.Sound n P) : t.clear.Sound n P where
  toWellFormed := h.toWellFormed.clear
  capacity_eq := t.capacity_clear.trans h.capacity_eq
  trimmed _ := .inl rfl

theorem keeps_scale (R : CoeffRing) (c : Int) : (scale R c).Keeps (Sound n P) := by
  intro t h
  rw [Action.leaves, run_scale]
  split
  · exact h
  · exact (h.mapNonzero _).sound_trim ((t.capacity_mapNonzero _).trans h.capacity_eq)

theorem WellFormed.negate (h : t.WellFormed) (R : CoeffRing) : (t.negate R).WellFormed :=
  (h.mapNonzero R.neg).trim R

theorem Sound.negate (h : t.Sound n P) (R : CoeffRing) : (t.negate R).Sound n P :=
  (h.mapNonzero _).sound_trim ((t.capacity_mapNonzero _).trans h.capacity_eq)

/-! ## Division of the coefficients -/

theorem run_divideSlots_succ (R : CoeffRing) (c : Int) (i count : Nat) (t : Buffer) :
    (divideSlots R c i (count + 1)).run t =
      if t.slot i = 0 then
        (divideSlots R c (i + 1) count).run t
      else
        match R.exactQuotient (t.slot i) c with
        | .ok q => (divideSlots R c (i + 1) count).run (t.put i q)
        | .error e => .error e t := by
  by_cases h : t.slot i = 0
  · simp [divideSlots, h]
  · cases hq : R.exactQuotient (t.slot i) c <;> simp [divideSlots, h, hq]

theorem run_unscale (R : CoeffRing) (c : Int) (t : Buffer) :
    (unscale R c).run t =
      if R.isZero c then
        .error (.refused .zeroScalar) t
      else
        match (divideSlots R c 0 t.size).run t with
        | .ok _ u => .ok () (u.trim R)
        | .error e u => .error e u := by
  by_cases h : R.isZero c
  · simp [unscale, h]
  · cases hd : (divideSlots R c 0 t.size).run t <;> simp [unscale, h, hd]

/-- The buffer `u` is `t` but for slots below the given one. -/
structure AgreesPast (size : Nat) (t u : Buffer) : Prop where
  size_eq : u.size = t.size
  capacity_eq : u.capacity = t.capacity
  slot_eq : ∀ j, size ≤ j → u.slot j = t.slot j

theorem AgreesPast.wellFormed (h : AgreesPast n t u) (hn : n ≤ t.size) (ht : t.WellFormed) :
    u.WellFormed where
  one_le_size := h.size_eq ▸ ht.one_le_size
  size_le_capacity := by
    rw [h.size_eq, h.capacity_eq]
    exact ht.size_le_capacity
  slot_eq_zero i hi := by
    rw [h.size_eq] at hi
    rw [h.slot_eq i (hn.trans hi)]
    exact ht.slot_eq_zero i hi

/-- The highest slot is as it was if it is past the changed ones. -/
theorem AgreesPast.leading_eq (h : AgreesPast n t u) (hn : n < t.size) :
    u.leading = t.leading := by
  rw [leading, leading, degree, degree, h.size_eq]
  exact h.slot_eq _ (Nat.le_sub_one_of_lt hn)

/-- The buffer `u` is `t` with the slots from `i` to below `j` divided by `c`. -/
structure Divided (R : CoeffRing) (c : Int) (i j : Nat) (t u : Buffer) : Prop
    extends AgreesPast j t u where
  quotient : ∀ k, i ≤ k → k < j → R.exactQuotient (t.slot k) c = .ok (u.slot k)
  slot_eq_of_lt : ∀ k < i, u.slot k = t.slot k

theorem Divided.refl (R : CoeffRing) (c : Int) (i : Nat) (t : Buffer) : Divided R c i i t t where
  size_eq := rfl
  capacity_eq := rfl
  slot_eq _ _ := rfl
  quotient _ hik hki := absurd hik (Nat.not_le.2 hki)
  slot_eq_of_lt _ _ := rfl

variable {c : Int} {i j : Nat}

/-- A slot that holds zero need not be divided. -/
theorem Divided.passed (h : Divided R c (i + 1) j t u) (hc : R.isZero c = false)
    (hzero : t.slot i = 0) : Divided R c i j t u where
  toAgreesPast := h.toAgreesPast
  quotient k hik hkj := by
    rcases Nat.eq_or_lt_of_le hik with rfl | hlt
    · rw [h.slot_eq_of_lt i (Nat.lt_succ_self i), hzero]
      exact CoeffRing.exactQuotient_zero hc
    · exact h.quotient k hlt hkj
  slot_eq_of_lt k hk := h.slot_eq_of_lt k (Nat.lt_succ_of_lt hk)

/-- A slot is divided before those above it. -/
theorem Divided.put {q : Int} (h : Divided R c (i + 1) j (t.put i q) u) (hij : i < j)
    (hi : i < t.capacity) (hq : R.exactQuotient (t.slot i) c = .ok q) : Divided R c i j t u where
  size_eq := h.size_eq
  capacity_eq := h.capacity_eq.trans (t.capacity_put i q)
  slot_eq k hk := by
    rw [h.slot_eq k hk, slot_put, if_neg fun hk' => by omega]
  quotient k hik hkj := by
    rcases Nat.eq_or_lt_of_le hik with rfl | hlt
    · rw [h.slot_eq_of_lt i (Nat.lt_succ_self i), slot_put, if_pos ⟨rfl, hi⟩]
      exact hq
    · have hquotient := h.quotient k hlt hkj
      rwa [slot_put, if_neg fun hk => by omega] at hquotient
  slot_eq_of_lt k hk := by
    rw [h.slot_eq_of_lt k (Nat.lt_succ_of_lt hk), slot_put, if_neg fun hk' => by omega]

/-- How a division of the slots from `i` to below `j` ends: with all of them divided, or at the
    first that `c` does not divide, with those below it divided. -/
inductive DivisionEnds (R : CoeffRing) (c : Int) (i j : Nat) (t : Buffer) :
    EStateM.Result Failure Buffer Unit → Prop
  | divided {u : Buffer} (divided : Divided R c i j t u) : DivisionEnds R c i j t (.ok () u)
  | stopped {k : Nat} {u : Buffer} (le : i ≤ k) (lt : k < j)
      (indivisible : ¬ (c : R.Element) ∣ t.slot k) (divided : Divided R c i k t u) :
      DivisionEnds R c i j t (.error (.faulted (.indivisible (t.slot k) c R)) u)

theorem divisionEnds_divideSlots (hc : R.isZero c = false) (i count : Nat) (t : Buffer) :
    DivisionEnds R c i (i + count) t ((divideSlots R c i count).run t) := by
  induction count generalizing i t with
  | zero => exact .divided (.refl R c i t)
  | succ count ih =>
    rw [run_divideSlots_succ, show i + (count + 1) = i + 1 + count by omega]
    split
    · next hzero =>
      have hends := ih (i + 1) t
      generalize (divideSlots R c (i + 1) count).run t = result at hends ⊢
      cases hends with
      | divided h => exact .divided (h.passed hc hzero)
      | stopped le lt indivisible h => exact .stopped (by omega) lt indivisible (h.passed hc hzero)
    · next hslot =>
      have hi : i < t.capacity := by
        by_contra hi
        exact hslot (t.slot_of_capacity_le (not_lt.1 hi))
      split
      · next q hq =>
        have hends := ih (i + 1) (t.put i q)
        generalize (divideSlots R c (i + 1) count).run (t.put i q) = result at hends ⊢
        cases hends with
        | divided h => exact .divided (h.put (by omega) hi hq)
        | stopped le lt indivisible h =>
          -- The slot where it stops is past the one that has just been divided.
          rw [slot_put, if_neg fun hk => by omega] at indivisible ⊢
          exact .stopped (by omega) lt indivisible (h.put (by omega) hi hq)
      · next e hq =>
        rw [CoeffRing.eq_indivisible_of_exactQuotient hc hq]
        exact .stopped le_rfl (by omega) (CoeffRing.not_dvd_of_exactQuotient hc hq) (.refl R c i t)

/-- By a scalar that is not zero, an exact division of the coefficients ends with all of them
    divided and trimmed, or stops at the first that the scalar does not divide. -/
theorem unscale_cases (hc : R.isZero c = false) (t : Buffer) :
    (∃ u, (unscale R c).run t = .ok () (u.trim R) ∧ Divided R c 0 t.size t u) ∨
      ∃ k u, (unscale R c).run t = .error (.faulted (.indivisible (t.slot k) c R)) u ∧
        k < t.size ∧ (¬ (c : R.Element) ∣ t.slot k) ∧ Divided R c 0 k t u := by
  have hends := divisionEnds_divideSlots hc 0 t.size t
  rw [Nat.zero_add] at hends
  rw [run_unscale, if_neg (by simp [hc])]
  generalize (divideSlots R c 0 t.size).run t = result at hends ⊢
  cases hends with
  | divided h => exact .inl ⟨_, rfl, h⟩
  | stopped _ lt indivisible h => exact .inr ⟨_, _, rfl, lt, indivisible, h⟩

theorem run_unscale_of_isZero (hc : R.isZero c = true) (t : Buffer) :
    (unscale R c).run t = .error (.refused .zeroScalar) t := by
  rw [run_unscale, if_pos hc]

theorem keeps_unscale (R : CoeffRing) (c : Int) : (unscale R c).Keeps (Sound n P) := by
  intro t h
  cases hc : R.isZero c with
  | true =>
    rw [Action.leaves_of_run_error (run_unscale_of_isZero hc t)]
    exact h
  | false =>
    rcases unscale_cases hc t with ⟨u, hrun, hu⟩ | ⟨k, u, hrun, hk, -, hu⟩
    · rw [Action.leaves_of_run_ok hrun]
      exact (hu.wellFormed le_rfl h.toWellFormed).sound_trim (hu.capacity_eq.trans h.capacity_eq)
    · rw [Action.leaves_of_run_error hrun]
      refine ⟨hu.wellFormed hk.le h.toWellFormed, hu.capacity_eq.trans h.capacity_eq, fun hP => ?_⟩
      -- The division stopped at a significant slot, so the highest one is as it was.
      change u.size = 1 ∨ u.leading ≠ 0
      rw [hu.size_eq, hu.leading_eq hk]
      exact h.trimmed hP

end Univariate.Buffer
