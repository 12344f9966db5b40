import Univariate.Buffer.Basic

/-!
# Slots after an edit

What the pure edits do to a buffer, slot by slot, and that none of them changes the capacity. A
buffer is determined by its size, its capacity and its slots (`Buffer.ext_slot`).
-/

namespace Univariate.Buffer

variable (t : Buffer)

/-- There is nothing beyond the capacity. -/
theorem slot_of_capacity_le {i : Nat} (h : t.capacity ≤ i) : t.slot i = 0 := by
  rw [slot, Array.getElem?_eq_none h, Option.getD_none]

/-- Buffers with the same size, capacity and slots are equal. -/
theorem ext_slot {t u : Buffer} (size : t.size = u.size) (capacity : t.capacity = u.capacity)
    (slot : ∀ i, t.slot i = u.slot i) : t = u := by
  obtain ⟨n, a⟩ := t
  obtain ⟨m, b⟩ := u
  obtain rfl : n = m := size
  congr 1
  refine Array.ext capacity fun i hi hj => ?_
  simpa [Buffer.slot, hi, hj] using slot i

/-! ## Capacities -/

@[simp] theorem capacity_put (i : Nat) (c : Int) : (t.put i c).capacity = t.capacity := by
  simp [put, capacity]

@[simp] theorem capacity_update (i : Nat) (f : Int → Int) :
    (t.update i f).capacity = t.capacity := by
  simp [update, capacity]

@[simp] theorem capacity_zeroRange (lo hi : Nat) : (t.zeroRange lo hi).capacity = t.capacity := by
  simp [zeroRange, capacity]

@[simp] theorem capacity_mapNonzero (f : Int → Int) :
    (t.mapNonzero f).capacity = t.capacity := by
  simp [mapNonzero, capacity]

@[simp] theorem capacity_trim (R : CoeffRing) : (t.trim R).capacity = t.capacity :=
  t.capacity_zeroRange _ _

@[simp] theorem capacity_clear : t.clear.capacity = t.capacity :=
  t.capacity_zeroRange _ _

@[simp] theorem capacity_resize (R : CoeffRing) (degree : Nat) :
    (t.resize R degree).capacity = t.capacity :=
  capacity_trim _ R

/-! ## Slots -/

/-- A slot that was put holds what was put there. -/
theorem slot_put (i j : Nat) (c : Int) :
    (t.put i c).slot j = if i = j ∧ j < t.capacity then c else t.slot j := by
  simp only [slot, put, capacity, Array.getElem?_setIfInBounds]
  grind

/-- An update changes one slot. -/
theorem slot_update (i j : Nat) (f : Int → Int) :
    (t.update i f).slot j = if i = j ∧ j < t.capacity then f (t.slot j) else t.slot j := by
  simp only [slot, update, capacity, Array.getElem?_modify]
  grind

/-- The slots of a range are zeroed, the others stay. -/
theorem slot_zeroRange (lo hi i : Nat) :
    (t.zeroRange lo hi).slot i = if lo ≤ i ∧ i < hi then 0 else t.slot i := by
  simp only [slot, zeroRange, Array.getElem?_mapIdx]
  grind

/-- The non-zero significant coefficients are mapped, the other slots stay. -/
theorem slot_mapNonzero (f : Int → Int) (i : Nat) :
    (t.mapNonzero f).slot i = if i < t.size ∧ t.slot i ≠ 0 then f (t.slot i) else t.slot i := by
  simp only [slot, mapNonzero, Array.getElem?_mapIdx]
  grind

/-- A trimmed buffer holds zero where coefficients were dropped. -/
theorem slot_trim (R : CoeffRing) (i : Nat) :
    (t.trim R).slot i = if trimmedSize R t t.size ≤ i ∧ i < t.size then 0 else t.slot i :=
  t.slot_zeroRange _ _ i

/-- A cleared buffer holds zero where coefficients were significant. -/
theorem slot_clear (i : Nat) : t.clear.slot i = if i < t.size then 0 else t.slot i :=
  (t.slot_zeroRange 0 t.size i).trans (by simp)

/-! ## Trimming -/

/-- Trimming never raises the size. -/
theorem trimmedSize_le (R : CoeffRing) (n : Nat) : trimmedSize R t n ≤ n := by
  fun_induction trimmedSize R t n with
  | case1 n _ ih => omega
  | case2 => exact Nat.le_refl _
  | case3 => exact Nat.le_refl _

/-- Trimming leaves a significant slot. -/
theorem one_le_trimmedSize (R : CoeffRing) {n : Nat} (hn : 1 ≤ n) : 1 ≤ trimmedSize R t n := by
  fun_induction trimmedSize R t n with
  | case1 n _ ih => exact ih (by omega)
  | case2 => omega
  | case3 => exact hn

/-- What trimming drops is zero in the ring. -/
theorem isZero_of_trimmedSize_le (R : CoeffRing) {n i : Nat} (h : trimmedSize R t n ≤ i)
    (hi : i < n) : R.isZero (t.slot i) = true := by
  fun_induction trimmedSize R t n with
  | case1 n hz ih =>
    rcases Nat.lt_succ_iff_lt_or_eq.1 hi with hi | rfl
    · exact ih h hi
    · exact hz
  | case2 => omega
  | case3 => omega

/-- The coefficient at which trimming stops is not zero in the ring, or is the constant one. -/
theorem trimmedSize_stop (R : CoeffRing) (n : Nat) :
    trimmedSize R t n ≤ 1 ∨ R.isZero (t.slot (trimmedSize R t n - 1)) = false := by
  fun_induction trimmedSize R t n with
  | case1 n _ ih => exact ih
  | case2 n hz => exact .inr (by simpa using hz)
  | case3 n hn =>
    match n with
    | 0 => exact .inl (Nat.zero_le 1)
    | 1 => exact .inl (Nat.le_refl 1)
    | k + 2 => exact (hn k rfl).elim

end Univariate.Buffer
