import Univariate.Buffer.Edit
import Univariate.Buffer.Slots
import Univariate.Poly.Basic

/-!
# Accumulation

Edits that add a multiple of a polynomial to the polynomial in a buffer, or subtract one. Each
finds the highest exponent it will write, asks for its slot, accumulates slot by slot in the ring,
and then settles the size: up to that exponent, and down again past what cancelled.

* The multiplied polynomial is a `Poly`, over whose ring the edit works, or another buffer, with
  the ring given.
* The multiplier is a scalar, a machine integer, a term, or a whole buffer
  (`Buffer.subProduct`).
* The integers in slots that are not written need not be canonical, and stay as they are.
-/

namespace Univariate.Buffer

/-! ## Slot by slot -/

/-- Adds `c * x ^ shift` times each of the terms. -/
def addTerms (t : Buffer) (R : CoeffRing) (terms : List Term) (c : Int) (shift : Nat) : Buffer :=
  terms.foldl (fun t a => t.update (a.degree + shift) (R.addMul · a.coefficient c)) t

/-- Adds `c` times each of the terms, for a machine integer `c`. -/
def addTermsInt64 (t : Buffer) (R : CoeffRing) (terms : List Term) (c : Int64) : Buffer :=
  terms.foldl (fun t a => t.update a.degree (R.addMulInt · a.coefficient c)) t

/-- Subtracts `c * x ^ shift` times each of the terms. -/
def subTerms (t : Buffer) (R : CoeffRing) (terms : List Term) (c : Int) (shift : Nat) : Buffer :=
  terms.foldl (fun t a => t.update (a.degree + shift) (R.subMul · a.coefficient c)) t

/-- Subtracts the term `a` times each significant non-zero coefficient of `source`. -/
def subShifted (t : Buffer) (R : CoeffRing) (source : Buffer) (a : Term) : Buffer :=
  { t with slots := t.slots.mapIdx fun i acc =>
      if a.degree ≤ i ∧ i - a.degree < source.size ∧ source.slot (i - a.degree) ≠ 0 then
        R.subMul acc (source.slot (i - a.degree)) a.coefficient
      else
        acc }

/-- Subtracts `q` times each significant non-zero coefficient of `p`, from the constant one up. -/
def subRows (t : Buffer) (R : CoeffRing) (p q : Buffer) : Buffer :=
  (List.range p.size).foldl
    (fun t i => if p.slot i = 0 then t else t.subShifted R q ⟨i, p.slot i⟩) t

/-! ## Edits -/

/-- Adds `c` times `source`. -/
def addMultiple (source : Poly) (c : Int) : Edit Unit := do
  if source.ring.isZero c then
    Action.refuse .zeroScalar
  requireSlot source.degree
  modify fun t =>
    (t.addTerms source.ring source.terms c 0).resize source.ring source.degree

/-- Adds `c` times `source`, for a machine integer `c`. -/
def addMultipleInt64 (source : Poly) (c : Int64) : Edit Unit := do
  if source.ring.isZero c.toInt then
    Action.refuse .zeroScalar
  requireSlot source.degree
  modify fun t =>
    (t.addTermsInt64 source.ring source.terms c).resize source.ring source.degree

/-- Adds the term `a` times `source`. -/
def addTermMultiple (source : Poly) (a : Term) : Edit Unit := do
  if a.isTrivial then
    Action.refuse .trivialMultiplier
  let degree ← Action.give (addDegrees source.degree a.degree)
  requireSlot degree
  modify fun t =>
    (t.addTerms source.ring source.terms a.coefficient a.degree).resize source.ring degree

/-- Subtracts the term `a` times `source`. -/
def subTermMultiple (source : Poly) (a : Term) : Edit Unit := do
  if a.isTrivial then
    Action.refuse .trivialMultiplier
  let degree ← Action.give (addDegrees source.degree a.degree)
  requireSlot degree
  modify fun t =>
    (t.subTerms source.ring source.terms a.coefficient a.degree).resize source.ring degree

/-- Subtracts the term `a` times the polynomial in the buffer `source`. -/
def subBufferMultiple (R : CoeffRing) (source : Buffer) (a : Term) : Edit Unit := do
  if a.isTrivial then
    Action.refuse .trivialMultiplier
  if source.isZero then
    return
  let degree ← Action.give (addDegrees source.degree a.degree)
  requireSlot degree
  modify fun t => (t.subShifted R source a).resize R degree

/-- Subtracts the product of the polynomials in the buffers `p` and `q`. -/
def subProduct (R : CoeffRing) (p q : Buffer) : Edit Unit := do
  if p.isZero || q.isZero then
    return
  let degree ← Action.give (addDegrees p.degree q.degree)
  requireSlot degree
  modify fun t => (t.subRows R p q).resize R degree

/-! ## What accumulation changes -/

theorem capacity_foldl_update {α : Type} (items : List α) (i : α → Nat) (f : α → Int → Int)
    (t : Buffer) :
    (items.foldl (fun t a => t.update (i a) (f a)) t).capacity = t.capacity := by
  induction items generalizing t with
  | nil => rfl
  | cons a items ih => rw [List.foldl_cons, ih, capacity_update]

@[simp] theorem capacity_addTerms (t : Buffer) (R : CoeffRing) (terms : List Term) (c : Int)
    (shift : Nat) : (t.addTerms R terms c shift).capacity = t.capacity :=
  capacity_foldl_update ..

@[simp] theorem capacity_subTerms (t : Buffer) (R : CoeffRing) (terms : List Term) (c : Int)
    (shift : Nat) : (t.subTerms R terms c shift).capacity = t.capacity :=
  capacity_foldl_update ..

@[simp] theorem capacity_subShifted (t : Buffer) (R : CoeffRing) (source : Buffer) (a : Term) :
    (t.subShifted R source a).capacity = t.capacity := by
  simp [subShifted, capacity]

@[simp] theorem capacity_subRows (t : Buffer) (R : CoeffRing) (p q : Buffer) :
    (t.subRows R p q).capacity = t.capacity := by
  unfold subRows
  induction List.range p.size generalizing t with
  | nil => rfl
  | cons i is ih =>
    rw [List.foldl_cons, ih]
    split
    · rfl
    · exact capacity_subShifted ..

/-- Subtracting a multiple of a buffer changes the slots of its shifted non-zero coefficients. -/
theorem slot_subShifted (t : Buffer) (R : CoeffRing) (source : Buffer) (a : Term) (i : Nat) :
    (t.subShifted R source a).slot i =
      if i < t.capacity ∧ a.degree ≤ i ∧ i - a.degree < source.size ∧
          source.slot (i - a.degree) ≠ 0 then
        R.subMul (t.slot i) (source.slot (i - a.degree)) a.coefficient
      else
        t.slot i := by
  simp only [slot, subShifted, capacity, Array.getElem?_mapIdx]
  grind

/-! ## Machine integers -/

/-- The loop over machine integers computes as the one over integers does. -/
theorem addTermsInt64_eq (t : Buffer) (R : CoeffRing) (terms : List Term) (c : Int64) :
    t.addTermsInt64 R terms c = t.addTerms R terms c.toInt 0 :=
  rfl

theorem addMultipleInt64_eq (source : Poly) (c : Int64) :
    addMultipleInt64 source c = addMultiple source c.toInt := by
  simp only [addMultipleInt64, addMultiple, addTermsInt64_eq]

/-! ## What an edit leaves -/

theorem run_addMultiple (source : Poly) (c : Int) (t : Buffer) :
    (addMultiple source c).run t =
      if source.ring.isZero c then
        .error (.refused .zeroScalar) t
      else if t.capacity ≤ source.degree then
        .error (.refused (.noSlotFor source.degree t.capacity)) t
      else
        .ok () ((t.addTerms source.ring source.terms c 0).resize source.ring source.degree) := by
  by_cases h : source.ring.isZero c <;> by_cases h' : t.capacity ≤ source.degree <;>
    simp [addMultiple, run_requireSlot, h, h']

theorem run_addTermMultiple (source : Poly) (a : Term) (t : Buffer) :
    (addTermMultiple source a).run t =
      if a.isTrivial then
        .error (.refused .trivialMultiplier) t
      else
        match addDegrees source.degree a.degree with
        | .error e => .error e t
        | .ok degree =>
          if t.capacity ≤ degree then
            .error (.refused (.noSlotFor degree t.capacity)) t
          else
            .ok () ((t.addTerms source.ring source.terms a.coefficient a.degree).resize
              source.ring degree) := by
  cases hd : addDegrees source.degree a.degree with
  | error e => by_cases h : a.isTrivial <;> simp [addTermMultiple, hd, h]
  | ok d =>
    by_cases h : a.isTrivial <;> by_cases h' : t.capacity ≤ d <;>
      simp [addTermMultiple, run_requireSlot, hd, h, h']

theorem run_subTermMultiple (source : Poly) (a : Term) (t : Buffer) :
    (subTermMultiple source a).run t =
      if a.isTrivial then
        .error (.refused .trivialMultiplier) t
      else
        match addDegrees source.degree a.degree with
        | .error e => .error e t
        | .ok degree =>
          if t.capacity ≤ degree then
            .error (.refused (.noSlotFor degree t.capacity)) t
          else
            .ok () ((t.subTerms source.ring source.terms a.coefficient a.degree).resize
              source.ring degree) := by
  cases hd : addDegrees source.degree a.degree with
  | error e => by_cases h : a.isTrivial <;> simp [subTermMultiple, hd, h]
  | ok d =>
    by_cases h : a.isTrivial <;> by_cases h' : t.capacity ≤ d <;>
      simp [subTermMultiple, run_requireSlot, hd, h, h']

theorem run_subBufferMultiple (R : CoeffRing) (source : Buffer) (a : Term) (t : Buffer) :
    (subBufferMultiple R source a).run t =
      if a.isTrivial then
        .error (.refused .trivialMultiplier) t
      else if source.isZero then
        .ok () t
      else
        match addDegrees source.degree a.degree with
        | .error e => .error e t
        | .ok degree =>
          if t.capacity ≤ degree then
            .error (.refused (.noSlotFor degree t.capacity)) t
          else
            .ok () ((t.subShifted R source a).resize R degree) := by
  cases hd : addDegrees source.degree a.degree with
  | error e =>
    by_cases h : a.isTrivial <;> by_cases h' : source.isZero <;>
      simp [subBufferMultiple, hd, h, h']
  | ok d =>
    by_cases h : a.isTrivial <;> by_cases h' : source.isZero <;>
      by_cases h'' : t.capacity ≤ d <;>
      simp [subBufferMultiple, run_requireSlot, hd, h, h', h'']

theorem run_subProduct (R : CoeffRing) (p q t : Buffer) :
    (subProduct R p q).run t =
      if p.isZero || q.isZero then
        .ok () t
      else
        match addDegrees p.degree q.degree with
        | .error e => .error e t
        | .ok degree =>
          if t.capacity ≤ degree then
            .error (.refused (.noSlotFor degree t.capacity)) t
          else
            .ok () ((t.subRows R p q).resize R degree) := by
  cases hd : addDegrees p.degree q.degree with
  | error e => by_cases h : p.isZero || q.isZero <;> simp [subProduct, hd, h]
  | ok d =>
    by_cases h : p.isZero || q.isZero <;> by_cases h' : t.capacity ≤ d <;>
      simp [subProduct, run_requireSlot, hd, h, h']

end Univariate.Buffer
