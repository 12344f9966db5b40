import Mathlib.Data.List.Nodup
import Univariate.Poly.Basic
import Univariate.Proofs.Elements

/-!
# The coefficients of a polynomial

A polynomial is read through its coefficients (`Poly.coeff`): they are canonical, they vanish past
the degree, the one at the degree does not unless the polynomial is zero, and two polynomials over a
ring that have the same coefficients are equal (`Poly.ext_coeff`).

Terms that are written to cleared slots leave the coefficients in them (`Poly.scatter_cleared`). The
coefficients of what is constructed are those it is given, reduced into the ring
(`Poly.coeff_ofSlots`, `Poly.coeff_neg`).
-/

namespace Univariate

namespace Poly

variable {p q : Poly} {a b : Term} {d : Nat}

/-- There is one term for each exponent. -/
theorem eq_of_degree_eq (ha : a ∈ p.terms) (hb : b ∈ p.terms) (h : a.degree = b.degree) :
    a = b :=
  List.inj_on_of_nodup_map (List.pairwise_map.2 (p.ascending.imp Nat.ne_of_lt)) ha hb h

theorem coeff_of_mem (ha : a ∈ p.terms) : p.coeff a.degree = a.coefficient := by
  rw [coeff]
  split
  · next b hb =>
    have hd : b.degree = a.degree := by simpa using List.find?_some hb
    rw [eq_of_degree_eq (List.mem_of_find?_eq_some hb) ha hd]
  · next hnone => exact absurd (beq_self_eq_true a.degree) (List.find?_eq_none.1 hnone a ha)

/-- A coefficient that is not zero is that of a term. -/
theorem mem_of_coeff_ne_zero (h : p.coeff d ≠ 0) : ⟨d, p.coeff d⟩ ∈ p.terms := by
  rw [coeff] at h ⊢
  split at h
  · next b hb =>
    have hd : b.degree = d := by simpa using List.find?_some hb
    exact hd ▸ List.mem_of_find?_eq_some hb
  · exact absurd rfl h

theorem mem_terms_iff : a ∈ p.terms ↔ p.coeff a.degree = a.coefficient ∧ a.coefficient ≠ 0 := by
  constructor
  · intro ha
    exact ⟨coeff_of_mem ha, (p.canonical a ha).2⟩
  · rintro ⟨h, hne⟩
    have := mem_of_coeff_ne_zero (h.trans_ne hne)
    rwa [h] at this

theorem contains_coeff (p : Poly) (d : Nat) : p.ring.contains (p.coeff d) = true := by
  by_cases h : p.coeff d = 0
  · rw [h]
    exact p.ring.contains_zero
  · exact (p.canonical _ (mem_of_coeff_ne_zero h)).1

/-! ## The degree -/

theorem terms_eq_nil_of_isZero (h : p.isZero = true) : p.terms = [] :=
  List.isEmpty_iff.1 h

theorem degree_of_isZero (h : p.isZero = true) : p.degree = 0 := by
  rw [degree, terms_eq_nil_of_isZero h, List.getLast?_nil]

/-- The last term is that of the degree. -/
theorem exists_terms_eq_append (h : p.isZero = false) :
    ∃ init a, p.terms = init ++ [a] ∧ a.degree = p.degree := by
  cases hlast : p.terms.getLast? with
  | none =>
    rw [isZero, List.getLast?_eq_none_iff.1 hlast] at h
    cases h
  | some a =>
    obtain ⟨init, hterms⟩ := List.getLast?_eq_some_iff.1 hlast
    exact ⟨init, a, hterms, by rw [degree, hlast]⟩

theorem degree_le_of_mem (ha : a ∈ p.terms) : a.degree ≤ p.degree := by
  have hp : p.isZero = false := by
    rw [isZero, List.isEmpty_eq_false_iff]
    exact List.ne_nil_of_mem ha
  obtain ⟨init, b, hterms, hb⟩ := exists_terms_eq_append hp
  have hasc := p.ascending
  rw [hterms, List.pairwise_append] at hasc
  rw [hterms, List.mem_append, List.mem_singleton] at ha
  rcases ha with ha | rfl
  · exact hb ▸ Nat.le_of_lt (hasc.2.2 a ha b List.mem_cons_self)
  · exact Nat.le_of_eq hb

theorem coeff_eq_zero_of_degree_lt (h : p.degree < d) : p.coeff d = 0 := by
  by_contra hne
  exact Nat.not_lt.2 (degree_le_of_mem (mem_of_coeff_ne_zero hne)) h

theorem coeff_degree_ne_zero (h : p.isZero = false) : p.coeff p.degree ≠ 0 := by
  obtain ⟨init, a, hterms, ha⟩ := exists_terms_eq_append h
  have hmem : a ∈ p.terms := by simp [hterms]
  rw [← ha, coeff_of_mem hmem]
  exact (p.canonical a hmem).2

/-- The degree is the exponent of the last coefficient that is not zero. -/
theorem degree_eq_of_coeff (h : p.coeff d ≠ 0) (hlast : ∀ i, d < i → p.coeff i = 0) :
    p.degree = d := by
  refine le_antisymm (not_lt.1 fun hlt => ?_)
    (not_lt.1 fun hlt => h (coeff_eq_zero_of_degree_lt hlt))
  cases hz : p.isZero with
  | true =>
    rw [degree_of_isZero hz] at hlt
    exact Nat.not_lt_zero d hlt
  | false => exact coeff_degree_ne_zero hz (hlast _ hlt)

/-- The leading coefficient is the one of the degree, of a polynomial that is not zero. -/
theorem leading?_eq_some_iff {c : Int} :
    p.leading? = some c ↔ p.isZero = false ∧ p.coeff p.degree = c := by
  cases hz : p.isZero with
  | true =>
    rw [leading?, terms_eq_nil_of_isZero hz]
    simp
  | false =>
    obtain ⟨init, a, hterms, ha⟩ := exists_terms_eq_append hz
    have hmem : a ∈ p.terms := by simp [hterms]
    rw [← ha, coeff_of_mem hmem, leading?, hterms, List.getLast?_concat]
    simp

/-- A polynomial over a ring is determined by its coefficients. -/
theorem ext_coeff (hring : p.ring = q.ring) (h : ∀ d, p.coeff d = q.coeff d) : p = q := by
  -- The terms are the same, and both lists have them in the same order.
  have hmem : ∀ a, a ∈ p.terms ↔ a ∈ q.terms := fun a => by
    rw [mem_terms_iff, mem_terms_iff, h]
  have hnodup : ∀ p : Poly, p.terms.Nodup := fun p =>
    p.ascending.imp fun {a b} hlt (e : a = b) => Nat.ne_of_lt hlt (e ▸ rfl)
  have hperm := (List.perm_ext_iff_of_nodup (hnodup p) (hnodup q)).2 hmem
  have hterms : p.terms = q.terms :=
    hperm.eq_of_pairwise (fun _ _ _ _ hab hba => absurd hab (Nat.lt_asymm hba))
      p.ascending q.ascending
  obtain ⟨R, ts, _, _⟩ := p
  obtain ⟨R', ts', _, _⟩ := q
  obtain rfl : R = R' := hring
  obtain rfl : ts = ts' := hterms
  rfl

end Poly

/-! ## Terms in slots -/

namespace Term

variable {terms : List Term} {slots : Array Int}

/-- Writing terms leaves the slots alone that are those of no term. -/
theorem getElem?_foldl_set_of_forall_ne {i : Nat} (h : ∀ a ∈ terms, a.degree ≠ i) :
    (terms.foldl (fun slots a => slots.setIfInBounds a.degree a.coefficient) slots)[i]? =
      slots[i]? := by
  induction terms generalizing slots with
  | nil => rfl
  | cons a as ih =>
    rw [List.forall_mem_cons] at h
    rw [List.foldl_cons, ih h.2, Array.getElem?_setIfInBounds_ne h.1]

/-- Of terms that are written in ascending order, each one stays in its slot. -/
theorem getElem?_foldl_set_of_mem {a : Term} (hascending : terms.Pairwise (·.degree < ·.degree))
    (ha : a ∈ terms) :
    (terms.foldl (fun slots a => slots.setIfInBounds a.degree a.coefficient) slots)[a.degree]? =
      slots[a.degree]?.map fun _ => a.coefficient := by
  induction terms generalizing slots with
  | nil => cases ha
  | cons b bs ih =>
    rw [List.pairwise_cons] at hascending
    rw [List.foldl_cons]
    rcases List.mem_cons.1 ha with rfl | ha
    · rw [getElem?_foldl_set_of_forall_ne fun c hc => (hascending.1 c hc).ne',
        Array.getElem?_setIfInBounds_self]
      by_cases hi : a.degree < slots.size <;> simp [hi]
    · rw [ih hascending.2 ha, Array.getElem?_setIfInBounds_ne (hascending.1 a ha).ne]

end Term

namespace Poly

/-- The coefficients that are not zero are written to their slots. -/
theorem scatter_eq (p : Poly) (slots : Array Int) :
    p.scatter slots = slots.mapIdx fun i c => if p.coeff i = 0 then c else p.coeff i := by
  refine Array.ext_getElem? fun i => ?_
  rw [Array.getElem?_mapIdx]
  by_cases hi : p.coeff i = 0
  · -- No term has this exponent, for the coefficient of a term is not zero.
    have hne : ∀ a ∈ p.terms, a.degree ≠ i := fun a ha had =>
      (p.canonical a ha).2 (by rw [← coeff_of_mem ha, had, hi])
    rw [scatter, Term.getElem?_foldl_set_of_forall_ne hne]
    simp only [if_pos hi, Option.map_id']
  · simp only [if_neg hi]
    exact Term.getElem?_foldl_set_of_mem p.ascending (mem_of_coeff_ne_zero hi)

/-- Written to slots that are zero up to that of the degree, the terms make the coefficients. -/
theorem scatter_cleared (p : Poly) (slots : Array Int) :
    p.scatter (slots.mapIdx fun i c => if i ≤ p.degree then 0 else c) =
      slots.mapIdx fun i c => if i ≤ p.degree then p.coeff i else c := by
  rw [scatter_eq, Array.mapIdx_mapIdx]
  refine congrArg (slots.mapIdx ·) (funext fun i => funext fun c => ?_)
  by_cases hi : i ≤ p.degree
  · by_cases hzero : p.coeff i = 0 <;> simp [hi, hzero]
  · simp [hi, coeff_eq_zero_of_degree_lt (Nat.lt_of_not_le hi)]

end Poly

/-! ## Constructions -/

namespace Term

/-- A list of coefficients holds them at consecutive exponents. -/
theorem mem_listFrom {a : Term} {d : Nat} {cs : List Int} :
    a ∈ listFrom d cs ↔ d ≤ a.degree ∧ cs[a.degree - d]? = some a.coefficient := by
  induction cs generalizing d with
  | nil => simp [listFrom]
  | cons c cs ih =>
    rw [listFrom, List.mem_cons, ih]
    rcases Nat.lt_trichotomy a.degree d with hlt | heq | hgt
    · constructor
      · rintro (rfl | ⟨hle, _⟩)
        · exact absurd hlt (Nat.lt_irrefl d)
        · omega
      · rintro ⟨hle, _⟩
        omega
    · subst heq
      constructor
      · rintro (h | ⟨hle, _⟩)
        · rw [h]
          simp
        · omega
      · rintro ⟨_, h⟩
        rw [Nat.sub_self, List.getElem?_cons_zero, Option.some.injEq] at h
        exact .inl (by rw [h])
    · have hsub : a.degree - d = a.degree - (d + 1) + 1 := by omega
      rw [hsub, List.getElem?_cons_succ]
      constructor
      · rintro (rfl | ⟨_, h⟩)
        · exact absurd hgt (Nat.lt_irrefl d)
        · exact ⟨Nat.le_of_lt hgt, h⟩
      · rintro ⟨_, h⟩
        exact .inr ⟨hgt, h⟩

end Term

namespace Poly

variable {R : CoeffRing}

section OfAscending

variable {terms : List Term} {ascending : terms.Pairwise (·.degree < ·.degree)}

theorem mem_terms_ofAscending {b : Term} :
    b ∈ (ofAscending R terms ascending).terms ↔
      ∃ a ∈ terms, Term.ofInt R a.degree a.coefficient = b ∧ b.coefficient ≠ 0 := by
  rw [ofAscending, List.mem_filter, List.mem_map, decide_eq_true_eq]
  exact ⟨fun ⟨⟨a, ha, h⟩, hb⟩ => ⟨a, ha, h, hb⟩, fun ⟨a, ha, h, hb⟩ => ⟨⟨a, ha, h⟩, hb⟩⟩

/-- The coefficient at the exponent of a term is that of the term, reduced into the ring. -/
theorem coeff_ofAscending_of_mem {a : Term} (ha : a ∈ terms) :
    (ofAscending R terms ascending).coeff a.degree = R.normalize a.coefficient := by
  by_cases hzero : R.normalize a.coefficient = 0
  · -- A term that vanishes in the ring is dropped, and there is no other with its exponent.
    rw [hzero]
    by_contra hne
    obtain ⟨b, hb, h, _⟩ := mem_terms_ofAscending.1 (mem_of_coeff_ne_zero hne)
    rw [Term.ofInt, Term.mk.injEq] at h
    have hab : b = a := List.inj_on_of_nodup_map
      (List.pairwise_map.2 (ascending.imp Nat.ne_of_lt)) hb ha h.1
    exact hne (by rw [← h.2, hab, hzero])
  · exact coeff_of_mem (mem_terms_ofAscending.2 ⟨a, ha, rfl, hzero⟩)

/-- There is no coefficient at another exponent. -/
theorem coeff_ofAscending_of_forall_ne {d : Nat} (h : ∀ a ∈ terms, a.degree ≠ d) :
    (ofAscending R terms ascending).coeff d = 0 := by
  by_contra hne
  obtain ⟨a, ha, hab, _⟩ := mem_terms_ofAscending.1 (mem_of_coeff_ne_zero hne)
  exact h a ha (congrArg Term.degree hab)

end OfAscending

theorem coeff_ofSlots (R : CoeffRing) (cs : List Int) (i : Nat) :
    (ofSlots R cs).coeff i = R.normalize (cs[i]?.getD 0) := by
  cases hi : cs[i]? with
  | some c => exact coeff_ofAscending_of_mem (a := ⟨i, c⟩) (Term.mem_listFrom.2 ⟨Nat.zero_le i, hi⟩)
  | none =>
    rw [Option.getD_none, CoeffRing.normalize_of_contains R.contains_zero, ofSlots]
    refine coeff_ofAscending_of_forall_ne fun a ha had => ?_
    have hmem := (Term.mem_listFrom.1 ha).2
    rw [had, Nat.sub_zero, hi] at hmem
    cases hmem

/-- What lists the coefficients up to the degree has them all. -/
theorem coeff_ofSlots_coefficients (R : CoeffRing) (p : Poly) (i : Nat) :
    (ofSlots R ((List.range (p.degree + 1)).map p.coeff)).coeff i = R.normalize (p.coeff i) := by
  rw [coeff_ofSlots, List.getElem?_map]
  by_cases hi : i < p.degree + 1
  · rw [List.getElem?_range hi]
    rfl
  · rw [List.getElem?_eq_none (by simpa using hi), coeff_eq_zero_of_degree_lt (by omega)]
    rfl

theorem toCoefficients_eq {p : Poly} (hword : p.degree + 1 < degreeBound) :
    p.toCoefficients = .ok ((List.range (p.degree + 1)).map p.coeff) := by
  have hlist : (p.scatter (.replicate (p.degree + 1) 0)).toList =
      (List.range (p.degree + 1)).map p.coeff := by
    rw [scatter_eq]
    refine List.ext_getElem (by simp) fun i _ _ => ?_
    by_cases hzero : p.coeff i = 0 <;> simp [hzero]
  rw [toCoefficients, addDegrees, if_pos hword, ← hlist]
  rfl

theorem toCoefficients_eq_error {p : Poly} (hword : ¬p.degree + 1 < degreeBound) :
    p.toCoefficients = .error (.faulted .degreeOverflow) := by
  rw [toCoefficients, addDegrees, if_neg hword]
  rfl

theorem coeff_neg (p : Poly) (d : Nat) : p.neg.coeff d = p.ring.normalize (-p.coeff d) := by
  by_cases hzero : p.coeff d = 0
  · rw [hzero, neg_zero, CoeffRing.normalize_of_contains p.ring.contains_zero, neg]
    refine coeff_ofAscending_of_forall_ne fun a ha had => ?_
    obtain ⟨b, hb, rfl⟩ := List.mem_map.1 ha
    exact (p.canonical b hb).2 (by rw [← coeff_of_mem hb, ← hzero, ← had])
  · exact coeff_ofAscending_of_mem (a := ⟨d, -p.coeff d⟩)
      (List.mem_map.2 ⟨_, mem_of_coeff_ne_zero hzero, rfl⟩)

end Poly

end Univariate
