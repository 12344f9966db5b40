import Mathlib.Algebra.BigOperators.Group.List.Basic
import Univariate.Poly.Collection
import Univariate.Proofs.SparseArithmetic

/-!
# Merged terms

Terms that are collected into a polynomial sum up exponent by exponent: the coefficient at `d` is
the canonical representative of the sum of all coefficients that are given there, whatever order
they come in, and whatever they cancel to on the way.

* `Term.total` is that sum, over the integers. Entering a term into a list that already has one for
  its exponent reduces their sum, but keeps the element that the total stands for
  (`Term.cast_total_enter`), and so does collecting (`Term.cast_total_collect`).
* What is collected is canonical and only loses its zeros (`Poly.ofTerms_eq_ofAscending`). An
  ascending list has one term at most for each exponent, so that its total is a coefficient
  (`Poly.coeff_ofAscending`).
* `Poly.ofTerms_merges` collects what follows from the coefficients (`Poly.coeff_ofTerms`).
-/

namespace Univariate

variable {R : CoeffRing}

/-- The canonical representative is zero only where the element is. -/
theorem CoeffRing.normalize_ne_zero_iff {x : Int} : R.normalize x ≠ 0 ↔ R.isZero x = false := by
  rw [isZero_eq_false_iff, ← cast_normalize R x, not_iff_not]
  refine ⟨fun h => by rw [h, Int.cast_zero], fun h => ?_⟩
  exact eq_zero_of_cast_eq_zero (contains_normalize R x) h

namespace Term

variable {d : Nat} {a : Term} {as bs : List Term}

/-- The sum of the coefficients of the terms with the exponent `d`. -/
def total (d : Nat) (terms : List Term) : Int :=
  ((terms.filter (·.degree = d)).map (·.coefficient)).sum

@[simp] theorem total_nil (d : Nat) : total d [] = 0 :=
  rfl

theorem total_cons (d : Nat) (a : Term) (as : List Term) :
    total d (a :: as) = (if a.degree = d then a.coefficient else 0) + total d as := by
  rw [total, List.filter_cons]
  split_ifs with h h' h'
  · rw [List.map_cons, List.sum_cons, total]
  · exact absurd (by simpa using h) h'
  · exact absurd (by simpa using h') h
  · rw [zero_add, total]

theorem total_append (d : Nat) (as bs : List Term) :
    total d (as ++ bs) = total d as + total d bs := by
  rw [total, List.filter_append, List.map_append, List.sum_append, total, total]

/-- The order of the terms does not matter. -/
theorem total_perm (h : as.Perm bs) (d : Nat) : total d as = total d bs :=
  ((h.filter _).map _).sum_eq

theorem total_of_forall_ne (h : ∀ a ∈ as, a.degree ≠ d) : total d as = 0 := by
  rw [total, List.filter_eq_nil_iff.2 fun a ha => by simpa using h a ha]
  rfl

/-- In an ascending list, the total of an exponent is the coefficient of its term. -/
theorem total_of_mem (hascending : as.Pairwise (·.degree < ·.degree)) (ha : a ∈ as) :
    total a.degree as = a.coefficient := by
  induction as with
  | nil => cases ha
  | cons b bs ih =>
    rw [List.pairwise_cons] at hascending
    rw [total_cons]
    rcases List.mem_cons.1 ha with rfl | ha
    · rw [if_pos rfl, total_of_forall_ne fun c hc => (hascending.1 c hc).ne', add_zero]
    · rw [if_neg (hascending.1 a ha).ne, zero_add]
      exact ih hascending.2 ha

/-- Entering a term adds it to the total of its exponent, as an element of the ring. -/
theorem cast_total_enter (R : CoeffRing) (d : Nat) (a : Term) (bs : List Term) :
    (total d (enter R a bs) : R.Element) = total d (a :: bs) := by
  induction bs with
  | nil =>
    rw [enter, total_cons, total_cons]
    split_ifs <;> simp
  | cons b bs ih =>
    rw [enter]
    split_ifs with hlt heq
    · rw [total_cons, total_cons d a]
      split_ifs <;> simp
    · -- The two terms of one exponent become one.
      rw [total_cons, total_cons d a, total_cons d b, heq]
      split_ifs <;> simp [add_left_comm, add_assoc]
    · rw [total_cons, Int.cast_add, ih, total_cons d a, total_cons d a, total_cons d b]
      push_cast
      rw [add_left_comm]

/-- Collecting keeps the totals, as elements of the ring. -/
theorem cast_total_collect (R : CoeffRing) (d : Nat) (terms : List Term) :
    (total d (collect R terms) : R.Element) = total d terms := by
  have hfold : ∀ entered : List Term,
      (total d (terms.foldl (fun entered a => enter R a entered) entered) : R.Element) =
        total d entered + total d terms := by
    induction terms with
    | nil => simp
    | cons a as ih =>
      intro entered
      rw [List.foldl_cons, ih, cast_total_enter, total_cons, total_cons]
      push_cast
      rw [add_right_comm, add_comm]
  rw [collect, hfold, total_nil, Int.cast_zero, zero_add]

end Term

namespace Poly

variable {p q : Poly} {d : Nat} {terms terms' : List Term}

/-- The coefficients of an ascending list are its totals, reduced into the ring. -/
theorem coeff_ofAscending {ascending : terms.Pairwise (·.degree < ·.degree)} (d : Nat) :
    (ofAscending R terms ascending).coeff d = R.normalize (Term.total d terms) := by
  by_cases h : ∃ a ∈ terms, a.degree = d
  · obtain ⟨a, ha, rfl⟩ := h
    rw [coeff_ofAscending_of_mem ha, Term.total_of_mem ascending ha]
  · have hne : ∀ a ∈ terms, a.degree ≠ d := fun a ha had => h ⟨a, ha, had⟩
    rw [coeff_ofAscending_of_forall_ne hne, Term.total_of_forall_ne hne,
      CoeffRing.normalize_of_contains R.contains_zero]

/-- What is collected is canonical already, so that reducing it changes nothing. -/
theorem ofTerms_eq_ofAscending (R : CoeffRing) (terms : List Term) :
    ofTerms R terms = ofAscending R (Term.collect R terms) (Term.pairwise_collect R terms) := by
  have hreduced : ∀ a ∈ Term.collect R terms, Term.ofInt R a.degree a.coefficient = id a :=
    fun a ha => by
      rw [Term.ofInt, CoeffRing.normalize_of_contains (Term.contains_of_mem_collect R terms a ha)]
      rfl
  simp only [ofTerms, ofAscending, List.map_congr_left hreduced, List.map_id]

/-- The coefficients of collected terms are the totals of the terms, reduced into the ring. -/
theorem coeff_ofTerms (R : CoeffRing) (terms : List Term) (d : Nat) :
    (ofTerms R terms).coeff d = R.normalize (Term.total d terms) := by
  rw [ofTerms_eq_ofAscending, coeff_ofAscending, CoeffRing.normalize_eq_normalize_iff,
    Term.cast_total_collect]

/-- There is a term for each exponent whose coefficient is not zero. -/
theorem exists_mem_terms_iff : (∃ a ∈ p.terms, a.degree = d) ↔ p.coeff d ≠ 0 := by
  refine ⟨?_, fun h => ⟨_, mem_of_coeff_ne_zero h, rfl⟩⟩
  rintro ⟨a, ha, rfl⟩
  rw [coeff_of_mem ha]
  exact (p.canonical a ha).2

theorem image_ofTerms_append (R : CoeffRing) (terms terms' : List Term) :
    (ofTerms R (terms ++ terms')).image R =
      (ofTerms R terms).image R + (ofTerms R terms').image R := by
  ext d
  rw [Polynomial.coeff_add, coeff_image, coeff_image, coeff_image, coeff_ofTerms, coeff_ofTerms,
    coeff_ofTerms, Term.total_append]
  simp only [CoeffRing.cast_normalize, Int.cast_add]

/-- Terms at consecutive exponents are collected into what their coefficients are read as. -/
theorem ofTerms_listFrom (R : CoeffRing) (cs : List Int) :
    ofTerms R (Term.listFrom 0 cs) = ofSlots R cs := by
  refine ext_coeff rfl fun d => ?_
  rw [coeff_ofTerms, ofSlots, coeff_ofAscending]

/-- In every ring, and for all terms, the coefficients of the collected polynomial are the totals of
    the terms, reduced into the ring, and it has a term for exactly those exponents whose total is
    not zero there, in ascending order. The order of the terms does not matter. The terms of two
    lists sum up to the sum of what each of them sums up to, and this is what the addition gives, as
    long as a machine word counts the coefficients. Coefficients that are listed by position are
    collected from their terms. -/
theorem ofTerms_merges (R : CoeffRing) (terms : List Term) :
    (ofTerms R terms).ring = R ∧
      (ofTerms R terms).terms.Pairwise (·.degree < ·.degree) ∧
      (∀ d, (ofTerms R terms).coeff d = R.normalize (Term.total d terms)) ∧
      (∀ d, (∃ a ∈ (ofTerms R terms).terms, a.degree = d) ↔
        R.isZero (Term.total d terms) = false) ∧
      (∀ terms', terms'.Perm terms → ofTerms R terms' = ofTerms R terms) ∧
      (∀ terms', ofTerms R (terms ++ terms') =
          representing R ((ofTerms R terms).image R + (ofTerms R terms').image R) ∧
        (ofTerms R terms).add (ofTerms R terms') =
          if (ofTerms R terms').isZero = true ∨
              max (ofTerms R terms).degree (ofTerms R terms').degree + 1 < degreeBound then
            .ok (ofTerms R (terms ++ terms'))
          else
            .error (.faulted .degreeOverflow)) ∧
      ∀ cs, cs ≠ [] → ofCoefficients R cs = .ok (ofTerms R (Term.listFrom 0 cs)) := by
  refine ⟨rfl, (ofTerms R terms).ascending, coeff_ofTerms R terms, fun d => ?_, fun terms' h => ?_,
    fun terms' => ?_, fun cs h => ?_⟩
  · rw [exists_mem_terms_iff, coeff_ofTerms, CoeffRing.normalize_ne_zero_iff]
  · refine ext_coeff rfl fun d => ?_
    rw [coeff_ofTerms, coeff_ofTerms, Term.total_perm h]
  · have hsum : ofTerms R (terms ++ terms') =
        representing R ((ofTerms R terms).image R + (ofTerms R terms').image R) :=
      eq_representing rfl (image_ofTerms_append R terms terms')
    exact ⟨hsum, by rw [add_eq_ite (R := R) rfl rfl, hsum]⟩
  · rw [ofTerms_listFrom, ofCoefficients, if_neg (by simpa using h)]

/-- Modulo `6`, the terms `4 x ^ 2` and `5 x ^ 2` merge into `-3 x ^ 2` and `3 x` cancels itself, in
    any order, as in the coefficients `7`, `6` and `9`. -/
theorem ofTerms_merges_six :
    let R : CoeffRing := .modular 6 false (by decide)
    let p := ofTerms R [⟨2, 4⟩, ⟨0, 7⟩, ⟨1, 3⟩, ⟨2, 5⟩, ⟨1, 3⟩]
    p.terms = [⟨0, 1⟩, ⟨2, -3⟩] ∧
      ofTerms R [⟨1, 3⟩, ⟨2, 5⟩, ⟨1, 3⟩, ⟨0, 7⟩, ⟨2, 4⟩] = p ∧
      ofCoefficients R [7, 6, 9] = .ok (ofTerms R [⟨0, 7⟩, ⟨1, 6⟩, ⟨2, 9⟩]) := by
  intro R p
  have hperm : [⟨1, 3⟩, ⟨2, 5⟩, ⟨1, 3⟩, ⟨0, 7⟩, ⟨2, 4⟩].Perm
      ([⟨2, 4⟩, ⟨0, 7⟩, ⟨1, 3⟩, ⟨2, 5⟩, ⟨1, 3⟩] : List Term) := by
    decide +kernel
  obtain ⟨-, -, -, -, hmerged, -, -⟩ :=
    ofTerms_merges R [⟨2, 4⟩, ⟨0, 7⟩, ⟨1, 3⟩, ⟨2, 5⟩, ⟨1, 3⟩]
  obtain ⟨-, -, -, -, -, -, hlisted⟩ := ofTerms_merges R []
  exact ⟨by decide +kernel, hmerged _ hperm, hlisted [7, 6, 9] (by simp)⟩

end Poly

end Univariate
