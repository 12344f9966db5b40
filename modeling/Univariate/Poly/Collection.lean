import Univariate.Poly.Basic

/-!
# Collecting terms

Terms in any order, with repeated exponents and arbitrary coefficients, sum up to a polynomial:
they are entered one by one into an ascending list that holds one term for each exponent met so
far, with a canonical coefficient, and the terms that cancelled are dropped at the end.

* `Poly.ofTerms` is the sum of a list of terms.
-/

namespace Univariate

namespace Term

/-- Enters the term `a` into an ascending list, adding it to the term of its exponent. -/
def enter (R : CoeffRing) (a : Term) : List Term → List Term
  | [] => [⟨a.degree, R.add 0 a.coefficient⟩]
  | b :: bs =>
    if a.degree < b.degree then
      ⟨a.degree, R.add 0 a.coefficient⟩ :: b :: bs
    else if a.degree = b.degree then
      ⟨b.degree, R.add b.coefficient a.coefficient⟩ :: bs
    else
      b :: enter R a bs

/-- One term for each exponent of `terms`, in ascending order, with the sum of its coefficients. -/
def collect (R : CoeffRing) (terms : List Term) : List Term :=
  terms.foldl (fun entered a => enter R a entered) []

theorem degree_of_mem_enter {R : CoeffRing} {a b : Term} {bs : List Term}
    (h : b ∈ enter R a bs) : b.degree = a.degree ∨ ∃ c ∈ bs, b.degree = c.degree := by
  induction bs with
  | nil =>
    rw [enter, List.mem_singleton] at h
    exact .inl (h ▸ rfl)
  | cons c cs ih =>
    rw [enter] at h
    split at h
    · rw [List.mem_cons] at h
      exact h.imp (fun h => by rw [h]) fun h => ⟨b, h, rfl⟩
    · split at h
      · rw [List.mem_cons] at h
        rcases h with rfl | h
        · exact .inr ⟨c, List.mem_cons_self, rfl⟩
        · exact .inr ⟨b, List.mem_cons_of_mem _ h, rfl⟩
      · rw [List.mem_cons] at h
        rcases h with rfl | h
        · exact .inr ⟨b, List.mem_cons_self, rfl⟩
        · exact (ih h).imp_right fun ⟨d, hd, e⟩ => ⟨d, List.mem_cons_of_mem _ hd, e⟩

theorem pairwise_enter (R : CoeffRing) (a : Term) {bs : List Term}
    (h : bs.Pairwise (·.degree < ·.degree)) :
    (enter R a bs).Pairwise (·.degree < ·.degree) := by
  induction bs with
  | nil => exact List.pairwise_singleton _ _
  | cons b bs ih =>
    rw [List.pairwise_cons] at h
    rw [enter]
    split
    · next hlt =>
      refine .cons (fun c hc => ?_) (.cons h.1 h.2)
      rcases List.mem_cons.1 hc with rfl | hc
      · exact hlt
      · exact Nat.lt_trans hlt (h.1 c hc)
    · split
      · exact .cons h.1 h.2
      · refine .cons (fun c hc => ?_) (ih h.2)
        rcases degree_of_mem_enter hc with e | ⟨d, hd, e⟩
        · omega
        · exact e ▸ h.1 d hd

theorem pairwise_collect (R : CoeffRing) (terms : List Term) :
    (collect R terms).Pairwise (·.degree < ·.degree) :=
  List.foldlRecOn (motive := fun entered : List Term => entered.Pairwise (·.degree < ·.degree))
    terms _ .nil fun _ h a _ => pairwise_enter R a h

/-- Each sum is reduced as soon as a term is entered. -/
theorem contains_of_mem_enter {R : CoeffRing} {a : Term} {bs : List Term}
    (h : ∀ b ∈ bs, R.contains b.coefficient = true) :
    ∀ b ∈ enter R a bs, R.contains b.coefficient = true := by
  induction bs with
  | nil => exact List.forall_mem_singleton.2 (R.contains_normalize _)
  | cons c cs ih =>
    rw [List.forall_mem_cons] at h
    rw [enter]
    split
    · exact List.forall_mem_cons.2 ⟨R.contains_normalize _, List.forall_mem_cons.2 h⟩
    · split
      · exact List.forall_mem_cons.2 ⟨R.contains_normalize _, h.2⟩
      · exact List.forall_mem_cons.2 ⟨h.1, ih h.2⟩

theorem contains_of_mem_collect (R : CoeffRing) (terms : List Term) :
    ∀ b ∈ collect R terms, R.contains b.coefficient = true :=
  List.foldlRecOn
    (motive := fun entered : List Term => ∀ b ∈ entered, R.contains b.coefficient = true)
    terms _ (fun _ hb => absurd hb List.not_mem_nil) fun _ h _ _ => contains_of_mem_enter h

end Term

/-- The sum of the terms, in any order and with any coefficients. -/
def Poly.ofTerms (R : CoeffRing) (terms : List Term) : Poly where
  ring := R
  terms := (Term.collect R terms).filter (·.coefficient ≠ 0)
  ascending := .filter _ (Term.pairwise_collect R terms)
  canonical a ha := by
    rw [List.mem_filter] at ha
    exact ⟨Term.contains_of_mem_collect R terms a ha.1, by simpa using ha.2⟩

end Univariate
