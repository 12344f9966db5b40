import Univariate.Proofs.Images

/-!
# The text of a polynomial can be read back

The text of a sum of terms leaves out the zero terms, the coefficient one and the exponents zero and
one, and writes a sign in one way before the first term and in another before a later one. No two
sums are written alike nevertheless:

* a term without its sign is a number, which may be missing, and a power. It has no blank, and the
  power begins with no digit, so that the number ends where the digits end (`Text.unsigned_inj`);
* what stands after a term begins with a blank, so that the term ends there, and a later term has
  its sign between two blanks (`Text.append_inj`, `Text.join_next_inj`);
* an empty sum is written as the constant term zero would be, and a sum has no zero term
  (`Text.descending_inj`).

Hence the text of a polynomial determines it, and the text of a buffer determines the coefficients
up to zeros at the end of the list (`text_determines`).
-/

namespace Univariate

/-! ## Lists -/

/-- A list is divided in one way only into items with a property and a rest that does not begin with
    one. -/
theorem append_inj_of_all {α : Type*} {P : α → Bool} {u u' v v' : List α}
    (hu : ∀ x ∈ u, P x = true) (hu' : ∀ x ∈ u', P x = true)
    (hv : ∀ x ∈ v.head?, P x = false) (hv' : ∀ x ∈ v'.head?, P x = false)
    (h : u ++ v = u' ++ v') : u = u' ∧ v = v' := by
  have hends : ∀ {w : List α}, (∀ x ∈ w.head?, P x = false) → w.takeWhile P = [] := by
    intro w hw
    cases w with
    | nil => rfl
    | cons x w => exact List.takeWhile_cons_of_neg (Bool.not_eq_true _ ▸ hw x rfl)
  have heq : u = u' := by
    have := congrArg (List.takeWhile P) h
    rwa [List.takeWhile_append_of_pos hu, List.takeWhile_append_of_pos hu', hends hv, hends hv',
      List.append_nil, List.append_nil] at this
  exact ⟨heq, List.append_cancel_left (heq ▸ h)⟩

/-- A list that agrees with a shorter one, read as zero past its end, goes on with zeros. -/
theorem eq_append_replicate {cs cs' : List Int} (hlength : cs.length ≤ cs'.length)
    (h : ∀ i : Nat, cs[i]?.getD 0 = cs'[i]?.getD 0) :
    cs' = cs ++ List.replicate (cs'.length - cs.length) 0 := by
  refine List.ext_getElem (by simp; omega) fun i hi _ => ?_
  have hi' := h i
  rw [List.getElem?_eq_getElem hi, Option.getD_some] at hi'
  by_cases hlt : i < cs.length
  · rw [List.getElem_append_left hlt, ← hi', List.getElem?_eq_getElem hlt, Option.getD_some]
  · rw [List.getElem_append_right (by omega), List.getElem_replicate, ← hi',
      List.getElem?_eq_none (by omega), Option.getD_none]

namespace Text

/-! ## Terms without their signs -/

theorem toDigits_inj {m n : Nat} (h : Nat.toDigits 10 m = Nat.toDigits 10 n) : m = n := by
  simpa only [Nat.ofDigitChars_ten_toDigits] using congrArg (Nat.ofDigitChars 10 · 0) h

/-- The digits that `unsigned` writes for the coefficient. -/
def digits (a : Term) : List Char :=
  if a.degree = 0 ∨ a.coefficient.natAbs ≠ 1 then Nat.toDigits 10 a.coefficient.natAbs else []

theorem toList_unsigned (a : Term) :
    (unsigned a).toList = digits a ++ (power a.degree).toList := by
  rw [unsigned, digits]
  split_ifs with h
  · rw [String.toList_append]
    congr 1
    exact Nat.toList_repr
  · rfl

theorem isDigit_of_mem_digits {a : Term} {c : Char} (hc : c ∈ digits a) : c.isDigit = true := by
  rw [digits] at hc
  split_ifs at hc
  · exact Nat.isDigit_of_mem_toDigits (by decide) (by decide) hc
  · exact absurd hc List.not_mem_nil

theorem toList_power (d : Nat) : (power d).toList =
    if d = 0 then [] else 'x' :: if d = 1 then [] else '^' :: Nat.toDigits 10 d := by
  match d with
  | 0 => rfl
  | 1 => rfl
  | d + 2 =>
    have hpower : power (d + 2) = "x^" ++ (d + 2).repr := rfl
    rw [hpower, String.toList_append, Nat.toList_repr, if_neg (by omega), if_neg (by omega)]
    rfl

theorem isDigit_head_power (d : Nat) : ∀ c ∈ (power d).toList.head?, c.isDigit = false := by
  intro c hc
  rw [toList_power] at hc
  split_ifs at hc
  · cases hc
  · obtain rfl : 'x' = c := by simpa using hc
    rfl
  · obtain rfl : 'x' = c := by simpa using hc
    rfl

theorem power_inj {d e : Nat} (h : power d = power e) : d = e := by
  have hlist := congrArg String.toList h
  rw [toList_power, toList_power] at hlist
  -- Zero and one have texts of lengths of their own, the other exponents are written out.
  split_ifs at hlist
  all_goals first
    | omega
    | exact toDigits_inj (List.cons.inj (List.cons.inj hlist).2).2
    | cases hlist

theorem unsigned_inj {a b : Term} (h : unsigned a = unsigned b) :
    a.degree = b.degree ∧ a.coefficient.natAbs = b.coefficient.natAbs := by
  have hlist := congrArg String.toList h
  rw [toList_unsigned, toList_unsigned] at hlist
  obtain ⟨hdigits, hpower⟩ := append_inj_of_all (fun _ => isDigit_of_mem_digits)
    (fun _ => isDigit_of_mem_digits) (isDigit_head_power _) (isDigit_head_power _) hlist
  have hdegree := power_inj (String.toList_inj.1 hpower)
  refine ⟨hdegree, ?_⟩
  rw [digits, digits, hdegree] at hdigits
  split_ifs at hdigits with ha hb hb
  · exact toDigits_inj hdigits
  · exact absurd hdigits Nat.toDigits_ne_nil
  · exact absurd hdigits.symm Nat.toDigits_ne_nil
  · rw [not_or, not_not] at ha hb
    rw [ha.2, hb.2]

theorem eq_of_mem_unsigned {a : Term} {c : Char} (hc : c ∈ (unsigned a).toList) :
    c.isDigit = true ∨ c = 'x' ∨ c = '^' := by
  rw [toList_unsigned, List.mem_append, toList_power] at hc
  rcases hc with hc | hc
  · exact .inl (isDigit_of_mem_digits hc)
  · split_ifs at hc
    · exact absurd hc List.not_mem_nil
    · exact .inr (.inl (List.mem_singleton.1 hc))
    · rcases List.mem_cons.1 hc with hx | hc
      · exact .inr (.inl hx)
      · rcases List.mem_cons.1 hc with hpower | hc
        · exact .inr (.inr hpower)
        · exact .inl (Nat.isDigit_of_mem_toDigits (by decide) (by decide) hc)

theorem blank_not_mem_unsigned (a : Term) : ' ' ∉ (unsigned a).toList := fun h =>
  absurd (eq_of_mem_unsigned h) (by decide)

theorem minus_not_mem_unsigned (a : Term) : '-' ∉ (unsigned a).toList := fun h =>
  absurd (eq_of_mem_unsigned h) (by decide)

/-! ## Sums -/

/-- Terms are the same if they have the same sign and are written alike without it. -/
theorem ext_unsigned {a b : Term} (hsign : a.coefficient < 0 ↔ b.coefficient < 0)
    (h : unsigned a = unsigned b) : a = b := by
  obtain ⟨hdegree, hnatAbs⟩ := unsigned_inj h
  have hcoefficient : a.coefficient = b.coefficient := by omega
  cases a
  cases b
  exact congrArg₂ Term.mk hdegree hcoefficient

theorem first_inj {a b : Term} (h : first a = first b) : a = b := by
  have hminus : ∀ {a b : Term}, "-" ++ unsigned a ≠ "" ++ unsigned b := fun {a b} h =>
    minus_not_mem_unsigned b (by
      rw [← String.empty_append (s := unsigned b), ← h, String.toList_append]
      exact List.mem_append_left _ (List.mem_singleton_self _))
  rw [first, first] at h
  split_ifs at h with ha hb hb
  · exact ext_unsigned (iff_of_true ha hb) ((String.append_right_inj _).1 h)
  · exact absurd h hminus
  · exact absurd h.symm hminus
  · exact ext_unsigned (iff_of_false ha hb) ((String.append_right_inj _).1 h)

/-- What stands after a term is empty or begins with a blank. -/
theorem head_join_next (rest : List Term) :
    ∀ c ∈ (String.join (rest.map next)).toList.head?, (c != ' ') = false := by
  cases rest with
  | nil => exact fun c hc => by simp at hc
  | cons a rest =>
    intro c hc
    rw [List.map_cons, String.join_cons, next] at hc
    split_ifs at hc <;> simpa using hc.symm

/-- A part of a sum that has no blank ends where the next term begins. -/
theorem append_inj {s s' : String} {rest rest' : List Term} (hs : ' ' ∉ s.toList)
    (hs' : ' ' ∉ s'.toList)
    (h : s ++ String.join (rest.map next) = s' ++ String.join (rest'.map next)) :
    s = s' ∧ String.join (rest.map next) = String.join (rest'.map next) := by
  have hlist := congrArg String.toList h
  rw [String.toList_append, String.toList_append] at hlist
  obtain ⟨hleft, hright⟩ := append_inj_of_all (P := (· != ' '))
    (fun c hc => bne_iff_ne.2 fun heq => hs (heq ▸ hc))
    (fun c hc => bne_iff_ne.2 fun heq => hs' (heq ▸ hc)) (head_join_next _) (head_join_next _) hlist
  exact ⟨String.toList_inj.1 hleft, String.toList_inj.1 hright⟩

theorem unsigned_append_inj {a b : Term} {rest rest' : List Term}
    (hsign : a.coefficient < 0 ↔ b.coefficient < 0)
    (h : unsigned a ++ String.join (rest.map next) =
      unsigned b ++ String.join (rest'.map next)) :
    a = b ∧ String.join (rest.map next) = String.join (rest'.map next) := by
  obtain ⟨hunsigned, hrest⟩ := append_inj (blank_not_mem_unsigned a) (blank_not_mem_unsigned b) h
  exact ⟨ext_unsigned hsign hunsigned, hrest⟩

theorem next_append_inj {a b : Term} {rest rest' : List Term}
    (h : next a ++ String.join (rest.map next) = next b ++ String.join (rest'.map next)) :
    a = b ∧ String.join (rest.map next) = String.join (rest'.map next) := by
  have hsigns : ∀ {s s' : String}, " - " ++ s ≠ " + " ++ s' := fun {s s'} h => by
    simpa using congrArg String.toList h
  rw [next, next, String.append_assoc, String.append_assoc] at h
  split_ifs at h with ha hb hb
  · exact unsigned_append_inj (iff_of_true ha hb) ((String.append_right_inj _).1 h)
  · exact absurd h hsigns
  · exact absurd h.symm hsigns
  · exact unsigned_append_inj (iff_of_false ha hb) ((String.append_right_inj _).1 h)

theorem next_ne_empty (a : Term) (s : String) : next a ++ s ≠ "" := fun h => by
  have hlist := congrArg String.toList h
  rw [next, String.append_assoc, String.toList_append] at hlist
  split_ifs at hlist <;> simp at hlist

theorem join_next_inj {rest rest' : List Term}
    (h : String.join (rest.map next) = String.join (rest'.map next)) : rest = rest' := by
  induction rest generalizing rest' with
  | nil =>
    cases rest' with
    | nil => rfl
    | cons b rest' =>
      rw [List.map_cons, String.join_cons] at h
      exact absurd h.symm (next_ne_empty b _)
  | cons a rest ih =>
    cases rest' with
    | nil =>
      rw [List.map_cons, String.join_cons] at h
      exact absurd h (next_ne_empty a _)
    | cons b rest' =>
      rw [List.map_cons, String.join_cons, List.map_cons, String.join_cons] at h
      obtain ⟨rfl, hrest⟩ := next_append_inj h
      rw [ih hrest]

theorem blank_not_mem_first (a : Term) : ' ' ∉ (first a).toList := by
  rw [first, String.toList_append, List.mem_append, not_or]
  refine ⟨?_, blank_not_mem_unsigned a⟩
  split_ifs <;> decide

/-- The sum of the terms, the first of which is given apart, determines them. -/
theorem sum_inj {a b : Term} {rest rest' : List Term}
    (h : first a ++ String.join (rest.map next) = first b ++ String.join (rest'.map next)) :
    a :: rest = b :: rest' := by
  obtain ⟨hfirst, hrest⟩ := append_inj (blank_not_mem_first a) (blank_not_mem_first b) h
  rw [first_inj hfirst, join_next_inj hrest]

/-- Two sums that are written alike have the same non-zero terms. -/
theorem descending_inj {terms terms' : List Term} (h : descending terms = descending terms') :
    terms.filter (·.coefficient ≠ 0) = terms'.filter (·.coefficient ≠ 0) := by
  -- The text of the empty sum is that of the term zero, which is not in a sum.
  have hzero : "0" = first ⟨0, 0⟩ ++ String.join ([].map next) := by decide +kernel
  have hne : ∀ {terms : List Term} {a : Term} {rest : List Term},
      terms.filter (·.coefficient ≠ 0) = a :: rest → a ≠ ⟨0, 0⟩ := by
    rintro terms a rest hterms rfl
    have hmem : (⟨0, 0⟩ : Term) ∈ terms.filter (·.coefficient ≠ 0) := by
      rw [hterms]
      exact List.mem_cons_self
    exact absurd (List.mem_filter.1 hmem).2 (by decide)
  rw [descending, descending] at h
  cases hterms : terms.filter (·.coefficient ≠ 0) with
  | nil =>
    cases hterms' : terms'.filter (·.coefficient ≠ 0) with
    | nil => rfl
    | cons b rest' =>
      rw [hterms, hterms'] at h
      exact absurd (List.cons.inj (sum_inj (hzero.symm.trans h))).1.symm (hne hterms')
  | cons a rest =>
    cases hterms' : terms'.filter (·.coefficient ≠ 0) with
    | nil =>
      rw [hterms, hterms'] at h
      exact absurd (List.cons.inj (sum_inj (h.trans hzero))).1 (hne hterms)
    | cons b rest' =>
      rw [hterms, hterms'] at h
      exact sum_inj h

/-- Zero terms are left out. -/
theorem descending_filter (terms : List Term) :
    descending (terms.filter (·.coefficient ≠ 0)) = descending terms := by
  rw [descending, descending, List.filter_filter]
  simp only [Bool.and_self]

end Text

/-! ## Polynomials and buffers -/

theorem Poly.filter_terms (p : Poly) : p.terms.filter (·.coefficient ≠ 0) = p.terms :=
  List.filter_eq_self.2 fun a ha => decide_eq_true (p.canonical a ha).2

theorem Poly.text_inj {p q : Poly} (hring : p.ring = q.ring) (h : p.text = q.text) : p = q := by
  have hterms := Text.descending_inj h
  rw [List.filter_reverse, List.filter_reverse, List.reverse_inj, p.filter_terms,
    q.filter_terms] at hterms
  cases p
  cases q
  cases hring
  cases hterms
  rfl

namespace Buffer

variable {t u : Buffer}

/-- The integers of a buffer are reduced by no packing into a polynomial over the integers. -/
theorem terms_toPoly_integers (t : Buffer) : (t.toPoly .integers).terms =
    (Term.listFrom 0 t.coefficients).filter (·.coefficient ≠ 0) := by
  have hterms : (Term.listFrom 0 t.coefficients).map
      (fun a => .ofInt .integers a.degree a.coefficient) = Term.listFrom 0 t.coefficients :=
    List.map_id _
  exact congrArg (List.filter (·.coefficient ≠ 0)) hterms

theorem text_toPoly_integers (t : Buffer) : (t.toPoly .integers).text = t.text := by
  rw [Poly.text, terms_toPoly_integers, ← List.filter_reverse, Text.descending_filter, text]

theorem getD_coefficients_of_text_eq (h : t.text = u.text) (i : Nat) :
    t.coefficients[i]?.getD 0 = u.coefficients[i]?.getD 0 := by
  rw [← text_toPoly_integers, ← text_toPoly_integers u] at h
  have hpoly : t.toPoly .integers = u.toPoly .integers := Poly.text_inj rfl h
  have hcoeff : (t.toPoly .integers).coeff i = (u.toPoly .integers).coeff i := by rw [hpoly]
  rwa [toPoly, Poly.coeff_ofSlots, toPoly, Poly.coeff_ofSlots] at hcoeff

end Buffer

/-- The text tells polynomials over one ring apart. It tells buffers apart as far as their
    coefficients differ in more than zeros at the end of the list, and the text of a buffer, whether
    it is trimmed or not, is that of the polynomial over the integers into which it is packed. -/
theorem text_determines :
    (∀ p q : Poly, p.ring = q.ring → p.text = q.text → p = q) ∧
      (∀ t u : Buffer, t.text = u.text → ∃ cs m n,
        t.coefficients = cs ++ List.replicate m 0 ∧ u.coefficients = cs ++ List.replicate n 0) ∧
      ∀ t : Buffer, t.text = (t.toPoly .integers).text := by
  refine ⟨fun p q => Poly.text_inj, fun t u h => ?_, fun t => t.text_toPoly_integers.symm⟩
  have hgetD := Buffer.getD_coefficients_of_text_eq h
  rcases Nat.le_total t.coefficients.length u.coefficients.length with hle | hle
  · exact ⟨t.coefficients, 0, _, (List.append_nil _).symm, eq_append_replicate hle hgetD⟩
  · exact ⟨u.coefficients, _, 0, eq_append_replicate hle fun i => (hgetD i).symm,
      (List.append_nil _).symm⟩

/-- Modulo `6`, two lists of coefficients with one text give one polynomial. A buffer whose highest
    significant slot holds zero has the text of a buffer without that slot, and their coefficients
    differ in this zero only. -/
theorem text_determines_six :
    let R : CoeffRing := .modular 6 false (by decide)
    Poly.ofSlots R [7, 0, -1, 6] = Poly.ofSlots R [1, 6, 5] ∧
      (∃ cs m n, (⟨3, #[1, -2, 0]⟩ : Buffer).coefficients = cs ++ List.replicate m 0 ∧
        (⟨2, #[1, -2]⟩ : Buffer).coefficients = cs ++ List.replicate n 0) ∧
      (⟨3, #[1, -2, 0]⟩ : Buffer).text = "-2x + 1" := by
  intro R
  obtain ⟨hpoly, hbuffer, -⟩ := text_determines
  have htext : (Poly.ofSlots R [7, 0, -1, 6]).text = (Poly.ofSlots R [1, 6, 5]).text := by
    decide +kernel
  exact ⟨hpoly _ _ rfl htext, hbuffer ⟨3, #[1, -2, 0]⟩ ⟨2, #[1, -2]⟩ (by decide +kernel),
    by decide +kernel⟩

end Univariate
