import Univariate.Proofs.Sessions

/-!
# What the targets held before

Long division, reduction and differentiation write into buffers that are used as they are: what such
a buffer held before, in significant slots or beyond them, has no influence on how the action ends
and on what it leaves there.

* `SameOutcome` relates two runs of an action. They end with the same value or the same failure, and
  in related states, but for the refusals that come before the first write.
* `Buffer.Alike` relates two buffers with the same coefficients, in as many slots or not. Of equal
  capacities, such buffers are equal (`Buffer.Alike.eq`). A step on one of them is the same step on
  the other, since what it does to a slot depends on the slots alone.
* `Buffer.Interchangeable` is what is asked of the targets of two runs: only their capacities
  matter, and of these only whether they are large enough. Buffers of sessions with the same
  constructed capacity are interchangeable (`Session.interchangeable`), whatever was done to them.
-/

namespace Univariate

variable {R : CoeffRing} {n m n' m' : Nat}

/-! ## Two runs -/

/-- Whether the failure is a refusal that comes before anything is written. -/
def Failure.isEarly : Failure → Bool
  | .refused .divisionByZero => true
  | .refused (.divisorTooLong ..) => true
  | .refused (.noSlotFor ..) => true
  | _ => false

/-- Both runs end with the same value or with the same failure. The states that they leave are
    related, unless they were refused before they wrote anything. -/
inductive SameOutcome {σ α : Type} (S : σ → σ → Prop) :
    EStateM.Result Failure σ α → EStateM.Result Failure σ α → Prop
  | ok {a : α} {s s' : σ} (h : S s s') : SameOutcome S (.ok a s) (.ok a s')
  | error {e : Failure} {s s' : σ} (h : e.isEarly = false → S s s') :
      SameOutcome S (.error e s) (.error e s')

/-- A refusal at the outset says nothing about the states. -/
theorem SameOutcome.early {σ α : Type} {S : σ → σ → Prop} {e : Failure} (h : e.isEarly = true)
    (s s' : σ) : SameOutcome (α := α) S (.error e s) (.error e s') :=
  .error fun hlate => by
    rw [h] at hlate
    cases hlate

/-- How two runs can end. -/
theorem SameOutcome.cases {σ α : Type} {S : σ → σ → Prop} {x y : EStateM.Result Failure σ α}
    (h : SameOutcome S x y) :
    (∃ a s s', x = .ok a s ∧ y = .ok a s' ∧ S s s') ∨
      ∃ e s s', x = .error e s ∧ y = .error e s' ∧ (e.isEarly = false → S s s') := by
  cases h with
  | ok h => exact .inl ⟨_, _, _, rfl, rfl, h⟩
  | error h => exact .inr ⟨_, _, _, rfl, rfl, h⟩

/-! ## Buffers -/

namespace Buffer

variable {t u source divisor : Buffer} {shift degree : Nat}

/-- The same coefficients in `n` slots and in `n'` slots. -/
structure Alike (n n' : Nat) (t u : Buffer) : Prop where
  left : t.Sound n False
  right : u.Sound n' False
  size_eq : t.size = u.size
  slot_eq : ∀ i, t.slot i = u.slot i

/-- In as many slots, they are the same buffer. -/
theorem Alike.eq (h : Alike n n t u) : t = u :=
  ext_slot h.size_eq (h.left.capacity_eq.trans h.right.capacity_eq.symm) h.slot_eq

theorem Alike.symm (h : Alike n n' t u) : Alike n' n u t :=
  ⟨h.right, h.left, h.size_eq.symm, fun i => (h.slot_eq i).symm⟩

theorem Alike.text_eq (h : Alike n n' t u) : t.text = u.text := by
  rw [text, text, h.left.coefficients_eq, h.right.coefficients_eq, h.size_eq]
  exact congrArg (fun cs => Text.descending (Term.listFrom 0 cs).reverse)
    (List.map_congr_left fun i _ => h.slot_eq i)

theorem alike_clear (ht : t.Sound n False) (hu : u.Sound n' False) :
    Alike n n' t.clear u.clear where
  left := ht.clear
  right := hu.clear
  size_eq := rfl
  slot_eq i := by rw [ht.slot_clear_eq_zero, hu.slot_clear_eq_zero]

theorem alike_copied (ht : t.WellFormed) (hu : u.WellFormed) (hs : source.WellFormed)
    (hlt : source.degree < t.capacity) (hlt' : source.degree < u.capacity) :
    Alike t.capacity u.capacity (t.copied source) (u.copied source) where
  left := ⟨ht.copied hs hlt, t.capacity_copied source, False.elim⟩
  right := ⟨hu.copied hs hlt', u.capacity_copied source, False.elim⟩
  size_eq := rfl
  slot_eq i := by rw [slot_copied ht hs hlt, slot_copied hu hs hlt']

/-- Where trimming stops depends on the slots alone. -/
theorem trimmedSize_congr (h : ∀ i, t.slot i = u.slot i) (size : Nat) :
    trimmedSize R t size = trimmedSize R u size := by
  fun_induction trimmedSize R t size with
  | case1 size hz ih => rw [trimmedSize, if_pos (h _ ▸ hz), ih]
  | case2 size hz => rw [trimmedSize, if_neg (h _ ▸ hz)]
  | case3 size hsmall => rw [trimmedSize.eq_2 R u size hsmall]

theorem Alike.trim (h : Alike n n' t u) (R : CoeffRing) : Alike n n' (t.trim R) (u.trim R) where
  left := h.left.sound_trim h.left.capacity_eq
  right := h.right.sound_trim h.right.capacity_eq
  size_eq := by
    change trimmedSize R t t.size = trimmedSize R u u.size
    rw [h.size_eq, trimmedSize_congr h.slot_eq]
  slot_eq i := by
    rw [slot_trim, slot_trim, h.size_eq, trimmedSize_congr h.slot_eq, h.slot_eq]

theorem Alike.mapNonzero (h : Alike n n' t u) (f : Int → Int) :
    Alike n n' (t.mapNonzero f) (u.mapNonzero f) where
  left := ⟨h.left.mapNonzero f, (t.capacity_mapNonzero f).trans h.left.capacity_eq, False.elim⟩
  right := ⟨h.right.mapNonzero f, (u.capacity_mapNonzero f).trans h.right.capacity_eq, False.elim⟩
  size_eq := h.size_eq
  slot_eq i := by rw [slot_mapNonzero, slot_mapNonzero, h.size_eq, h.slot_eq]

/-- Writing the same to slots up to that of `x ^ degree` leaves buffers alike, once their sizes
    cover these slots. -/
theorem Alike.raise (h : Alike n n' t u) {v w : Buffer} (hsize : v.size = t.size)
    (hsize' : w.size = u.size) (hcap : v.capacity = t.capacity) (hcap' : w.capacity = u.capacity)
    (hn : degree < n) (hn' : degree < n') (hkept : ∀ i, degree < i → v.slot i = t.slot i)
    (hsame : ∀ i, v.slot i = w.slot i) :
    Alike n n' { v with size := max v.size (degree + 1) }
      { w with size := max w.size (degree + 1) } where
  left := ⟨h.left.raise hsize hcap (h.left.capacity_eq ▸ hn) hkept,
    hcap.trans h.left.capacity_eq, False.elim⟩
  right := by
    refine ⟨h.right.raise hsize' hcap' (h.right.capacity_eq ▸ hn') fun i hi => ?_,
      hcap'.trans h.right.capacity_eq, False.elim⟩
    rw [← hsame, hkept i hi, h.slot_eq]
  size_eq := by
    change max v.size _ = max w.size _
    rw [hsize, hsize', h.size_eq]
  slot_eq := hsame

theorem Alike.written (h : Alike n n' t u) (hn : shift < n) (hn' : shift < n') (c : Int) :
    Alike n n' (t.written shift c) (u.written shift c) := by
  refine h.raise (v := t.put shift c) (w := u.put shift c) rfl rfl (capacity_put ..)
    (capacity_put ..) hn hn' (fun i hi => ?_) fun i => ?_
  · rw [slot_put, if_neg fun hlt => by omega]
  · rw [slot_put, slot_put, h.slot_eq, h.left.capacity_eq, h.right.capacity_eq]
    split_ifs <;> first | rfl | omega

/-- Subtracting a multiple of a buffer, with slots for all of it, leaves buffers alike. -/
theorem Alike.eliminated (h : Alike n n' t u) (hn : divisor.degree + shift < n)
    (hn' : divisor.degree + shift < n') (R : CoeffRing) (a : Int) :
    Alike n n' ((t.subShifted R divisor ⟨shift, a⟩).resize R (divisor.degree + shift))
      ((u.subShifted R divisor ⟨shift, a⟩).resize R (divisor.degree + shift)) := by
  refine (h.raise (size_subShifted ..) (size_subShifted ..) (capacity_subShifted ..)
    (capacity_subShifted ..) hn hn' (fun i hi => slot_subShifted_of_lt t divisor R hi)
    fun i => ?_).trim R
  rw [slot_subShifted, slot_subShifted, h.slot_eq, h.left.capacity_eq, h.right.capacity_eq]
  -- The slots that change are below the degree of the multiple, and so below both capacities.
  rw [degree] at hn hn'
  dsimp only
  split_ifs <;> first | rfl | omega

/-- Well-formed buffers that have equal capacities, or each a slot for `x ^ degree`. -/
structure Interchangeable (degree : Nat) (t u : Buffer) : Prop where
  left : t.WellFormed
  right : u.WellFormed
  capacities : t.capacity = u.capacity ∨ degree < t.capacity ∧ degree < u.capacity

/-- Both refuse the exponent, with the same capacity, or both have a slot for it. -/
theorem Interchangeable.cases (h : Interchangeable degree t u) :
    t.capacity ≤ degree ∧ t.capacity = u.capacity ∨ degree < t.capacity ∧ degree < u.capacity := by
  have := h.capacities
  omega

theorem Interchangeable.alike_clear (h : Interchangeable degree t u) :
    Alike t.capacity u.capacity t.clear u.clear :=
  Buffer.alike_clear ⟨h.left, rfl, False.elim⟩ ⟨h.right, rfl, False.elim⟩

/-- The derivative that a buffer comes to hold does not depend on what the buffer held. -/
theorem sameOutcome_differentiate (R : CoeffRing) (source : Buffer)
    (h : Interchangeable (source.degree - 1) t u) :
    SameOutcome (Alike t.capacity u.capacity) ((differentiate R source).run t)
      ((differentiate R source).run u) := by
  rw [run_differentiate, run_differentiate]
  by_cases hconst : source.degree = 0
  · rw [if_pos hconst, if_pos hconst]
    exact .ok h.alike_clear
  rw [if_neg hconst, if_neg hconst]
  rcases h.cases with ⟨hsmall, hcap⟩ | ⟨hlarge, hlarge'⟩
  · rw [← hcap, if_pos (by omega), if_pos (by omega)]
    exact .early rfl t u
  · rw [if_neg (by omega), if_neg (by omega)]
    refine .ok ((h.alike_clear.raise (size_putDerivative ..) (size_putDerivative ..)
      (capacity_putDerivative ..) (capacity_putDerivative ..) hlarge hlarge'
      (fun i => slot_putDerivative_of_lt _ R source) fun i => ?_).trim R)
    rw [slot_putDerivative, slot_putDerivative, h.alike_clear.slot_eq, capacity_clear,
      capacity_clear]
    rw [degree] at hlarge hlarge'
    split_ifs <;> first | rfl | omega

end Buffer

/-! ## Long division -/

namespace LongDivision

variable {kind : DivisionKind} {dividend divisor : Buffer} {shift : Nat} {s s' : LongDivision}

/-- The quotients and the remainders are alike, and the events are reported by the same lines. -/
structure Alike (n m n' m' : Nat) (s s' : LongDivision) : Prop where
  quotient : s.quotient.Alike n n' s'.quotient
  remainder : s.remainder.Alike m m' s'.remainder
  lines_eq : s.trace.map Event.text = s'.trace.map Event.text

theorem Alike.symm (h : s.Alike n m n' m' s') : s'.Alike n' m' n m s :=
  ⟨h.quotient.symm, h.remainder.symm, h.lines_eq.symm⟩

theorem Alike.reported (h : s.Alike n m n' m' s') {event event' : Event}
    (hline : event.text = event'.text) :
    (s.reported event).Alike n m n' m' (s'.reported event') where
  quotient := h.quotient
  remainder := h.remainder
  lines_eq := by rw [LongDivision.reported, LongDivision.reported, Array.map_push, Array.map_push,
    h.lines_eq, hline]

theorem Alike.announced (h : s.Alike n m n' m' s') (divisor : Buffer) (shift : Nat) :
    (s.announced divisor shift).Alike n m n' m' (s'.announced divisor shift) := by
  refine h.reported ?_
  unfold Event.text
  dsimp only
  rw [h.remainder.text_eq, h.quotient.text_eq]

theorem Alike.scaled (h : s.Alike n m n' m' s') (R : CoeffRing) (divisor : Buffer) :
    (s.scaled R divisor).Alike n m n' m' (s'.scaled R divisor) where
  quotient := h.quotient
  remainder := (h.remainder.mapNonzero _).trim R
  lines_eq := h.lines_eq

theorem Alike.subtracted (h : s.Alike n m n' m' s') (hfits : s.Fits divisor shift)
    (hfits' : s'.Fits divisor shift) (R : CoeffRing) (factor coefficient : Int) :
    (s.subtracted R divisor shift factor coefficient).Alike n m n' m'
      (s'.subtracted R divisor shift factor coefficient) := by
  rw [LongDivision.subtracted, LongDivision.subtracted]
  split
  · exact h
  · exact {
      quotient := h.quotient.written (h.quotient.left.capacity_eq ▸ hfits.shift_lt_quotient)
        (h.quotient.right.capacity_eq ▸ hfits'.shift_lt_quotient) coefficient
      remainder := h.remainder.eliminated
        (h.remainder.left.capacity_eq ▸ hfits.degree_lt_remainder)
        (h.remainder.right.capacity_eq ▸ hfits'.degree_lt_remainder) R factor
      lines_eq := h.lines_eq }

theorem Alike.exactStep (h : s.Alike n m n' m' s') (hfits : s.Fits divisor shift)
    (hfits' : s'.Fits divisor shift) (R : CoeffRing) :
    SameOutcome (Alike n m n' m') ((exactStep R divisor shift).run s)
      ((exactStep R divisor shift).run s') := by
  rw [run_exactStep hfits, run_exactStep hfits', h.remainder.slot_eq]
  dsimp only
  have hannounced := h.announced divisor shift
  split_ifs
  · exact .ok h
  · split
    · exact .ok (hannounced.subtracted hfits.announced hfits'.announced R _ _)
    · exact .error fun _ => hannounced
  · exact .error fun _ => hannounced

theorem Alike.pseudoStep (h : s.Alike n m n' m' s') (hfits : s.Fits divisor shift)
    (hfits' : s'.Fits divisor shift) (R : CoeffRing) :
    SameOutcome (Alike n m n' m') ((pseudoStep R divisor shift).run s)
      ((pseudoStep R divisor shift).run s') := by
  cases hlead : R.isZero divisor.leading with
  | true =>
    rw [run_pseudoStep_zero hlead, run_pseudoStep_zero hlead]
    exact .error fun _ => h.announced divisor shift
  | false =>
    rw [run_pseudoStep hfits hlead, run_pseudoStep hfits' hlead, pseudoStepped, pseudoStepped,
      h.remainder.slot_eq]
    exact .ok (((h.announced divisor shift).scaled R divisor).subtracted (hfits.scaled R)
      (hfits'.scaled R) R _ _)

theorem Alike.step (h : s.Alike n m n' m' s') (hfits : s.Fits divisor shift)
    (hfits' : s'.Fits divisor shift) (R : CoeffRing) (kind : DivisionKind) :
    SameOutcome (Alike n m n' m') ((LongDivision.step R kind divisor shift).run s)
      ((LongDivision.step R kind divisor shift).run s') := by
  cases kind with
  | exact => exact h.exactStep hfits hfits' R
  | pseudo => exact h.pseudoStep hfits hfits' R

/-- Whether a step finds its slots depends on the capacities, which the relation fixes. -/
theorem Alike.fits (h : s.Alike n m n' m' s') (hfits : s.Fits divisor shift) {t t' : LongDivision}
    (h' : t.Alike n m n' m' t') : t.Fits divisor shift :=
  hfits.mono le_rfl
    (h'.quotient.left.capacity_eq.trans h.quotient.left.capacity_eq.symm)
    (h'.remainder.left.capacity_eq.trans h.remainder.left.capacity_eq.symm)

/-- The steps of a division end alike, or stop alike at the same step. -/
theorem Alike.steps (h : s.Alike n m n' m' s') {count : Nat}
    (hfits : ∀ shift < count, s.Fits divisor shift)
    (hfits' : ∀ shift < count, s'.Fits divisor shift) (R : CoeffRing) (kind : DivisionKind) :
    SameOutcome (Alike n m n' m') ((LongDivision.steps R kind divisor count).run s)
      ((LongDivision.steps R kind divisor count).run s') := by
  induction count generalizing s s' with
  | zero => exact .ok h
  | succ shift ih =>
    have hlast := Nat.lt_succ_self shift
    rw [run_steps_succ, run_steps_succ]
    obtain ⟨_, t, t', hrun, hrun', ht⟩ | ⟨e, t, t', hrun, hrun', ht⟩ :=
      (h.step (hfits shift hlast) (hfits' shift hlast) R kind).cases
    · rw [hrun, hrun']
      exact ih ht (fun k hk => h.fits (hfits k (Nat.lt_succ_of_lt hk)) ht)
        fun k hk => h.symm.fits (hfits' k (Nat.lt_succ_of_lt hk)) ht.symm
    · rw [hrun, hrun']
      exact .error ht

theorem Alike.finished (h : s.Alike n m n' m' s') (R : CoeffRing) :
    (s.finished R).Alike n m n' m' (s'.finished R) where
  quotient := h.quotient.trim R
  remainder := h.remainder
  lines_eq := by
    rw [LongDivision.finished, LongDivision.finished, Array.map_push, Array.map_push, h.lines_eq]
    unfold Event.text
    dsimp only
    rw [(h.quotient.trim R).text_eq, h.remainder.text_eq]

/-- How a division ends, and what it leaves in its targets, does not depend on what these held. -/
theorem sameOutcome_run (hp : dividend.WellFormed) (hword : dividend.degree < degreeBound)
    {quotient quotient' remainder remainder' : Buffer}
    (hq : Buffer.Interchangeable (dividend.degree - divisor.degree) quotient quotient')
    (hr : Buffer.Interchangeable dividend.degree remainder remainder') (R : CoeffRing)
    (kind : DivisionKind) (trace : Array Event) :
    SameOutcome (Alike quotient.capacity remainder.capacity quotient'.capacity remainder'.capacity)
      ((run R kind dividend divisor).run ⟨quotient, remainder, trace⟩)
      ((run R kind dividend divisor).run ⟨quotient', remainder', trace⟩) := by
  cases hzero : divisor.isZero with
  | true =>
    simp only [run_run, hzero, ↓reduceIte]
    exact .early rfl _ _
  | false =>
    rcases Nat.lt_or_ge dividend.degree divisor.degree with hdeg | hdeg
    · simp only [run_run, hzero, hdeg, Bool.false_eq_true, ↓reduceIte]
      exact .early rfl _ _
    rcases hq.cases with ⟨hsmall, hcap⟩ | ⟨hlarge, hlarge'⟩
    · simp only [run_run, hzero, not_lt.2 hdeg, ← hcap, hsmall, Bool.false_eq_true, ↓reduceIte]
      exact .early rfl _ _
    rcases hr.cases with ⟨hsmall, hcap⟩ | ⟨hroom, hroom'⟩
    · simp only [run_run, hzero, not_lt.2 hdeg, not_le.2 hlarge, not_le.2 hlarge', ← hcap, hsmall,
        Bool.false_eq_true, ↓reduceIte]
      exact .early rfl _ _
    -- Past the checks, both runs start from alike states.
    have hstart : Alike quotient.capacity remainder.capacity quotient'.capacity remainder'.capacity
        (started ⟨quotient, remainder, trace⟩ R kind dividend divisor)
        (started ⟨quotient', remainder', trace⟩ R kind dividend divisor) :=
      ⟨hq.alike_clear, Buffer.alike_copied hr.left hr.right hp hroom hroom', rfl⟩
    simp only [run_run, hzero, not_lt.2 hdeg, not_le.2 hlarge, not_le.2 hlarge', not_le.2 hroom,
      not_le.2 hroom', Bool.false_eq_true, ↓reduceIte]
    obtain ⟨_, s, s', hrun, hrun', h⟩ | ⟨e, s, s', hrun, hrun', h⟩ :=
      (hstart.steps (fits_started hzero hdeg hword hlarge hroom)
        (fits_started hzero hdeg hword hlarge' hroom') R kind).cases
    · rw [hrun, hrun']
      exact .ok (h.finished R)
    · rw [hrun, hrun']
      exact .error h

end LongDivision

/-! ## Reduction -/

namespace Reduction

variable {dividend divisor : Buffer} {shift : Nat} {s s' : Reduction}

/-- The reduced polynomials are alike, the multipliers the same, and the events are reported by the
    same lines. -/
structure Alike (n n' : Nat) (s s' : Reduction) : Prop where
  reduced : s.reduced.Alike n n' s'.reduced
  multiplier_eq : s.multiplier = s'.multiplier
  lines_eq : s.trace.map Event.text = s'.trace.map Event.text

theorem Alike.symm (h : s.Alike n n' s') : s'.Alike n' n s :=
  ⟨h.reduced.symm, h.multiplier_eq.symm, h.lines_eq.symm⟩

theorem Alike.reported (h : s.Alike n n' s') {event event' : Event}
    (hline : event.text = event'.text) :
    (s.reported event).Alike n n' (s'.reported event') where
  reduced := h.reduced
  multiplier_eq := h.multiplier_eq
  lines_eq := by rw [Reduction.reported, Reduction.reported, Array.map_push, Array.map_push,
    h.lines_eq, hline]

theorem Alike.announced (h : s.Alike n n' s') (k : Nat) :
    (s.reported (.reductionStep k s.reduced)).Alike n n'
      (s'.reported (.reductionStep k s'.reduced)) := by
  refine h.reported ?_
  unfold Event.text
  dsimp only
  rw [h.reduced.text_eq]

theorem Alike.finished (h : s.Alike n n' s') (a : Int) :
    (s.reported (.reductionDone a s.reduced)).Alike n n'
      (s'.reported (.reductionDone a s'.reduced)) := by
  refine h.reported ?_
  unfold Event.text
  dsimp only
  rw [h.reduced.text_eq]

theorem Alike.scaledUp (h : s.Alike n n' s') (c lead : Int) :
    (s.scaledUp c lead).Alike n n' (s'.scaledUp c lead) where
  reduced := (h.reduced.mapNonzero _).trim .integers
  multiplier_eq := by rw [Reduction.scaledUp, Reduction.scaledUp, h.multiplier_eq]
  lines_eq := by rw [Reduction.scaledUp, Reduction.scaledUp, Array.map_push, Array.map_push,
    h.lines_eq]

theorem Alike.eliminated (h : s.Alike n n' s') (hfits : s.Fits divisor shift)
    (hfits' : s'.Fits divisor shift) (a : Int) :
    (s.eliminated divisor shift a).Alike n n' (s'.eliminated divisor shift a) where
  reduced := h.reduced.eliminated (h.reduced.left.capacity_eq ▸ hfits.degree_lt_reduced)
    (h.reduced.right.capacity_eq ▸ hfits'.degree_lt_reduced) .integers a
  multiplier_eq := h.multiplier_eq
  lines_eq := h.lines_eq

theorem Alike.step (h : s.Alike n n' s') (hfits : s.Fits divisor shift)
    (hfits' : s'.Fits divisor shift) :
    SameOutcome (Alike n n') ((Reduction.step divisor shift).run s)
      ((Reduction.step divisor shift).run s') := by
  rw [run_step hfits, run_step hfits', h.reduced.slot_eq]
  dsimp only
  have hannounced := h.announced (divisor.degree + shift)
  split_ifs
  · exact .ok h
  · exact .ok (hannounced.eliminated (hfits.mono le_rfl rfl) (hfits'.mono le_rfl rfl) _)
  · exact .error fun _ => hannounced
  · exact .ok ((hannounced.scaledUp _ _).eliminated (hfits.mono le_rfl (capacity_scaledUp ..))
      (hfits'.mono le_rfl (capacity_scaledUp ..)) _)

theorem Alike.fits (h : s.Alike n n' s') (hfits : s.Fits divisor shift) {t t' : Reduction}
    (h' : t.Alike n n' t') : t.Fits divisor shift :=
  hfits.mono le_rfl (h'.reduced.left.capacity_eq.trans h.reduced.left.capacity_eq.symm)

/-- The steps of a reduction end alike, or stop alike at the same step. -/
theorem Alike.steps (h : s.Alike n n' s') {count : Nat}
    (hfits : ∀ shift < count, s.Fits divisor shift)
    (hfits' : ∀ shift < count, s'.Fits divisor shift) :
    SameOutcome (Alike n n') ((Reduction.steps divisor count).run s)
      ((Reduction.steps divisor count).run s') := by
  induction count generalizing s s' with
  | zero => exact .ok h
  | succ shift ih =>
    have hlast := Nat.lt_succ_self shift
    rw [run_steps_succ, run_steps_succ]
    obtain ⟨_, t, t', hrun, hrun', ht⟩ | ⟨e, t, t', hrun, hrun', ht⟩ :=
      (h.step (hfits shift hlast) (hfits' shift hlast)).cases
    · rw [hrun, hrun']
      exact ih ht (fun k hk => h.fits (hfits k (Nat.lt_succ_of_lt hk)) ht)
        fun k hk => h.symm.fits (hfits' k (Nat.lt_succ_of_lt hk)) ht.symm
    · rw [hrun, hrun']
      exact .error ht

/-- How a reduction ends, and what it leaves in its target, does not depend on what this held. -/
theorem sameOutcome_run (hp : dividend.WellFormed) (hword : dividend.degree < degreeBound)
    {reduced reduced' : Buffer} (hr : Buffer.Interchangeable dividend.degree reduced reduced')
    (divisor : Buffer) (a a' : Int) (trace : Array Event) :
    SameOutcome (Alike reduced.capacity reduced'.capacity)
      ((run dividend divisor).run ⟨reduced, a, trace⟩)
      ((run dividend divisor).run ⟨reduced', a', trace⟩) := by
  cases hzero : divisor.isZero with
  | true =>
    simp only [run_run, hzero, ↓reduceIte]
    exact .early rfl _ _
  | false =>
    rcases Nat.lt_or_ge dividend.degree divisor.degree with hdeg | hdeg
    · simp only [run_run, hzero, hdeg, Bool.false_eq_true, ↓reduceIte]
      exact .early rfl _ _
    rcases hr.cases with ⟨hsmall, hcap⟩ | ⟨hroom, hroom'⟩
    · simp only [run_run, hzero, not_lt.2 hdeg, ← hcap, hsmall, Bool.false_eq_true, ↓reduceIte]
      exact .early rfl _ _
    have hstart : Alike reduced.capacity reduced'.capacity
        (started ⟨reduced, a, trace⟩ dividend divisor)
        (started ⟨reduced', a', trace⟩ dividend divisor) :=
      ⟨Buffer.alike_copied hr.left hr.right hp hroom hroom', rfl, rfl⟩
    simp only [run_run, hzero, not_lt.2 hdeg, not_le.2 hroom, not_le.2 hroom', Bool.false_eq_true,
      ↓reduceIte]
    obtain ⟨_, s, s', hrun, hrun', h⟩ | ⟨e, s, s', hrun, hrun', h⟩ :=
      (hstart.steps (fits_started hzero hdeg hword hroom)
        (fits_started hzero hdeg hword hroom')).cases
    · rw [hrun, hrun']
      dsimp only
      rw [h.multiplier_eq]
      exact .ok (h.finished s'.multiplier)
    · rw [hrun, hrun']
      exact .error h

end Reduction

/-! ## All targets -/

namespace Session

variable {calls calls' : List Call} {r r' : Register}

/-- Buffers that were constructed with the same capacity, or each with a slot for `x ^ degree`, are
    interchangeable, in whatever sessions they were used. -/
theorem interchangeable (hr : r ∈ run calls) (hr' : r' ∈ run calls') {degree : Nat}
    (hbuilt : r.built = r'.built ∨ degree < r.built ∧ degree < r'.built) :
    Buffer.Interchangeable degree r.buffer r'.buffer := by
  have h := (sound_run calls r hr).buffer
  have h' := (sound_run calls' r' hr').buffer
  refine ⟨h.toWellFormed, h'.toWellFormed, ?_⟩
  rwa [h.capacity_eq, h'.capacity_eq]

end Session

/-- Long division, reduction and differentiation end alike in all interchangeable targets: with the
    same value, or with the same failure. Unless they are refused before they write anything, they
    have then reported the same lines, and they leave the same sizes and the same slots, also where
    they stop midway, and the capacities as they were. The dividend is any well-formed buffer with a
    machine word for its degree, as all buffers of sessions are, and the divisor any buffer. -/
theorem targets_interchangeable :
    (∀ (calls : List Call), ∀ r ∈ Session.run calls,
      r.buffer.WellFormed ∧ r.buffer.degree < degreeBound ∧
        ∀ (calls' : List Call), ∀ r' ∈ Session.run calls', ∀ degree,
          r.built = r'.built ∨ degree < r.built ∧ degree < r'.built →
            Buffer.Interchangeable degree r.buffer r'.buffer) ∧
    (∀ (R : CoeffRing) (kind : DivisionKind)
      (dividend divisor quotient quotient' remainder remainder' : Buffer) (trace : Array Event),
      dividend.WellFormed → dividend.degree < degreeBound →
      Buffer.Interchangeable (dividend.degree - divisor.degree) quotient quotient' →
      Buffer.Interchangeable dividend.degree remainder remainder' →
      SameOutcome
        (LongDivision.Alike quotient.capacity remainder.capacity quotient'.capacity
          remainder'.capacity)
        ((LongDivision.run R kind dividend divisor).run ⟨quotient, remainder, trace⟩)
        ((LongDivision.run R kind dividend divisor).run ⟨quotient', remainder', trace⟩)) ∧
    (∀ (dividend divisor reduced reduced' : Buffer) (a a' : Int) (trace : Array Event),
      dividend.WellFormed → dividend.degree < degreeBound →
      Buffer.Interchangeable dividend.degree reduced reduced' →
      SameOutcome (Reduction.Alike reduced.capacity reduced'.capacity)
        ((Reduction.run dividend divisor).run ⟨reduced, a, trace⟩)
        ((Reduction.run dividend divisor).run ⟨reduced', a', trace⟩)) ∧
    ∀ (R : CoeffRing) (source t u : Buffer), Buffer.Interchangeable (source.degree - 1) t u →
      SameOutcome (Buffer.Alike t.capacity u.capacity) ((Buffer.differentiate R source).run t)
        ((Buffer.differentiate R source).run u) :=
  ⟨fun calls r hr =>
      have h := Session.sound_run calls r hr
      ⟨h.buffer.toWellFormed, h.degree_lt_bound, fun _ _ hr' _ => Session.interchangeable hr hr'⟩,
    fun R kind _ _ _ _ _ _ trace hp hword hq hr =>
      LongDivision.sameOutcome_run hp hword hq hr R kind trace,
    fun _ divisor _ _ a a' trace hp hword hr =>
      Reduction.sameOutcome_run hp hword hr divisor a a' trace,
    fun R source _ _ h => Buffer.sameOutcome_differentiate R source h⟩

/-- Modulo `6`, the exact division of `4 x ^ 3 + x ^ 2` by `2 x + 1` stops at its second step, in
    fresh buffers as in larger ones that hold other polynomials, one of them with a zero in its
    highest significant slot. What it leaves is the same, and so is what a reduction and a
    derivative leave in these buffers. -/
theorem targets_interchangeable_six :
    let R : CoeffRing := .modular 6 false (by decide)
    let p : Buffer := ⟨4, #[0, 0, 1, 4]⟩
    let d : Buffer := ⟨2, #[1, 2]⟩
    let fresh : Buffer := ⟨1, #[0, 0, 0, 0]⟩
    let stale : Buffer := ⟨3, #[5, 7, 0, 0, 0]⟩
    (∃ s s', (LongDivision.run R .exact p d).run ⟨fresh, fresh, #[]⟩ =
        .error (.refused (.inexactDivision (-1) 2)) s ∧
      (LongDivision.run R .exact p d).run ⟨stale, stale, #[]⟩ =
        .error (.refused (.inexactDivision (-1) 2)) s' ∧
      s.Alike 4 4 5 5 s') ∧
    SameOutcome (Reduction.Alike 4 5) ((Reduction.run p d).run ⟨fresh, 1, #[]⟩)
      ((Reduction.run p d).run ⟨stale, 1, #[]⟩) ∧
    SameOutcome (Buffer.Alike 4 5) ((Buffer.differentiate R p).run fresh)
      ((Buffer.differentiate R p).run stale) := by
  intro R p d fresh stale
  obtain ⟨hsessions, hdivision, hreduction, hderivative⟩ := targets_interchangeable
  have htargets : ∀ degree < 4, Buffer.Interchangeable degree fresh stale := fun degree hlt =>
    (hsessions [.construct (.ofCapacity 4)] ⟨fresh, 4⟩ (by decide +kernel)).2.2
      [.construct (.ofCoefficients .integers 5 [5, 7]), .edit 0 (.expose 2)] ⟨stale, 5⟩
      (by decide +kernel) degree (.inr ⟨hlt, Nat.lt_succ_of_lt hlt⟩)
  obtain ⟨hp, hword, -⟩ := hsessions [.construct (.ofCoefficients .integers 4 [0, 0, 1, 4])] ⟨p, 4⟩
    (by decide +kernel)
  refine ⟨?_, hreduction p d fresh stale 1 1 #[] hp hword (htargets _ (by decide)),
    hderivative R p fresh stale (htargets _ (by decide))⟩
  have hvalue : (LongDivision.run R .exact p d).outcome ⟨fresh, fresh, #[]⟩ =
      .error (.refused (.inexactDivision (-1) 2)) := by
    decide +kernel
  obtain ⟨_, s, s', hrun, hrun', h⟩ | ⟨e, s, s', hrun, hrun', h⟩ :=
    (hdivision R .exact p d fresh stale fresh stale #[] hp hword (htargets _ (by decide))
      (htargets _ (by decide))).cases
  · rw [Action.outcome_of_run_ok hrun] at hvalue
    cases hvalue
  · rw [Action.outcome_of_run_error hrun] at hvalue
    cases hvalue
    exact ⟨s, s', hrun, hrun', h rfl⟩

end Univariate
