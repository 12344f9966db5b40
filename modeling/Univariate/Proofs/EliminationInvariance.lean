import Univariate.Proofs.DivisionSteps
import Univariate.Proofs.ReductionSteps

/-!
# Eliminations keep the representation invariant

A long division keeps the invariant of its two buffers and a reduction that of its one, also where
they stop midway.

* An exact division and a reduction keep it at every step (`LongDivision.Sound.subtracted`,
  `Reduction.sound_steps`).
* A pseudo-division may put a zero in the highest slot of the quotient for a while, where a power of
  the leading coefficient vanishes. Its end trims the quotient (`LongDivision.Sound.finished`), and
  it does come to that when it gets past the first step.
-/

namespace Univariate

variable {R : CoeffRing} {kind : DivisionKind} {dividend divisor : Buffer} {n m k : Nat}
  {P Q : Prop}

namespace LongDivision

/-- Both buffers are sound. -/
structure Sound (n m : Nat) (P Q : Prop) (s : LongDivision) : Prop where
  quotient : s.quotient.Sound n P
  remainder : s.remainder.Sound m Q

variable {s : LongDivision} {shift : Nat}

theorem Sound.reported (h : s.Sound n m P Q) (event : Event) : (s.reported event).Sound n m P Q :=
  ⟨h.quotient, h.remainder⟩

theorem Sound.started (h : s.Sound n m P Q) (hp : dividend.Sound k Q)
    (hr : dividend.degree < s.remainder.capacity) :
    (s.started R kind dividend divisor).Sound n m P Q where
  quotient := h.quotient.clear
  remainder := h.remainder.capacity_eq ▸ Buffer.sound_copied h.remainder.toWellFormed hp hr

/-- The end of a division trims the quotient. -/
theorem Sound.finished {P' : Prop} (h : s.Sound n m P' Q) : (s.finished R).Sound n m P Q where
  quotient := h.quotient.toWellFormed.sound_trim h.quotient.capacity_eq
  remainder := h.remainder

theorem Sound.scaled (h : s.Sound n m P Q) : (s.scaled R divisor).Sound n m P Q where
  quotient := h.quotient
  remainder := (h.remainder.mapNonzero _).sound_trim
    ((Buffer.capacity_mapNonzero ..).trans h.remainder.capacity_eq)

theorem Sound.subtracted (h : s.Sound n m P Q) (hfits : s.Fits divisor shift)
    {factor coefficient : Int} (hc : R.isZero factor = false → P → coefficient ≠ 0) :
    (s.subtracted R divisor shift factor coefficient).Sound n m P Q := by
  rw [LongDivision.subtracted]
  split
  · exact h
  · next hz =>
    refine ⟨h.quotient.written hfits.shift_lt_quotient (hc (by simpa using hz)), ?_⟩
    exact h.remainder.toWellFormed.sound_resize h.remainder.capacity_eq
      (Buffer.size_subShifted ..) (Buffer.capacity_subShifted ..) hfits.degree_lt_remainder
      fun _ hi => Buffer.slot_subShifted_of_lt _ _ _ hi

/-- A long division keeps the invariant of its buffers, however it ends. -/
theorem keeps_run (R : CoeffRing) (kind : DivisionKind) (divisor : Buffer)
    (hp : dividend.Sound k Q) (hword : k < degreeBound) :
    (run R kind dividend divisor).Keeps (Sound n m P Q) := by
  -- A pseudo-division may put a zero in the highest slot of the quotient, until the end trims it.
  have hinvariant : Invariant R kind dividend divisor (Sound n m P Q) (Sound n m False Q) := {
    reported := fun s event h => h.reported event
    started := fun s hr h => h.started hp hr
    exactStepped := fun s shift factor hfits _ h => (h.reported _).subtracted hfits.announced
      fun hz _ => CoeffRing.ne_zero_of_isZero_eq_false hz
    weaken := fun s h => ⟨h.quotient.imp_trimmed False.elim, h.remainder⟩
    pseudoStepped := fun s shift hfits h =>
      (h.reported _).scaled.subtracted (hfits.scaled R) fun _ => False.elim
    finished := fun s h => h.finished }
  exact hinvariant.keeps_run ((hp.capacity_eq ▸ hp.degree_lt_capacity).trans hword)

end LongDivision

namespace Reduction

/-- The buffer is sound. -/
def Sound (n : Nat) (P : Prop) (s : Reduction) : Prop :=
  s.reduced.Sound n P

variable {s : Reduction} {shift : Nat}

theorem Sound.eliminated (h : s.Sound n P) (hfits : s.Fits divisor shift) (a : Int) :
    (s.eliminated divisor shift a).Sound n P :=
  h.toWellFormed.sound_resize h.capacity_eq (Buffer.size_subShifted ..)
    (Buffer.capacity_subShifted ..) hfits.degree_lt_reduced
    fun _ hi => Buffer.slot_subShifted_of_lt _ _ _ hi

theorem Sound.scaledUp (h : s.Sound n P) (c lead : Int) : (s.scaledUp c lead).Sound n P :=
  (h.mapNonzero _).sound_trim ((Buffer.capacity_mapNonzero ..).trans h.capacity_eq)

/-- The steps of a reduction keep the invariant, whether they come to an end or not. -/
theorem sound_steps {count : Nat} (h : s.Sound n P)
    (hfits : ∀ shift < count, s.Fits divisor shift) :
    ((steps divisor count).leaves s).Sound n P := by
  induction count generalizing s with
  | zero => exact h
  | succ shift ih =>
    have hlast := hfits shift (Nat.lt_succ_self shift)
    rw [Action.leaves, run_steps_succ, run_step hlast]
    dsimp only
    split_ifs
    · exact ih h fun k hk => hfits k (Nat.lt_succ_of_lt hk)
    · refine ih (Sound.eliminated (s := s.reported _) h (hlast.mono le_rfl rfl) _) fun k hk => ?_
      exact (hfits k (Nat.lt_succ_of_lt hk)).mono le_rfl (capacity_eliminated ..)
    · exact h
    · refine ih (Sound.eliminated (Sound.scaledUp (s := s.reported _) h _ _)
        (hlast.mono le_rfl (capacity_scaledUp ..)) _) fun k hk => ?_
      exact (hfits k (Nat.lt_succ_of_lt hk)).mono le_rfl
        ((capacity_eliminated ..).trans (capacity_scaledUp ..))

/-- A reduction keeps the invariant of its buffer, however it ends. -/
theorem keeps_run (divisor : Buffer) (hp : dividend.Sound k P) (hword : k < degreeBound) :
    (run dividend divisor).Keeps (Sound n P) := by
  intro s h
  rw [Action.leaves, run_run]
  split_ifs with hzero hdeg hr
  · exact h
  · exact h
  · exact h
  · have hlt : dividend.degree < k := hp.capacity_eq ▸ hp.degree_lt_capacity
    have hstart : (s.started dividend divisor).Sound n P := by
      have := Buffer.sound_copied h.toWellFormed hp (not_le.1 hr)
      rwa [h.capacity_eq] at this
    have hsteps : Sound n P ((steps divisor (dividend.degree - divisor.degree + 1)).leaves
        (s.started dividend divisor)) :=
      sound_steps hstart
        (fits_started (by simpa using hzero) (not_lt.1 hdeg) (hlt.trans hword) (not_le.1 hr))
    split
    · next s' hrun => exact Action.leaves_of_run_ok hrun ▸ hsteps
    · next s' hrun => exact Action.leaves_of_run_error hrun ▸ hsteps

end Reduction

namespace Buffer

variable {trace trace' : Array Event}

/-- Where a division into fresh buffers succeeds, these are sound. -/
theorem sound_divide {quotient remainder : Buffer} (hp : dividend.Sound k P)
    (hword : k < degreeBound)
    (h : (divide R kind dividend divisor).run trace = .ok (quotient, remainder) trace') :
    dividend.degree + 1 < degreeBound ∧
      quotient.Sound (dividend.degree - divisor.degree + 1) P ∧
      remainder.Sound (dividend.degree + 1) P := by
  rw [run_divide] at h
  split_ifs at h with hd
  refine ⟨hd, ?_⟩
  have hkeeps := LongDivision.keeps_run R kind divisor hp hword _
    (show LongDivision.Sound _ _ P P ⟨_, _, trace⟩ from
      ⟨sound_zero (Nat.le_add_left 1 (dividend.degree - divisor.degree)),
        sound_zero (Nat.le_add_left 1 dividend.degree)⟩)
  split at h
  · next s hrun =>
    rw [Action.leaves_of_run_ok hrun] at hkeeps
    cases h
    exact ⟨hkeeps.quotient, hkeeps.remainder⟩
  · cases h

/-- Where a reduction into a fresh buffer succeeds, this is sound. -/
theorem sound_reduce {a : Int} {reduced : Buffer} (hp : dividend.Sound k P)
    (hword : k < degreeBound)
    (h : (reduce dividend divisor).run trace = .ok (a, reduced) trace') :
    dividend.degree + 1 < degreeBound ∧ reduced.Sound (dividend.degree + 1) P := by
  rw [run_reduce] at h
  split_ifs at h with hd
  refine ⟨hd, ?_⟩
  have hkeeps := Reduction.keeps_run divisor hp hword _
    (show Reduction.Sound _ P ⟨_, 1, trace⟩ from sound_zero (Nat.le_add_left 1 dividend.degree))
  split at h
  · next s hrun =>
    rw [Action.leaves_of_run_ok hrun] at hkeeps
    cases h
    exact hkeeps
  · cases h

end Buffer

end Univariate
