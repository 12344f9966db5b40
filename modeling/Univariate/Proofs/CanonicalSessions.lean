import Univariate.Proofs.CanonicalEdits
import Univariate.Proofs.Sessions

/-!
# Sessions in one ring

In a session whose calls all work over one ring, every buffer is at all times the canonical form of
the polynomial it represents there, although no buffer knows the ring.

* `Call.isOver` says which calls these are. Those that work over the integers in any case, and those
  that make slots significant without writing them, are not among them.
* `Session.canonical_step` is what one call keeps, and `Session.canonical_foldl` what any number of
  them do.
* A canonical buffer is the zero buffer, has a degree, and is equal to another one, exactly as the
  polynomials they represent (`Session.canonical_run`).
-/

namespace Univariate

/-! ## Calls over a ring -/

/-- Whether a change works over the ring, and writes what it makes significant. -/
def Change.isOver (R : CoeffRing) : Change → Bool
  | .copy _ | .clear => true
  | .expose _ | .makePrimitive _ => false
  | .trim S | .scale S _ | .unscale S _ | .negate S | .subBufferMultiple S _ _ | .subProduct S _ _
  | .differentiate S _ => S = R
  | .addMultiple source _ | .addMultipleInt64 source _ | .addTermMultiple source _
  | .subTermMultiple source _ => source.ring = R

/-- Whether a construction works over the ring. -/
def Construction.isOver (R : CoeffRing) : Construction → Bool
  | .ofCapacity _ | .ofDegreeBound _ | .clone _ => true
  | .ofPoly _ p => p.ring = R
  | .ofCoefficients S _ _ | .divide S _ _ _ => S = R
  | .reduce _ _ => false

/-- Whether a call works over the ring, and writes what it makes significant. -/
def Call.isOver (R : CoeffRing) : Call → Bool
  | .construct construction => construction.isOver R
  | .edit _ change => change.isOver R
  | .swap _ _ => true
  | .divide S _ _ _ _ _ => S = R
  | .reduce _ _ _ => false

namespace Session

variable {R : CoeffRing} {s : Session}

/-! ## What a call over the ring keeps -/

/-- Every register is sound, and its buffer canonical. -/
structure Canonical (R : CoeffRing) (s : Session) : Prop where
  sound : s.Sound False
  canonical : ∀ r ∈ s, r.buffer.Canonical R

theorem Canonical.getElem? (h : s.Canonical R) {i : Nat} {r : Register} (hi : s[i]? = some r) :
    r.buffer.Canonical R :=
  h.canonical r (List.mem_of_getElem? hi)

theorem keeps_canonical_editOf {change : Change} {edit : Edit Unit} (h : s.Canonical R)
    (hover : change.isOver R = true) (hedit : s.editOf change = some edit) :
    edit.Keeps (Buffer.Canonical R) := by
  cases change with
  | trim S =>
    obtain rfl := of_decide_eq_true hover
    cases hedit
    exact Action.keeps_modify fun t ht => ht.toWellFormed.canonical_trim ht.contains_slot
  | copy source =>
    obtain ⟨r, hr, hedit⟩ := Option.bind_eq_some_iff.1 hedit
    cases hedit
    exact Buffer.keeps_canonical_copy (h.getElem? hr)
  | clear =>
    cases hedit
    exact Action.keeps_modify fun t ht => ht.clear
  | expose degree => cases hover
  | scale S c =>
    obtain rfl := of_decide_eq_true hover
    cases hedit
    exact Buffer.keeps_canonical_scale c
  | unscale S c =>
    obtain rfl := of_decide_eq_true hover
    cases hedit
    exact Buffer.keeps_canonical_unscale c
  | negate S =>
    obtain rfl := of_decide_eq_true hover
    cases hedit
    exact Action.keeps_modify fun t ht => ht.negate
  | makePrimitive positive => cases hover
  | addMultiple source c =>
    obtain rfl := of_decide_eq_true hover
    cases hedit
    exact Buffer.keeps_canonical_addMultiple source c
  | addMultipleInt64 source c =>
    obtain rfl := of_decide_eq_true hover
    cases hedit
    rw [Buffer.addMultipleInt64_eq]
    exact Buffer.keeps_canonical_addMultiple source c.toInt
  | addTermMultiple source a =>
    obtain rfl := of_decide_eq_true hover
    cases hedit
    exact Buffer.keeps_canonical_addTermMultiple source a
  | subTermMultiple source a =>
    obtain rfl := of_decide_eq_true hover
    cases hedit
    exact Buffer.keeps_canonical_subTermMultiple source a
  | subBufferMultiple S source a =>
    obtain rfl := of_decide_eq_true hover
    obtain ⟨r, -, hedit⟩ := Option.bind_eq_some_iff.1 hedit
    cases hedit
    exact Buffer.keeps_canonical_subBufferMultiple r.buffer a
  | subProduct S p q =>
    obtain rfl := of_decide_eq_true hover
    obtain ⟨r, -, hedit⟩ := Option.bind_eq_some_iff.1 hedit
    obtain ⟨r', -, hedit⟩ := Option.bind_eq_some_iff.1 hedit
    cases hedit
    exact Buffer.keeps_canonical_subProduct r.buffer r'.buffer
  | differentiate S source =>
    obtain rfl := of_decide_eq_true hover
    obtain ⟨r, -, hedit⟩ := Option.bind_eq_some_iff.1 hedit
    cases hedit
    exact Buffer.keeps_canonical_differentiate r.buffer

theorem canonical_registered {built : Nat} {outcome : Except Failure Buffer}
    (h : ∀ t, outcome = .ok t → t.Canonical R) :
    ∀ r ∈ registered built outcome, r.buffer.Canonical R := by
  intro r hr
  cases outcome with
  | error e => cases hr
  | ok t =>
    obtain rfl := List.mem_singleton.1 hr
    exact h t rfl

theorem canonical_registersOf (h : s.Canonical R) {construction : Construction}
    (hover : construction.isOver R = true) :
    ∀ r ∈ s.registersOf construction, r.buffer.Canonical R := by
  cases construction with
  | ofCapacity capacity => exact canonical_registered fun t ht => Buffer.canonical_ofCapacity ht
  | ofDegreeBound degree =>
    exact canonical_registered fun t ht => Buffer.canonical_ofDegreeBound ht
  | ofPoly capacity p =>
    have hring : p.ring = R := of_decide_eq_true hover
    exact canonical_registered fun t ht => (Buffer.holds_of_ofPoly ht).canonical_ring hring
  | ofCoefficients S capacity cs =>
    obtain rfl := of_decide_eq_true hover
    exact canonical_registered fun t ht => Buffer.canonical_ofCoefficients ht
  | clone source => exact fun r hr => h.getElem? (Option.mem_toList.1 hr)
  | divide S kind dividend divisor =>
    obtain rfl := of_decide_eq_true hover
    rw [registersOf]
    split
    · next p d hp _ =>
      split
      · next quotient remainder _ hrun =>
        obtain ⟨hq, hr⟩ := Buffer.canonical_divide (h.getElem? hp) hrun
        intro r hmem
        rcases List.mem_pair.1 hmem with rfl | rfl
        · exact hq
        · exact hr
      · exact fun r hr => absurd hr List.not_mem_nil
    · exact fun r hr => absurd hr List.not_mem_nil
  | reduce dividend divisor => cases hover

/-- A call over the ring keeps all buffers canonical, whether it succeeds, is refused or breaks
    off. -/
theorem canonical_step (h : s.Canonical R) (call : Call) (hover : call.isOver R = true) :
    (s.step call).Canonical R where
  sound := sound_step h.sound call False.elim
  canonical r hmem := by
    cases origin_of_mem_step hmem with
    | kept hr => exact h.canonical r hr
    | constructed hr => exact canonical_registersOf h hover r hr
    | edited ht hedit => exact keeps_canonical_editOf h hover hedit _ (h.canonical _ ht)
    | quotient hp _ hq hr =>
      obtain rfl := of_decide_eq_true hover
      exact (LongDivision.keeps_canonical_run _ _ (h.canonical _ hp)
        (h.sound _ hp).degree_lt_bound _
        (.of_buffers (h.canonical _ hq) (h.canonical _ hr))).canonical_quotient
    | remainder hp _ hq hr =>
      obtain rfl := of_decide_eq_true hover
      exact (LongDivision.keeps_canonical_run _ _ (h.canonical _ hp)
        (h.sound _ hp).degree_lt_bound _
        (.of_buffers (h.canonical _ hq) (h.canonical _ hr))).remainder
    | reduced => cases hover

/-- So do any number of calls over the ring. -/
theorem canonical_foldl (h : s.Canonical R) (calls : List Call)
    (hover : ∀ call ∈ calls, call.isOver R = true) : (calls.foldl step s).Canonical R := by
  induction calls generalizing s with
  | nil => exact h
  | cons call calls ih =>
    exact ih (canonical_step h call (hover call List.mem_cons_self))
      fun c hc => hover c (List.mem_cons_of_mem call hc)

/-- In a session whose calls are over one ring, every buffer is canonical in the ring. Hence it is
    the zero buffer exactly when it represents zero, its degree is that of the polynomial it
    represents, and it has the same coefficients as a buffer of another such session, of whatever
    capacity, exactly when both represent the same polynomial. -/
theorem canonical_run {calls calls' : List Call} (hover : ∀ call ∈ calls, call.isOver R = true)
    (hover' : ∀ call ∈ calls', call.isOver R = true) {r r' : Register} (hr : r ∈ run calls)
    (hr' : r' ∈ run calls') :
    r.buffer.Canonical R ∧ (r.buffer.isZero = true ↔ r.buffer.image R = 0) ∧
      r.buffer.degree = (r.buffer.image R).natDegree ∧
      (r.buffer.sameCoefficients r'.buffer = true ↔ r.buffer.image R = r'.buffer.image R) := by
  have hempty : Session.Canonical R [] :=
    ⟨fun _ h => absurd h List.not_mem_nil, fun _ h => absurd h List.not_mem_nil⟩
  have h := (canonical_foldl hempty calls hover).canonical r hr
  have h' := (canonical_foldl hempty calls' hover').canonical r' hr'
  exact ⟨h, h.isZero_iff_image_eq_zero, h.natDegree_image.symm, h.sameCoefficients_iff h'⟩

/-- Modulo `6`, the exact division of `4 x ^ 3 + x ^ 2` by `2 x + 1` stops after a step. The
    quotient it leaves is canonical, and is the polynomial `2 x ^ 2` that a buffer of another
    capacity holds from the start. -/
theorem canonical_stopped :
    let R : CoeffRing := .modular 6 false (by decide)
    let stopped : Buffer := ⟨3, #[0, 0, 2]⟩
    let constructed : Buffer := ⟨3, #[0, 0, 2, 0, 0]⟩
    ⟨stopped, 3⟩ ∈ run [.construct (.ofCoefficients R 4 [0, 0, 1, 4]),
        .construct (.ofCoefficients R 2 [1, 2]), .construct (.ofCapacity 3),
        .construct (.ofCapacity 4), .divide R .exact 0 1 2 3] ∧
      ⟨constructed, 5⟩ ∈ run [.construct (.ofCoefficients R 5 [0, 0, 8])] ∧
      stopped.Canonical R ∧ stopped.image R = constructed.image R := by
  intro R stopped constructed
  have hstopped : ⟨stopped, 3⟩ ∈ run [.construct (.ofCoefficients R 4 [0, 0, 1, 4]),
      .construct (.ofCoefficients R 2 [1, 2]), .construct (.ofCapacity 3),
      .construct (.ofCapacity 4), .divide R .exact 0 1 2 3] := by
    decide +kernel
  have hconstructed : ⟨constructed, 5⟩ ∈ run [.construct (.ofCoefficients R 5 [0, 0, 8])] := by
    decide +kernel
  obtain ⟨hcanonical, -, -, hsame⟩ := canonical_run (R := R) (by decide) (by decide) hstopped
    hconstructed
  exact ⟨hstopped, hconstructed, hcanonical, hsame.1 (by decide)⟩

end Session

end Univariate
