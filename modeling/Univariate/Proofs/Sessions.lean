import Univariate.Proofs.EliminationInvariance

/-!
# Sessions

A *session* is a run of calls on buffers that are held in registers: constructions add registers,
edits, divisions and reductions change them in place, in whichever rings they name, and a call that
fails leaves what it has done so far.

* A register holds, next to its buffer, the capacity that the buffer was constructed with
  (`Register.built`).
* After every session, every buffer satisfies the representation invariant and has the capacity of
  its construction (`Session.represents_run`). A session that never makes slots significant without
  writing them (`Call.exposes`) leaves a non-zero integer in the highest significant slot, unless
  this is the only one.
-/

namespace Univariate

/-- A buffer in use. -/
structure Register where
  /-- The buffer as it is. -/
  buffer : Buffer
  /-- The capacity it was constructed with. -/
  built : Nat
  deriving DecidableEq

/-- The buffers in use, by the number of their register. -/
abbrev Session := List Register

/-- The buffer is sound, and its capacity a machine word. -/
structure Register.Sound (trimmed : Prop) (r : Register) : Prop where
  buffer : r.buffer.Sound r.built trimmed
  built_lt_bound : r.built < degreeBound

theorem Register.Sound.update {r : Register} {P : Prop} (h : r.Sound P) {t : Buffer}
    (ht : t.Sound r.built P) : ({ r with buffer := t } : Register).Sound P :=
  ⟨ht, h.built_lt_bound⟩

/-- The degree of a buffer in use is a machine word. -/
theorem Register.Sound.degree_lt_bound {r : Register} {P : Prop} (h : r.Sound P) :
    r.buffer.degree < degreeBound := by
  have hlt := h.buffer.degree_lt_capacity
  rw [h.buffer.capacity_eq] at hlt
  exact hlt.trans h.built_lt_bound

/-- What is done to the buffer of one register. Sources are buffers of registers. -/
inductive Change where
  | trim (R : CoeffRing)
  | copy (source : Nat)
  | clear
  | expose (degree : UInt64)
  | scale (R : CoeffRing) (c : Int)
  | unscale (R : CoeffRing) (c : Int)
  | negate (R : CoeffRing)
  | makePrimitive (positive : Bool)
  | addMultiple (source : Poly) (c : Int)
  | addMultipleInt64 (source : Poly) (c : Int64)
  | addTermMultiple (source : Poly) (a : Term)
  | subTermMultiple (source : Poly) (a : Term)
  | subBufferMultiple (R : CoeffRing) (source : Nat) (a : Term)
  | subProduct (R : CoeffRing) (p q : Nat)
  | differentiate (R : CoeffRing) (source : Nat)

/-- How new registers come about. -/
inductive Construction where
  | ofCapacity (capacity : UInt64)
  | ofDegreeBound (degree : UInt64)
  | ofPoly (capacity : UInt64) (p : Poly)
  | ofCoefficients (R : CoeffRing) (capacity : UInt64) (cs : List Int)
  | clone (source : Nat)
  | divide (R : CoeffRing) (kind : DivisionKind) (dividend divisor : Nat)
  | reduce (dividend divisor : Nat)

/-- A call in a session. Registers are given by their numbers. -/
inductive Call where
  | construct (construction : Construction)
  | edit (target : Nat) (change : Change)
  | swap (i j : Nat)
  | divide (R : CoeffRing) (kind : DivisionKind) (dividend divisor quotient remainder : Nat)
  | reduce (dividend divisor reduced : Nat)

namespace Session

variable (s : Session)

/-! ## Calls -/

/-- The edit of a change, if its sources exist. -/
def editOf : Change → Option (Edit Unit)
  | .trim R => return modify (·.trim R)
  | .copy source => return Buffer.copy (← s[source]?).buffer
  | .clear => return modify Buffer.clear
  | .expose degree => return Buffer.expose degree.toNat
  | .scale R c => return Buffer.scale R c
  | .unscale R c => return Buffer.unscale R c
  | .negate R => return modify (·.negate R)
  | .makePrimitive positive => return Buffer.makePrimitive positive
  | .addMultiple source c => return Buffer.addMultiple source c
  | .addMultipleInt64 source c => return Buffer.addMultipleInt64 source c
  | .addTermMultiple source a => return Buffer.addTermMultiple source a
  | .subTermMultiple source a => return Buffer.subTermMultiple source a
  | .subBufferMultiple R source a => return Buffer.subBufferMultiple R (← s[source]?).buffer a
  | .subProduct R p q => return Buffer.subProduct R (← s[p]?).buffer (← s[q]?).buffer
  | .differentiate R source => return Buffer.differentiate R (← s[source]?).buffer

/-- A register for a buffer constructed with the capacity `built`, none where there is no buffer. -/
def registered (built : Nat) : Except Failure Buffer → Session
  | .ok t => [⟨t, built⟩]
  | .error _ => []

/-- The registers that a construction adds. -/
def registersOf : Construction → Session
  | .ofCapacity capacity => registered capacity.toNat (Buffer.ofCapacity capacity.toNat)
  | .ofDegreeBound degree => registered (degree.toNat + 1) (Buffer.ofDegreeBound degree.toNat)
  | .ofPoly capacity p => registered capacity.toNat (Buffer.ofPoly capacity.toNat p)
  | .ofCoefficients R capacity cs =>
      registered capacity.toNat (Buffer.ofCoefficients R capacity.toNat cs)
  | .clone source => s[source]?.toList
  | .divide R kind dividend divisor =>
      match s[dividend]?, s[divisor]? with
      | some p, some d =>
        match (Buffer.divide R kind p.buffer d.buffer).run #[] with
        | .ok (quotient, remainder) _ =>
            [⟨quotient, p.buffer.degree - d.buffer.degree + 1⟩, ⟨remainder, p.buffer.degree + 1⟩]
        | .error _ _ => []
      | _, _ => []
  | .reduce dividend divisor =>
      match s[dividend]?, s[divisor]? with
      | some p, some d =>
        match (Buffer.reduce p.buffer d.buffer).run #[] with
        | .ok (_, reduced) _ => [⟨reduced, p.buffer.degree + 1⟩]
        | .error _ _ => []
      | _, _ => []

/-- The session after a call. A call on a register that does not exist changes nothing. -/
def step : Call → Session
  | .construct construction => s ++ s.registersOf construction
  | .edit target change =>
      match s[target]?, s.editOf change with
      | some t, some edit => s.set target { t with buffer := edit.leaves t.buffer }
      | _, _ => s
  | .swap i j =>
      match s[i]?, s[j]? with
      | some r, some r' => (s.set i r').set j r
      | _, _ => s
  | .divide R kind dividend divisor quotient remainder =>
      match s[dividend]?, s[divisor]?, s[quotient]?, s[remainder]? with
      | some p, some d, some q, some r =>
        let left := (LongDivision.run R kind p.buffer d.buffer).leaves ⟨q.buffer, r.buffer, #[]⟩
        (s.set quotient { q with buffer := left.quotient }).set remainder
          { r with buffer := left.remainder }
      | _, _, _, _ => s
  | .reduce dividend divisor reduced =>
      match s[dividend]?, s[divisor]?, s[reduced]? with
      | some p, some d, some t =>
        let left := (Reduction.run p.buffer d.buffer).leaves ⟨t.buffer, 1, #[]⟩
        s.set reduced { t with buffer := left.reduced }
      | _, _, _ => s

/-- The session after the calls, starting without registers. -/
def run (calls : List Call) : Session :=
  calls.foldl step []

end Session

/-- Whether a call makes slots significant without writing them. -/
def Call.exposes : Call → Bool
  | .edit _ (.expose _) => true
  | _ => false

namespace Session

variable {s : Session} {P : Prop}

/-! ## Where registers are from -/

/-- Where a register after a call is from: it is an old one, a constructed one, or an old one whose
    buffer was changed. -/
inductive Origin (s : Session) : Call → Register → Prop
  | kept {call : Call} {r : Register} (hr : r ∈ s) : Origin s call r
  | constructed {construction : Construction} {r : Register}
      (hr : r ∈ s.registersOf construction) : Origin s (.construct construction) r
  | edited {target : Nat} {change : Change} {edit : Edit Unit} {t : Register} (ht : t ∈ s)
      (hedit : s.editOf change = some edit) :
      Origin s (.edit target change) { t with buffer := edit.leaves t.buffer }
  | quotient {R : CoeffRing} {kind : DivisionKind} {i j k l : Nat} {p d q r : Register}
      (hp : p ∈ s) (hd : d ∈ s) (hq : q ∈ s) (hr : r ∈ s) :
      Origin s (.divide R kind i j k l) { q with
        buffer := ((LongDivision.run R kind p.buffer d.buffer).leaves
          ⟨q.buffer, r.buffer, #[]⟩).quotient }
  | remainder {R : CoeffRing} {kind : DivisionKind} {i j k l : Nat} {p d q r : Register}
      (hp : p ∈ s) (hd : d ∈ s) (hq : q ∈ s) (hr : r ∈ s) :
      Origin s (.divide R kind i j k l) { r with
        buffer := ((LongDivision.run R kind p.buffer d.buffer).leaves
          ⟨q.buffer, r.buffer, #[]⟩).remainder }
  | reduced {i j k : Nat} {p d t : Register} (hp : p ∈ s) (hd : d ∈ s) (ht : t ∈ s) :
      Origin s (.reduce i j k) { t with
        buffer := ((Reduction.run p.buffer d.buffer).leaves ⟨t.buffer, 1, #[]⟩).reduced }

theorem origin_of_mem_step {call : Call} {r : Register} (hr : r ∈ s.step call) :
    s.Origin call r := by
  cases call with
  | construct construction =>
    rcases List.mem_append.1 hr with hr | hr
    · exact .kept hr
    · exact .constructed hr
  | edit target change =>
    rw [step] at hr
    split at hr
    · next t edit ht hedit =>
      rcases List.mem_or_eq_of_mem_set hr with hr | rfl
      · exact .kept hr
      · exact .edited (List.mem_of_getElem? ht) hedit
    · exact .kept hr
  | swap i j =>
    rw [step] at hr
    split at hr
    · next r₁ r₂ hr₁ hr₂ =>
      rcases List.mem_or_eq_of_mem_set hr with hr | rfl
      · rcases List.mem_or_eq_of_mem_set hr with hr | rfl
        · exact .kept hr
        · exact .kept (List.mem_of_getElem? hr₂)
      · exact .kept (List.mem_of_getElem? hr₁)
    · exact .kept hr
  | divide R kind dividend divisor quotient remainder =>
    rw [step] at hr
    split at hr
    · next p d q t hp hd hq ht =>
      have hp := List.mem_of_getElem? hp
      have hd := List.mem_of_getElem? hd
      have hq := List.mem_of_getElem? hq
      have ht := List.mem_of_getElem? ht
      -- The operands are read before the division, also where they are its targets.
      rcases List.mem_or_eq_of_mem_set hr with hr | rfl
      · rcases List.mem_or_eq_of_mem_set hr with hr | rfl
        · exact .kept hr
        · exact .quotient hp hd hq ht
      · exact .remainder hp hd hq ht
    · exact .kept hr
  | reduce dividend divisor reduced =>
    rw [step] at hr
    split at hr
    · next p d t hp hd ht =>
      rcases List.mem_or_eq_of_mem_set hr with hr | rfl
      · exact .kept hr
      · exact .reduced (List.mem_of_getElem? hp) (List.mem_of_getElem? hd)
          (List.mem_of_getElem? ht)
    · exact .kept hr

/-! ## What a call keeps -/

/-- Every register is sound. -/
def Sound (trimmed : Prop) (s : Session) : Prop :=
  ∀ r ∈ s, r.Sound trimmed

theorem Sound.getElem? (h : s.Sound P) {i : Nat} {r : Register} (hi : s[i]? = some r) :
    r.Sound P :=
  h r (List.mem_of_getElem? hi)

/-- Every edit keeps the invariant, but that making slots significant may leave a zero highest
    one. -/
theorem keeps_editOf {target : Nat} {change : Change} {edit : Edit Unit} {n : Nat} (h : s.Sound P)
    (hexposes : P → (Call.edit target change).exposes = false)
    (hedit : s.editOf change = some edit) : edit.Keeps (Buffer.Sound n P) := by
  cases change with
  | trim R =>
    cases hedit
    exact Action.keeps_modify fun t ht => ht.toWellFormed.sound_trim ht.capacity_eq
  | copy source =>
    obtain ⟨r, hr, hedit⟩ := Option.bind_eq_some_iff.1 hedit
    cases hedit
    exact Buffer.keeps_copy (h.getElem? hr).buffer
  | clear =>
    cases hedit
    exact Action.keeps_modify fun t ht => ht.clear
  | expose degree =>
    cases hedit
    -- Trimming is not asked for in a session with such a call.
    refine Buffer.keeps_expose (fun hP => ?_) degree.toNat
    cases hexposes hP
  | scale R c =>
    cases hedit
    exact Buffer.keeps_scale R c
  | unscale R c =>
    cases hedit
    exact Buffer.keeps_unscale R c
  | negate R =>
    cases hedit
    exact Action.keeps_modify fun t ht => ht.negate R
  | makePrimitive positive =>
    cases hedit
    exact Buffer.keeps_makePrimitive positive
  | addMultiple source c =>
    cases hedit
    exact Buffer.keeps_addMultiple source c
  | addMultipleInt64 source c =>
    cases hedit
    rw [Buffer.addMultipleInt64_eq]
    exact Buffer.keeps_addMultiple source c.toInt
  | addTermMultiple source a =>
    cases hedit
    exact Buffer.keeps_addTermMultiple source a
  | subTermMultiple source a =>
    cases hedit
    exact Buffer.keeps_subTermMultiple source a
  | subBufferMultiple R source a =>
    obtain ⟨r, -, hedit⟩ := Option.bind_eq_some_iff.1 hedit
    cases hedit
    exact Buffer.keeps_subBufferMultiple R r.buffer a
  | subProduct R p q =>
    obtain ⟨r, -, hedit⟩ := Option.bind_eq_some_iff.1 hedit
    obtain ⟨r', -, hedit⟩ := Option.bind_eq_some_iff.1 hedit
    cases hedit
    exact Buffer.keeps_subProduct R r.buffer r'.buffer
  | differentiate R source =>
    obtain ⟨r, -, hedit⟩ := Option.bind_eq_some_iff.1 hedit
    cases hedit
    exact Buffer.keeps_differentiate R r.buffer

/-- A construction establishes the invariant. -/
theorem sound_registered {built : Nat} {outcome : Except Failure Buffer}
    (h : ∀ t, outcome = .ok t → t.Sound built P ∧ built < degreeBound) :
    (registered built outcome).Sound P := by
  intro r hr
  cases outcome with
  | error e => cases hr
  | ok t =>
    rw [registered, List.mem_singleton] at hr
    subst hr
    exact ⟨(h t rfl).1, (h t rfl).2⟩

theorem sound_registersOf (h : s.Sound P) (construction : Construction) :
    (s.registersOf construction).Sound P := by
  cases construction with
  -- A capacity that is asked for is a machine word.
  | ofCapacity capacity =>
    exact sound_registered fun t ht => ⟨Buffer.sound_ofCapacity ht, capacity.toNat_lt⟩
  | ofDegreeBound degree =>
    exact sound_registered fun t ht => Buffer.sound_ofDegreeBound ht
  | ofPoly capacity p =>
    exact sound_registered fun t ht => ⟨Buffer.sound_ofPoly ht, capacity.toNat_lt⟩
  | ofCoefficients R capacity cs =>
    exact sound_registered fun t ht => ⟨Buffer.sound_ofCoefficients ht, capacity.toNat_lt⟩
  | clone source =>
    intro r hr
    exact h.getElem? (Option.mem_toList.1 hr)
  | divide R kind dividend divisor =>
    rw [registersOf]
    split
    · next p d hp _ =>
      have hp := h.getElem? hp
      split
      · next quotient remainder _ hrun =>
        obtain ⟨hd, hq, hr⟩ := Buffer.sound_divide hp.buffer hp.built_lt_bound hrun
        intro r hmem
        rcases List.mem_pair.1 hmem with rfl | rfl
        · exact ⟨hq, (Nat.succ_le_succ (Nat.sub_le _ _)).trans_lt hd⟩
        · exact ⟨hr, hd⟩
      · exact fun r hr => absurd hr List.not_mem_nil
    · exact fun r hr => absurd hr List.not_mem_nil
  | reduce dividend divisor =>
    rw [registersOf]
    split
    · next p d hp _ =>
      have hp := h.getElem? hp
      split
      · next a reduced _ hrun =>
        obtain ⟨hd, hr⟩ := Buffer.sound_reduce hp.buffer hp.built_lt_bound hrun
        intro r hmem
        obtain rfl := List.mem_singleton.1 hmem
        exact ⟨hr, hd⟩
      · exact fun r hr => absurd hr List.not_mem_nil
    · exact fun r hr => absurd hr List.not_mem_nil

/-- A call keeps the invariant, whether it succeeds, is refused or breaks off. -/
theorem sound_step (h : s.Sound P) (call : Call) (hexposes : P → call.exposes = false) :
    (s.step call).Sound P := by
  intro r hmem
  cases origin_of_mem_step hmem with
  | kept hr => exact h r hr
  | constructed hr => exact sound_registersOf h _ r hr
  | edited ht hedit =>
    exact (h _ ht).update (keeps_editOf h hexposes hedit _ (h _ ht).buffer)
  | quotient hp _ hq hr =>
    refine (h _ hq).update ?_
    exact (LongDivision.keeps_run _ _ _ (h _ hp).buffer (h _ hp).built_lt_bound _
      ⟨(h _ hq).buffer, (h _ hr).buffer⟩).quotient
  | remainder hp _ hq hr =>
    refine (h _ hr).update ?_
    exact (LongDivision.keeps_run _ _ _ (h _ hp).buffer (h _ hp).built_lt_bound _
      ⟨(h _ hq).buffer, (h _ hr).buffer⟩).remainder
  | reduced hp _ ht =>
    refine (h _ ht).update ?_
    exact Reduction.keeps_run _ (h _ hp).buffer (h _ hp).built_lt_bound _ (h _ ht).buffer

/-- So do any number of calls. -/
theorem sound_foldl (h : s.Sound P) (calls : List Call)
    (hexposes : P → ∀ call ∈ calls, call.exposes = false) : (calls.foldl step s).Sound P := by
  induction calls generalizing s with
  | nil => exact h
  | cons call calls ih =>
    refine ih (sound_step h call fun hP => hexposes hP call List.mem_cons_self) fun hP c hc => ?_
    exact hexposes hP c (List.mem_cons_of_mem call hc)

theorem sound_run (calls : List Call) : (run calls).Sound False :=
  sound_foldl (fun _ h => absurd h List.not_mem_nil) calls False.elim

/-- The condition on all calls of a session is what trimming depends on throughout. -/
theorem sound_run_trimmed (calls : List Call) :
    (run calls).Sound (∀ call ∈ calls, call.exposes = false) :=
  sound_foldl (fun _ h => absurd h List.not_mem_nil) calls id

/-- After any calls, in any rings and failed ones included, every buffer has a significant slot, its
    significant slots within its capacity, zero in the others, and the capacity of its construction.
    Unless a call made slots significant without writing them, the highest significant slot does not
    hold zero or is the only one. -/
theorem represents_run (calls : List Call) {r : Register} (hr : r ∈ run calls) :
    r.buffer.WellFormed ∧ r.buffer.capacity = r.built ∧
      ((∀ call ∈ calls, call.exposes = false) → r.buffer.Trimmed) := by
  have h := (sound_run_trimmed calls r hr).buffer
  exact ⟨h.toWellFormed, h.capacity_eq, h.trimmed⟩

/-- Modulo `4`, twice `2 x + 1` is the constant `-2`, in as many slots as before. -/
theorem represents_doubled :
    (⟨⟨1, #[-2, 0, 0]⟩, 3⟩ : Register) ∈
        run [.construct (.ofCoefficients (.modular 4 false (by decide)) 3 [1, 2]),
          .edit 0 (.scale (.modular 4 false (by decide)) 2)] ∧
      (⟨1, #[-2, 0, 0]⟩ : Buffer).Trimmed := by
  have hmem : (⟨⟨1, #[-2, 0, 0]⟩, 3⟩ : Register) ∈
      run [.construct (.ofCoefficients (.modular 4 false (by decide)) 3 [1, 2]),
        .edit 0 (.scale (.modular 4 false (by decide)) 2)] := by
    decide +kernel
  exact ⟨hmem, (represents_run _ hmem).2.2 (by decide)⟩

end Session

end Univariate
