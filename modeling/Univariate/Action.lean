import Univariate.Failure

/-!
# Actions

An *action* on a state ends with a value or with a failure, and in both cases with the state as it
then is: an action that fails midway leaves what it has done so far, and one that refuses its
arguments at the outset leaves the state alone.

* `Action.refuse` and `Action.give` end an action, with a refusal or with the outcome of a
  computation that has no state.
* `Action.onPart` runs an action on a part of a larger state.
* `Action.finalState` runs an action that matters only for the state it leaves.
-/

namespace Univariate

/-- A computation that changes a state and may fail on the way. -/
abbrev Action (σ α : Type) := EStateM Failure σ α

namespace Action

variable {σ τ α : Type}

/-- Refuses, leaving the state as it is. -/
def refuse (reason : Refusal) : Action σ α :=
  fun s => .error (.refused reason) s

/-- Ends as the given computation ends, leaving the state as it is. -/
def give (outcome : Except Failure α) : Action σ α :=
  fun s =>
    match outcome with
    | .ok a => .ok a s
    | .error e => .error e s

/-- Runs an action on the part of the state that `part` reads and `replace` writes. -/
def onPart (part : σ → τ) (replace : τ → σ → σ) (action : Action τ α) : Action σ α :=
  fun s =>
    match action.run (part s) with
    | .ok a t => .ok a (replace t s)
    | .error e t => .error e (replace t s)

@[simp] theorem run_refuse (reason : Refusal) (s : σ) :
    (refuse reason : Action σ α).run s = .error (.refused reason) s :=
  rfl

@[simp] theorem run_give_ok (a : α) (s : σ) : (give (.ok a) : Action σ α).run s = .ok a s :=
  rfl

@[simp] theorem run_give_error (e : Failure) (s : σ) :
    (give (.error e) : Action σ α).run s = .error e s :=
  rfl

theorem run_onPart (part : σ → τ) (replace : τ → σ → σ) (action : Action τ α) (s : σ) :
    (onPart part replace action).run s =
      match action.run (part s) with
      | .ok a t => .ok a (replace t s)
      | .error e t => .error e (replace t s) :=
  rfl

/-- An action that succeeds gives its value. -/
theorem run'_of_run_ok {action : Action σ α} {a : α} {s s' : σ} (h : action.run s = .ok a s') :
    action.run' s = some a := by
  delta EStateM.run'
  rw [h]

/-- An action that gives a value succeeds. -/
theorem exists_run_of_run' {action : Action σ α} {a : α} {s : σ} (h : action.run' s = some a) :
    ∃ s', action.run s = .ok a s' := by
  cases hrun : action.run s with
  | error e s' =>
    delta EStateM.run' at h
    rw [hrun] at h
    cases h
  | ok b s' =>
    rw [run'_of_run_ok hrun] at h
    cases h
    exact ⟨s', rfl⟩

/-- The state an action leaves when it succeeds. -/
def finalState (action : Action σ Unit) (s : σ) : Except Failure σ :=
  match action.run s with
  | .ok _ s' => .ok s'
  | .error e _ => .error e

end Action

end Univariate
