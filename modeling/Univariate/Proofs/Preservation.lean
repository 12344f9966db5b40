import Mathlib.Tactic.Common
import Univariate.Action

/-!
# Invariants of actions

An action *keeps* an invariant when it leaves, from every state that satisfies it, a state that
satisfies it, however it ends: with a value, with a refusal, or with a fault in the middle of a
loop.

* `Action.leaves` is the state an action leaves, whatever its outcome, and `Action.Keeps` says that
  an invariant is kept. For an edit, this is shown on the equation that says what the edit leaves.
* `Action.outcome` is the other half: how an action ends, without the state it leaves.
-/

namespace Univariate.Action

variable {σ α : Type}

/-- The state an action ended with, whether it succeeded or failed. -/
def stateOf : EStateM.Result Failure σ α → σ
  | .ok _ s => s
  | .error _ s => s

/-- The state an action leaves, whether it succeeds or fails. -/
def leaves (action : Action σ α) (s : σ) : σ :=
  stateOf (action.run s)

/-- From a state that satisfies the invariant, the action leaves one that does. -/
def Keeps (I : σ → Prop) (action : Action σ α) : Prop :=
  ∀ s, I s → I (action.leaves s)

theorem leaves_of_run_ok {action : Action σ α} {s s' : σ} {a : α}
    (h : action.run s = .ok a s') : action.leaves s = s' := by
  rw [leaves, h, stateOf]

theorem leaves_of_run_error {action : Action σ α} {s s' : σ} {e : Failure}
    (h : action.run s = .error e s') : action.leaves s = s' := by
  rw [leaves, h, stateOf]

theorem keeps_modify {I : σ → Prop} {f : σ → σ} (hf : ∀ s, I s → I (f s)) :
    Keeps I (modify f) :=
  hf

/-- How an action ends, without the state it leaves. -/
def outcome (action : Action σ α) (s : σ) : Except Failure α :=
  match action.run s with
  | .ok a _ => .ok a
  | .error e _ => .error e

theorem outcome_of_run_ok {action : Action σ α} {s s' : σ} {a : α}
    (h : action.run s = .ok a s') : action.outcome s = .ok a := by
  rw [outcome, h]

theorem outcome_of_run_error {action : Action σ α} {s s' : σ} {e : Failure}
    (h : action.run s = .error e s') : action.outcome s = .error e := by
  rw [outcome, h]

/-- The outcome and the state left are all that a run gives. -/
theorem run_of_outcome_ok {action : Action σ α} {s : σ} {a : α} (h : action.outcome s = .ok a) :
    action.run s = .ok a (action.leaves s) := by
  cases hrun : action.run s with
  | ok b s' =>
    rw [outcome_of_run_ok hrun] at h
    rw [leaves_of_run_ok hrun, Except.ok.inj h]
  | error e s' =>
    rw [outcome_of_run_error hrun] at h
    cases h

theorem run_of_outcome_error {action : Action σ α} {s : σ} {e : Failure}
    (h : action.outcome s = .error e) : action.run s = .error e (action.leaves s) := by
  cases hrun : action.run s with
  | ok b s' =>
    rw [outcome_of_run_ok hrun] at h
    cases h
  | error e' s' =>
    rw [outcome_of_run_error hrun] at h
    rw [leaves_of_run_error hrun, Except.error.inj h]

end Univariate.Action
