import SyndromeSchedule.Error

/-!
Operations that may leave a trace when they fail. What they did before the fault stays done.
-/

namespace SyndromeSchedule

/-- A state after an operation, and how the operation went. -/
structure Attempt (σ α : Type) where
  state : σ
  outcome : Outcome α

namespace Attempt

variable {σ α β : Type}

/-- State and result of an operation that went well. -/
def commit (a : Attempt σ α) : Outcome (σ × α) :=
  match a.outcome with
  | .ok result => .ok (a.state, result)
  | .error halt => .error halt

/-- An operation that has done nothing if it fails. -/
def ofOutcome (s : σ) : Outcome (σ × α) → Attempt σ α
  | .ok (next, result) => ⟨next, .ok result⟩
  | .error halt => ⟨s, .error halt⟩

/-- Goes on with another operation unless the first one failed. -/
def andThen (a : Attempt σ α) (next : σ → α → Attempt σ β) : Attempt σ β :=
  match a.outcome with
  | .ok result => next a.state result
  | .error halt => ⟨a.state, .error halt⟩

/-- Does something with every item, up to the first failure. -/
def forEach (action : σ → α → Attempt σ Unit) : σ → List α → Attempt σ Unit
  | s, [] => ⟨s, .ok ()⟩
  | s, a :: rest => (action s a).andThen fun s _ => forEach action s rest

end Attempt

end SyndromeSchedule
