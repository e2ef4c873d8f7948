import SyndromeSchedule.Error

/-!
Logical operators whose representative may change from round to round, in a periodic history. Every
representative acts somewhere and has a real phase.
-/

namespace SyndromeSchedule

def CodeError.ofRepresentative? (operators : List (Qubit × Operator)) : Option CodeError :=
  let product := Product.ofOperators operators
  if product.isIdentity then some .identityLogical
  else if product.phase.isReal then none
  else some (.logicalNotHermitian product)

def CodeError.ofHistory? (operators : List (List (Qubit × Operator))) : Option CodeError :=
  if operators.isEmpty then some .emptyHistory
  else operators.findSome? CodeError.ofRepresentative?

structure Logical where
  operators : List (List (Qubit × Operator))
  sound : CodeError.ofHistory? operators = none
deriving DecidableEq

namespace Logical

def make (operators : List (List (Qubit × Operator))) : Except CodeError Logical :=
  match h : CodeError.ofHistory? operators with
  | some cause => .error cause
  | none => .ok ⟨operators, h⟩

def makeOutcome (operators : List (List (Qubit × Operator))) : Outcome Logical :=
  .ofExcept (fun cause => .design (.code cause)) (make operators)

def history (l : Logical) : List Product :=
  l.operators.map .ofOperators

def period (l : Logical) : Nat := l.operators.length

/-- A history is not empty, so every round falls into it. -/
theorem period_pos (l : Logical) : 0 < l.period := by
  have sound := l.sound
  unfold CodeError.ofHistory? at sound
  split at sound
  · contradiction
  · next h => exact List.length_pos_iff.mpr (by simpa using h)

theorem history_length (l : Logical) : l.history.length = l.period := by
  simp [history, period]

def before (l : Logical) (round : Nat) : Product :=
  l.history.get ⟨round % l.period, by rw [l.history_length]; exact Nat.mod_lt _ l.period_pos⟩

end Logical

end SyndromeSchedule
