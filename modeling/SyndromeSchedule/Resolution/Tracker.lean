import SyndromeSchedule.Schedule.Code
import SyndromeSchedule.Timeline.Attempt
import SyndromeSchedule.Timeline.Record

/-!
Logical observables through the rounds of a schedule. When the representative of a logical operator
changes, the checks just measured are multiplied into it, and their outcomes are toggled in the
observable.
-/

namespace SyndromeSchedule

structure Tracker where
  index : Nat
  logical : Logical
  /-- Representative followed so far. -/
  current : Product
  /-- Handles toggled since they were last taken, in increasing order. -/
  pending : List Nat := []

namespace Tracker

/-- Follows a logical operator from its first representative on. -/
def start (index : Nat) (logical : Logical) : Tracker :=
  { index, logical, current := logical.before 0 }

def startAll (logicals : List Logical) : List Tracker :=
  logicals.zipIdx.map fun e => start e.2 e.1

/-- Puts a handle into an increasing list, or takes it out. -/
def toggleIn (handle : Nat) : List Nat → List Nat
  | [] => [handle]
  | n :: rest =>
      if handle < n then handle :: n :: rest
      else if handle = n then rest
      else n :: toggleIn handle rest

def toggle (t : Tracker) (handle : Nat) : Tracker :=
  { t with pending := toggleIn handle t.pending }

/-- Multiplies a check into the representative and toggles its outcome. -/
def absorb (record : Record) (round : Nat) (t : Tracker) (c : Check) : Attempt Tracker Unit :=
  let t := { t with current := t.current.mul c.product }
  match record.lookupMade (.of c (Word.signed round)) with
  | .ok handle => ⟨t.toggle handle, .ok ()⟩
  | .error _ => ⟨t, .fail (.notYetMeasured (.outcome c.product round))⟩

def advance (t : Tracker) (code : Code) (round : Nat) (record : Record) :
    Attempt Tracker Unit :=
  if Word.size ≤ round + 1 then ⟨t, .overflow⟩
  else
    let next := t.logical.before (round + 1)
    if t.current.sameLetters next then ⟨{ t with current := next }, .ok ()⟩
    else
      let touched := (code.checksIn round).filter (·.product.intersects t.current)
      (Attempt.forEach (absorb record round) t touched).andThen fun t _ =>
        if t.current.sameLetters next then ⟨{ t with current := next }, .ok ()⟩
        else ⟨t, .fail (.observable (.drift t.index round t.current next))⟩

/-- Toggles the final measurement of a qubit, which needs the right basis. -/
def readOut (finals : Table (Pauli × Nat)) (t : Tracker) (factor : Qubit × Pauli) :
    Attempt Tracker Unit :=
  match finals.get? factor.1 with
  | some (basis, handle) =>
      if basis = factor.2 then ⟨t.toggle handle, .ok ()⟩
      else ⟨t, .fail (.observable (.unread t.index factor.1 factor.2))⟩
  | none => ⟨t, .fail (.observable (.unread t.index factor.1 factor.2))⟩

/-- Ends with the final measurements of the representative. -/
def close (t : Tracker) (rounds : Nat) (finals : Table (Pauli × Nat)) : Attempt Tracker Unit :=
  let expected := t.logical.before rounds
  if t.current.sameLetters expected then
    Attempt.forEach (readOut finals) t t.current.factors.entries
  else ⟨t, .fail (.observable (.wrongEnd t.index t.current expected))⟩

def take (t : Tracker) : Tracker × List Nat :=
  ({ t with pending := [] }, t.pending)

end Tracker

end SyndromeSchedule
