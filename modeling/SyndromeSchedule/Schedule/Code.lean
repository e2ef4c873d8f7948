import SyndromeSchedule.Schedule.Detector
import SyndromeSchedule.Schedule.Logical

/-!
Codes: data qubits with a periodic schedule of checks and detectors. A value of type `Code` measures
only data qubits, never uses one as an ancilla, repeats no check within a round, and its detectors
refer to outcomes that the schedule provides.
-/

namespace SyndromeSchedule

abbrev QubitSet := Table Unit

namespace QubitSet

def ofList (qubits : List Qubit) : QubitSet :=
  Table.ofList (qubits.map fun q => (q, ()))

end QubitSet

/-- First item that occurs earlier in the list or among those seen. -/
def firstRepeated? {α : Type} [DecidableEq α] : List α → List α → Option α
  | _, [] => none
  | seen, a :: rest => if a ∈ seen then some a else firstRepeated? (a :: seen) rest

namespace CodeError

/-- First fault among the checks of a round, given the contents seen in it. -/
def ofRound? (data : QubitSet) (round : Nat) :
    List (Table Operator) → List Check → Option CodeError
  | _, [] => none
  | seen, c :: rest =>
      match c.qubits.find? fun q => !data.contains q with
      | some q => some (.strayMember c.product round q)
      | none =>
          match c.ancilla.filter data.contains with
          | some a => some (.ancillaIsData a c.product)
          | none =>
              if c.content ∈ seen then some (.repeatedCheck c.product round)
              else ofRound? data round (c.content :: seen) rest

/-- Fault of an outcome a detector refers to. -/
def ofTimed? (checks : List (List Check)) (round : Nat) (t : TimedCheck) : Option CodeError :=
  let length := checks.length
  if t.offset < -(length : Int) || 0 < t.offset then some (.offsetOutside t.offset length)
  else
    let scheduled := ((round + t.offset) % length).toNat
    if ((checks[scheduled]?).getD []).any t.check.same then none
    else some (.unscheduled round t.check.product t.offset scheduled)

def ofDetector? (checks : List (List Check)) (round : Nat) (d : Detector) :
    Option CodeError :=
  if d.ends ≠ round then some (.wrongEnd round d.ends)
  else d.timed.findSome? (ofTimed? checks round)

def ofLogical? (data : QubitSet) (length : Nat) (l : Logical) : Option CodeError :=
  if length % l.period ≠ 0 then some (.historyLength l.period length)
  else
    (l.history.findSome? fun p => p.support.find? fun q => !data.contains q).map
      .strayLogical

def find? (data : QubitSet) (checks : List (List Check)) (detectors : List (List Detector))
    (logicals : List Logical) : Option CodeError :=
  if checks.isEmpty then some .emptySchedule
  else if detectors.length ≠ checks.length then
    some (.scheduleLengths detectors.length checks.length)
  else
    (checks.zipIdx.findSome? fun e => ofRound? data e.2 [] e.1).or <|
      (detectors.zipIdx.findSome? fun e => e.1.findSome? (ofDetector? checks e.2)).or <|
        logicals.findSome? (ofLogical? data checks.length)

end CodeError

structure Code where
  data : QubitSet
  checks : List (List Check)
  detectors : List (List Detector)
  logicals : List Logical
  sound : CodeError.find? data checks detectors logicals = none
deriving DecidableEq

namespace Code

def make (data : List Qubit) (checks : List (List Check)) (detectors : List (List Detector))
    (logicals : List Logical) : Except CodeError Code :=
  match firstRepeated? [] data with
  | some q => .error (.repeatedDataQubit q)
  | none =>
      match h : CodeError.find? (.ofList data) checks detectors logicals with
      | some cause => .error cause
      | none => .ok ⟨.ofList data, checks, detectors, logicals, h⟩

def makeOutcome (data : List Qubit) (checks : List (List Check))
    (detectors : List (List Detector)) (logicals : List Logical) : Outcome Code :=
  .ofExcept (fun cause => .design (.code cause)) (make data checks detectors logicals)

def period (c : Code) : Nat := c.checks.length

def dataQubits (c : Code) : List Qubit := c.data.keys

def isData (c : Code) (q : Qubit) : Bool := c.data.contains q

/-- A schedule is not empty, so every round falls into it. -/
theorem period_pos (c : Code) : 0 < c.period := by
  have sound := c.sound
  unfold CodeError.find? at sound
  split at sound
  · contradiction
  · next h => exact List.length_pos_iff.mpr (by simpa using h)

/-- Both schedules have the same number of rounds. -/
theorem detectors_length (c : Code) : c.detectors.length = c.period := by
  have sound := c.sound
  unfold CodeError.find? at sound
  split at sound
  · contradiction
  · split at sound
    · contradiction
    · next h => exact Decidable.not_not.mp h

def checksIn (c : Code) (round : Nat) : List Check :=
  c.checks.get ⟨round % c.period, Nat.mod_lt _ c.period_pos⟩

/-- Detectors that close in an absolute round. -/
def detectorsIn (c : Code) (round : Nat) : List Detector :=
  c.detectors.get ⟨round % c.period, by rw [c.detectors_length]; exact Nat.mod_lt _ c.period_pos⟩

def logicalFault? (c : Code) (l : Logical) : Option CodeError :=
  CodeError.ofLogical? c.data c.period l

/-- First checks of each content. -/
def firstChecks : List (Table Operator) → List Check → List Check
  | _, [] => []
  | seen, c :: rest =>
      if c.content ∈ seen then firstChecks seen rest
      else c :: firstChecks (c.content :: seen) rest

/-- Scheduled checks, each content once, in order of first appearance. -/
def distinctChecks (c : Code) : List Check :=
  firstChecks [] c.checks.flatten

def firstQubits : List Qubit → List Qubit → List Qubit
  | _, [] => []
  | seen, q :: rest =>
      if q ∈ seen then firstQubits seen rest else q :: firstQubits (q :: seen) rest

def ancillas (c : Code) : List Qubit :=
  firstQubits [] (c.checks.flatten.filterMap (·.ancilla))

end Code

end SyndromeSchedule
