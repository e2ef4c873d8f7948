import SyndromeSchedule.Document.Pauli
import SyndromeSchedule.Schedule.Code

/-!
Checks, detectors, logical operators and codes in documents. Each is validated when its text has
been read to the end.
-/

namespace SyndromeSchedule

namespace Member

def fields : List (Field Member) :=
  [.of "offset" .required Coordinates.decode fun s a => { s with offset := a },
    .of "qubit" .required Coordinates.decode fun s a => { s with qubit := a },
    .of "operator" .required Operator.decode fun s a => { s with operator := a }]

def decode : Decoder Member := .record fields ⟨⟨[]⟩, ⟨[]⟩, .positive .I⟩

def toJson (m : Member) : Json :=
  .record [("offset", m.offset.toJson), ("qubit", m.qubit.toJson),
    ("operator", m.operator.toJson)]

end Member

/-- A check as described, before it is validated. -/
structure CheckDescription where
  members : List Member := []
  anchor : Option Coordinates := none
  ancilla : Option Qubit := none

namespace CheckDescription

def fields : List (Field CheckDescription) :=
  [.of "members" .required (.list Member.decode) fun s a => { s with members := a },
    .of "anchor" .defaulted (.option Coordinates.decode) fun s a => { s with anchor := a },
    .of "ancilla" .defaulted (.option Coordinates.decode) fun s a => { s with ancilla := a }]

end CheckDescription

namespace Check

def decode : Decoder Check := fun j => do
  let d ← Decoder.record CheckDescription.fields {} j
  Reading.ofExcept .check (make d.members d.anchor d.ancilla)

def toJson (c : Check) : Json :=
  .record [("members", .list (c.members.map (·.toJson))),
    ("anchor", .ofOption (·.toJson) c.anchor), ("ancilla", .ofOption (·.toJson) c.ancilla)]

end Check

/-- A timed check as described; the check is missing until it is read. -/
structure TimedDescription where
  offset : Int := 0
  check : Option Check := none

namespace TimedCheck

def fields : List (Field TimedDescription) :=
  [.of "offset" .required .int64 fun s a => { s with offset := a },
    .of "check" .required Check.decode fun s a => { s with check := some a }]

def decode : Decoder TimedCheck := fun j => do
  let d ← Decoder.record fields {} j
  let check ← Reading.ofOption d.check
  return ⟨d.offset, check⟩

def toJson (t : TimedCheck) : Json :=
  .record [("offset", .ofInt t.offset), ("check", t.check.toJson)]

end TimedCheck

/-- A detector as described, before it is validated. -/
structure DetectorDescription where
  floor : List TimedCheck := []
  lid : List TimedCheck := []
  ends : Nat := 0

namespace Detector

def fields : List (Field DetectorDescription) :=
  [.of "floor" .defaulted (.list TimedCheck.decode) fun s a => { s with floor := a },
    .of "lid" .required (.list TimedCheck.decode) fun s a => { s with lid := a },
    .of "end" .required .word fun s a => { s with ends := a }]

def decode : Decoder Detector := fun j => do
  let d ← Decoder.record fields {} j
  Reading.ofExcept .detector (make d.floor d.lid d.ends)

def toJson (d : Detector) : Json :=
  .record [("floor", .list (d.floor.map (·.toJson))), ("lid", .list (d.lid.map (·.toJson))),
    ("end", .ofNat d.ends)]

end Detector

def decodeOperators : Decoder (List (Qubit × Operator)) :=
  .list (.pair Coordinates.decode Operator.decode)

namespace Logical

def decodeHistory : Decoder (List (List (Qubit × Operator))) :=
  .list decodeOperators

def decode : Decoder Logical := fun j => do
  let history ← decodeHistory j
  Reading.ofExcept .code (make history)

def toJson (l : Logical) : Json :=
  .list (l.operators.map fun operators =>
    .list (operators.map fun e => .list [e.1.toJson, e.2.toJson]))

end Logical

/-- A code as described, before it is validated. -/
structure CodeDescription where
  data : List Qubit := []
  checks : List (List Check) := []
  detectors : List (List Detector) := []
  logicals : List Logical := []

namespace Code

def fields : List (Field CodeDescription) :=
  [.of "data_qubits" .required (.list Coordinates.decode) fun s a => { s with data := a },
    .of "check_schedule" .required (.list (.list Check.decode))
      fun s a => { s with checks := a },
    .of "detector_schedule" .required (.list (.list Detector.decode))
      fun s a => { s with detectors := a },
    .of "logical_operators" .defaulted (.list Logical.decode)
      fun s a => { s with logicals := a }]

def decode : Decoder Code := fun j => do
  let d ← Decoder.record fields {} j
  Reading.ofExcept .code (make d.data d.checks d.detectors d.logicals)

def toJson (c : Code) : Json :=
  .record [("data_qubits", .list (c.dataQubits.map (·.toJson))),
    ("check_schedule", .list (c.checks.map fun checks => .list (checks.map (·.toJson)))),
    ("detector_schedule",
      .list (c.detectors.map fun detectors => .list (detectors.map (·.toJson)))),
    ("logical_operators", .list (c.logicals.map (·.toJson)))]

end Code

end SyndromeSchedule
