import SyndromeSchedule.Schedule.Code

/-!
Codes under construction. Checks are known by their content: describing one a second time gives the
check described first.
-/

namespace SyndromeSchedule

structure Draft where
  data : List Qubit := []
  checks : List (List Check) := []
  detectors : List (List Detector) := []
  logicals : List Logical := []
  known : List Check := []

namespace Draft

def empty : Draft := {}

def addData (d : Draft) (qubits : List Qubit) : Draft :=
  { d with data := d.data ++ qubits }

/-- Describes a check and gives its number. A known check keeps its ancilla. -/
def describe (d : Draft) (c : Check) : Except CheckError (Draft × Nat) :=
  match d.known.zipIdx.find? fun e => e.1.same c with
  | none => .ok ({ d with known := d.known ++ [c] }, d.known.length)
  | some (old, number) =>
      if old.ancilla = c.ancilla then .ok (d, number)
      else .error (.otherAncilla c.product old.ancilla c.ancilla)

def addRound (d : Draft) (checks : List Check) : Draft :=
  { d with checks := d.checks ++ [checks], detectors := d.detectors ++ [[]] }

def appendDetector (d : Draft) (round : Nat) (detector : Detector) : Draft :=
  { d with detectors := d.detectors.modify round (· ++ [detector]) }

def addDetector (d : Draft) (round : Nat) (floor lid : List TimedCheck) : Outcome Draft :=
  if round < d.detectors.length then do
    let detector ← Detector.makeOutcome floor lid round
    return d.appendDetector round detector
  else .fail (.design (.code (.noRound round)))

/-- How many rounds back, around the period, a check was last measured. -/
def lastMeasured (d : Draft) (round : Nat) (c : Check) : Nat :=
  let length := d.checks.length
  let back := (List.range length).map (· + 1)
  (back.find? fun b =>
    ((d.checks[(round + length - b) % length]?).getD []).any c.same).getD length

/-- Adds, for each check of a round, the detector against its last outcome. -/
def addRepeated (d : Draft) (round : Nat) (c : Check) : Outcome Draft := do
  let detector ← Detector.repeated c (d.lastMeasured round c) round
  return d.appendDetector round detector

/-- Compares every scheduled check with its last outcome. -/
def withRepeatedDetectors (d : Draft) : Outcome Draft :=
  d.checks.zipIdx.foldlM
    (fun d e => e.1.foldlM (fun d c => d.addRepeated e.2 c) d) d

def addLogical (d : Draft) (l : Logical) : Draft :=
  { d with logicals := d.logicals ++ [l] }

def build (d : Draft) : Outcome Code :=
  Code.makeOutcome d.data d.checks d.detectors d.logicals

end Draft

end SyndromeSchedule
