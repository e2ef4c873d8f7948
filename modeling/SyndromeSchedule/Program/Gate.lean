import SyndromeSchedule.Error

/-!
Gates of programs.
-/

namespace SyndromeSchedule

inductive Gate where
  | R
  | RX
  | X
  | H
  /-- Exchanges the axes Y and Z. -/
  | HYZ
  | sqrtYDag
  | sqrtX
  | sqrtXDag
  | CX
  | CY
  | CZ
  | M
  | MX
  | MY
  | MPP
deriving DecidableEq, Repr, Inhabited

namespace Gate

def all : List Gate :=
  [R, RX, X, H, HYZ, sqrtYDag, sqrtX, sqrtXDag, CX, CY, CZ, M, MX, MY, MPP]

def name : Gate → String
  | R => "R"
  | RX => "RX"
  | X => "X"
  | H => "H"
  | HYZ => "H_YZ"
  | sqrtYDag => "SQRT_Y_DAG"
  | sqrtX => "SQRT_X"
  | sqrtXDag => "SQRT_X_DAG"
  | CX => "CX"
  | CY => "CY"
  | CZ => "CZ"
  | M => "M"
  | MX => "MX"
  | MY => "MY"
  | MPP => "MPP"

/-- The gate of a name; two gates have a second name. -/
def ofName? (text : String) : Option Gate :=
  if text = "CNOT" then some CX
  else if text = "MZ" then some M
  else all.find? (·.name = text)

/-- Qubits per application; a measured product has no fixed number. -/
def arity : Gate → Nat
  | CX | CY | CZ => 2
  | MPP => 0
  | _ => 1

def isMeasurement : Gate → Bool
  | M | MX | MY | MPP => true
  | _ => false

def isReset : Gate → Bool
  | R | RX => true
  | _ => false

/-- The gate that applies a letter if its first qubit is set. -/
def controlled : Pauli → Except ExtractionError Gate
  | .X => .ok CX
  | .Y => .ok CY
  | .Z => .ok CZ
  | .I => .error .controlledIdentity

/-- Measurement of one qubit in a basis. -/
def measuring : Pauli → Except RequestError Gate
  | .X => .ok MX
  | .Y => .ok MY
  | .Z => .ok M
  | .I => .error .identityBasis

/-- Basis of a measurement or reset of one qubit. -/
def basis? : Gate → Option Pauli
  | R | M => some .Z
  | RX | MX => some .X
  | MY => some .Y
  | _ => none

end Gate

end SyndromeSchedule
