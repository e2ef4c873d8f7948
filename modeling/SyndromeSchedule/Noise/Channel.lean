import SyndromeSchedule.Pauli.Basic

/-!
Random Pauli channels, the places of a schedule that can be noisy, and the kinds of noise a model
may put there.
-/

namespace SyndromeSchedule

/-- A channel as programs apply it. -/
inductive Channel where
  | xError
  | yError
  | zError
  | depolarize1
  | depolarize2
  | pauliChannel1
  | pauliChannel2
deriving DecidableEq, Repr, Inhabited

namespace Channel

def all : List Channel :=
  [xError, yError, zError, depolarize1, depolarize2, pauliChannel1, pauliChannel2]

def name : Channel → String
  | xError => "X_ERROR"
  | yError => "Y_ERROR"
  | zError => "Z_ERROR"
  | depolarize1 => "DEPOLARIZE1"
  | depolarize2 => "DEPOLARIZE2"
  | pauliChannel1 => "PAULI_CHANNEL_1"
  | pauliChannel2 => "PAULI_CHANNEL_2"

def ofName? (text : String) : Option Channel :=
  all.find? (·.name = text)

def arity : Channel → Nat
  | depolarize2 | pauliChannel2 => 2
  | _ => 1

/-- Number of explicit weights the channel is given by, if it is. -/
def termCount : Channel → Option Nat
  | pauliChannel1 => some 3
  | pauliChannel2 => some 15
  | _ => none

def parameterCount (c : Channel) : Nat :=
  c.termCount.getD 1

/-- The channel that flips what is prepared or measured in a basis. -/
def flipping : Pauli → Channel
  | .X => zError
  | _ => xError

end Channel

/-- Noise named in a model: a channel, or the flip of whatever basis is in use. -/
inductive NoiseKind where
  | flip
  | channel (c : Channel)
deriving DecidableEq, Repr, Inhabited

namespace NoiseKind

def name : NoiseKind → String
  | flip => "flip"
  | channel .xError => "x_error"
  | channel .yError => "y_error"
  | channel .zError => "z_error"
  | channel .depolarize1 => "depolarize1"
  | channel .depolarize2 => "depolarize2"
  | channel .pauliChannel1 => "pauli_channel_1"
  | channel .pauliChannel2 => "pauli_channel_2"

def arity : NoiseKind → Nat
  | flip => 1
  | channel c => c.arity

def termCount : NoiseKind → Option Nat
  | flip => none
  | channel c => c.termCount

/-- The channel that acts in a basis. -/
def resolve (basis : Pauli) : NoiseKind → Channel
  | flip => .flipping basis
  | channel c => c

end NoiseKind

/-- Where a schedule can be noisy. -/
inductive Place where
  /-- After every reset. -/
  | initialisation
  /-- Once a round, on data qubits that the round leaves alone. -/
  | idling
  /-- Before the first operation of a round on each data qubit. -/
  | roundStart
  /-- After every one-qubit gate. -/
  | oneQubitGate
  /-- After every two-qubit gate. -/
  | twoQubitGate
  /-- On the outcomes of measurements. -/
  | measurement
deriving DecidableEq, Repr, Inhabited

namespace Place

def all : List Place :=
  [initialisation, idling, roundStart, oneQubitGate, twoQubitGate, measurement]

def name : Place → String
  | initialisation => "initialisation"
  | idling => "idling"
  | roundStart => "data_qubit_start_of_round"
  | oneQubitGate => "one_qubit_gate"
  | twoQubitGate => "two_qubit_gate"
  | measurement => "measurement"

end Place

end SyndromeSchedule
