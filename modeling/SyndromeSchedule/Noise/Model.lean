import SyndromeSchedule.Error

/-!
Noise models: what happens at each noisy place. A model is well formed if its probabilities are, and
if two-qubit channels stay with two-qubit gates and measurements are merely flipped.
-/

namespace SyndromeSchedule

/-- Noise of one kind with its strength. -/
structure Disturbance where
  kind : NoiseKind
  probability : Double
  /-- Explicit weights, for the channels that need them. -/
  terms : Option (List Double) := none
deriving DecidableEq

namespace Disturbance

/-- Sum of weights in the unit interval. -/
def total (terms : List Double) : Double :=
  terms.foldl Double.addWeights .zero

/-- Whether weights are probabilities that add up to one at most. -/
def areWeights (terms : List Double) : Bool :=
  terms.all Double.isProbability && (total terms).isProbability

def fault? (place : Place) (d : Disturbance) : Option ConfigError :=
  if !d.probability.isProbability then some (.probability place d.probability)
  else
    match d.kind.termCount, d.terms with
    | some expected, some terms =>
        if terms.length ≠ expected then some (.termCount place d.kind expected terms.length)
        else if areWeights terms then none
        else some (.termRange place d.kind)
    | some expected, none => some (.termsMissing place d.kind expected)
    | none, some _ => some (.termsUnexpected place d.kind)
    | none, none => none

/-- The channel and its parameters in a basis. -/
def resolve (d : Disturbance) (basis : Pauli) : Channel × List Double :=
  (d.kind.resolve basis,
    if d.kind.termCount.isSome then d.terms.getD [] else [d.probability])

/-- Whether the disturbance leaves a trace in programs. -/
def isActive (d : Disturbance) : Bool :=
  !d.probability.isZero || d.terms.isSome

end Disturbance

structure NoiseModel where
  initialisation : Option Disturbance := none
  idling : Option Disturbance := none
  roundStart : Option Disturbance := none
  oneQubitGate : Option Disturbance := none
  twoQubitGate : Option Disturbance := none
  measurement : Option Disturbance := none
deriving DecidableEq

namespace NoiseModel

def noiseless : NoiseModel := {}

/-- Depolarized data qubits once a round, and flipped outcomes. -/
def phenomenological (p : Double) : NoiseModel :=
  { roundStart := some ⟨.channel .depolarize1, p, none⟩
    measurement := some ⟨.flip, p, none⟩ }

/-- Depolarizing noise of one strength on everything. -/
def standardDepolarizing (p : Double) : NoiseModel :=
  { initialisation := some ⟨.flip, p, none⟩
    idling := some ⟨.channel .depolarize1, p, none⟩
    oneQubitGate := some ⟨.channel .depolarize1, p, none⟩
    twoQubitGate := some ⟨.channel .depolarize2, p, none⟩
    measurement := some ⟨.flip, p, none⟩ }

/-- What happens at a place. -/
def at? (m : NoiseModel) : Place → Option Disturbance
  | .initialisation => m.initialisation
  | .idling => m.idling
  | .roundStart => m.roundStart
  | .oneQubitGate => m.oneQubitGate
  | .twoQubitGate => m.twoQubitGate
  | .measurement => m.measurement

def entries (m : NoiseModel) : List (Place × Disturbance) :=
  Place.all.filterMap fun place => (m.at? place).map fun d => (place, d)

def isNoiseless (m : NoiseModel) : Bool := m.entries.isEmpty

/-- Fault of a disturbance at a place where it may not be. -/
def placeFault? (place : Place) (d : Disturbance) : Option ConfigError :=
  if d.kind.arity = 2 && place ≠ .twoQubitGate then some (.twoQubitKind place d.kind) else none

def fault? (m : NoiseModel) : Option ConfigError :=
  (m.entries.findSome? fun e => (e.2.fault? e.1).or (placeFault? e.1 e.2)).or <|
    match m.measurement with
    | none => none
    | some d => if d.kind = .flip then none else some (.notFlip d.kind)

/-- Probability with which outcomes are flipped, if they are. -/
def flip? (m : NoiseModel) : Option Double :=
  (m.measurement.map (·.probability)).filter Double.isPositive

end NoiseModel

/-- A model by name and strength, or spelled out. -/
inductive NoiseSource where
  | preset (name : String) (probability : Double)
  | explicit (model : NoiseModel)
deriving DecidableEq

namespace NoiseSource

def resolve : NoiseSource → Except ConfigError NoiseModel
  | preset name p =>
      if name = "noiseless" then .ok .noiseless
      else if name = "phenomenological" then .ok (.phenomenological p)
      else if name = "standard_depolarizing" then .ok (.standardDepolarizing p)
      else .error (.unknownPreset name)
  | explicit model => .ok model

end NoiseSource

end SyndromeSchedule
