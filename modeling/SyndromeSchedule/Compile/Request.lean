import SyndromeSchedule.Extraction.Plan
import SyndromeSchedule.Noise.Model
import SyndromeSchedule.Schedule.Code
import SyndromeSchedule.Timeline.Emission

/-!
What to compile and how: the experiment asked for, the options of the program, and the compiler with
its noise model and its way to measure checks.
-/

namespace SyndromeSchedule

/-- An experiment on a code. One layer is one period of the schedule. -/
structure Request where
  layers : Nat
  /-- Initial states; other data qubits start in zero. -/
  initial : Table State := .empty
  /-- Final measurements; if there are none, every data qubit is measured in the basis it starts
  in. -/
  finals : List (Qubit × Pauli) := []
  observables : List Logical := []
deriving DecidableEq

namespace Request

def withInitial (r : Request) (q : Qubit) (s : State) : Request :=
  { r with initial := r.initial.insert q s }

def withUniform (r : Request) (code : Code) (s : State) : Request :=
  code.dataQubits.foldl (fun r q => r.withInitial q s) r

def withFinal (r : Request) (q : Qubit) (basis : Pauli) : Request :=
  { r with finals := r.finals ++ [(q, basis)] }

def withObservable (r : Request) (l : Logical) : Request :=
  { r with observables := r.observables ++ [l] }

/-- First fault of the final measurements, given the qubits measured so far. -/
def finalFault? (code : Code) : List Qubit → List (Qubit × Pauli) → Option RequestError
  | _, [] => none
  | seen, (q, basis) :: rest =>
      if !code.isData q then some (.strayFinal q)
      else if basis = .I then some (.identityFinal q)
      else if q ∈ seen then some (.repeatedFinal q)
      else finalFault? code (q :: seen) rest

def fault? (r : Request) (code : Code) : Option Error :=
  if r.layers = 0 then some (.request .noLayers)
  else
    ((r.initial.keys.find? fun q => !code.isData q).map fun q =>
        Error.request (.strayInitial q)).or <|
      ((finalFault? code [] r.finals).map .request).or <|
        (r.observables.findSome? code.logicalFault?).map fun cause => .design (.code cause)

def initialState (r : Request) (q : Qubit) : State :=
  (r.initial.get? q).getD .zero

/-- Final measurements with the default filled in. -/
def resolvedFinals (r : Request) (code : Code) : List (Qubit × Pauli) :=
  if r.finals.isEmpty then code.dataQubits.map fun q => (q, (r.initialState q).basis)
  else r.finals

end Request

/-- How a program is made. -/
structure Options where
  /-- Whether equal layers in the middle are written once. -/
  repeatMiddle : Bool := true
  layout : Layout := {}
deriving DecidableEq

/-- A noise model without faults, a way to measure checks, and options. -/
structure Compiler where
  noise : NoiseModel
  extractor : Extractor
  options : Options
  sound : noise.fault? = none

namespace Compiler

/-- A compiler, if its noise model is well formed. -/
def make (noise : NoiseModel) (extractor : Extractor) (options : Options) :
    Except ConfigError Compiler :=
  match h : noise.fault? with
  | some cause => .error cause
  | none => .ok ⟨noise, extractor, options, h⟩

end Compiler

end SyndromeSchedule
