import SyndromeSchedule.Extraction.Order
import SyndromeSchedule.Program.Gate

/-!
How a check is measured through its ancilla: the state the ancilla starts in, the gates between
ancilla and data, slot by slot, and the basis in which the ancilla is measured.
-/

namespace SyndromeSchedule

/-- Gates between ancilla and data. -/
inductive Style where
  /-- The ancilla controls the letter of each member. -/
  | controlledPauli
  /-- Controlled-X gates only: out of the ancilla for X, into it for Z. -/
  | pureCnot
  /-- Controlled-X gates into the ancilla, with data qubits rotated around them. -/
  | rotatedCnot
deriving DecidableEq, Repr, Inhabited

/-- One meeting of ancilla and data qubit. -/
structure Interaction where
  data : Qubit
  gate : Gate
  ancillaControls : Bool
  /-- Gate on the data qubit right before. -/
  before : Option Gate := none
  /-- Gate on the data qubit right after. -/
  after : Option Gate := none
deriving DecidableEq

structure Plan where
  ancillaState : State
  basis : Pauli
  steps : List (Option Interaction)
deriving DecidableEq

/-- A style of gates and an order of members. -/
structure Extractor where
  style : Style := .controlledPauli
  order : Order := .declared
deriving DecidableEq

namespace Extractor

/-- The ancilla controls the letter of a member. -/
def controlStep : Option Member → Except ExtractionError (Option Interaction)
  | none => .ok none
  | some m => do
      let gate ← Gate.controlled m.operator.letter
      return some ⟨m.qubit, gate, true, none, none⟩

/-- A controlled-X gate in one of its directions. -/
def cnotStep (ancillaControls : Bool) (slot : Option Member) : Option Interaction :=
  slot.map fun m => ⟨m.qubit, .CX, ancillaControls, none, none⟩

/-- Gate that takes a letter to Z and back. -/
def rotation : Pauli → Option Gate
  | .X => some .H
  | .Y => some .HYZ
  | _ => none

/-- A controlled-X gate between rotations. -/
def rotatedStep (slot : Option Member) : Option Interaction :=
  slot.map fun m =>
    ⟨m.qubit, .CX, false, rotation m.operator.letter, rotation m.operator.letter⟩

def plan (e : Extractor) (check : Check) : Outcome Plan := do
  let slots ← e.order.members check
  match e.style with
  | .controlledPauli =>
      let steps ← Outcome.ofExcept .extraction (slots.mapM controlStep)
      return ⟨.plus, .X, steps⟩
  | .pureCnot =>
      match check.pureLetter? with
      | some .X => return ⟨.plus, .X, slots.map (cnotStep true)⟩
      | some .Z => return ⟨.zero, .Z, slots.map (cnotStep false)⟩
      | _ => .fail (.extraction (.mixedWord check.word))
  | .rotatedCnot => return ⟨.zero, .Z, slots.map rotatedStep⟩

end Extractor

end SyndromeSchedule
