import SyndromeSchedule.Schedule.Check

/-!
The order in which the members of a check meet its ancilla. A table gives each direction on the
lattice a slot, so that all checks of a kind keep in step and a missing member leaves its slot idle.
-/

namespace SyndromeSchedule

/-- Members of checks of one letter at one offset go into a slot. -/
structure Slot where
  letter : Pauli
  offset : Coordinates
  slot : Nat
deriving DecidableEq

inductive Order where
  /-- As the check lists its members. -/
  | declared
  /-- By direction from the anchor, for checks of one letter. -/
  | rotated (slots : List Slot)
deriving DecidableEq

namespace Order

/-- Directions on the rotated lattice. -/
def northWest : Coordinates := ⟨[-1, -1]⟩
def northEast : Coordinates := ⟨[1, -1]⟩
def southWest : Coordinates := ⟨[-1, 1]⟩
def southEast : Coordinates := ⟨[1, 1]⟩

/-- Checks of X sweep row by row, checks of Z column by column. -/
def standard : Order :=
  .rotated
    [⟨.X, northWest, 0⟩, ⟨.X, northEast, 1⟩, ⟨.X, southWest, 2⟩, ⟨.X, southEast, 3⟩,
      ⟨.Z, northWest, 0⟩, ⟨.Z, southWest, 1⟩, ⟨.Z, northEast, 2⟩, ⟨.Z, southEast, 3⟩]

/-- The slot of a member, by the first entry that fits. -/
def slot? (slots : List Slot) (letter : Pauli) (offset : Coordinates) : Option Nat :=
  (slots.find? fun s => s.letter = letter && s.offset = offset).map (·.slot)

/-- One more than the largest slot of a letter. -/
def slotCount (slots : List Slot) (letter : Pauli) : Nat :=
  ((slots.filter (·.letter = letter)).map (·.slot + 1)).foldl max 0

/-- Longest table of slots there is room for. -/
def maxSlots : Nat := 1152921504606846976

def place (slots : List Slot) (letter : Pauli) (check : Check)
    (filled : List (Option Member)) (m : Member) : Outcome (List (Option Member)) :=
  match slot? slots letter m.offset with
  | none => .fail (.extraction (.noSlot letter m.offset check.product))
  | some n =>
      match filled[n]? with
      | none => .outside
      | some none => .ok (filled.set n (some m))
      | some (some _) => .fail (.extraction (.sharedSlot check.product n))

/-- Members by slot. -/
def arrange (slots : List Slot) (letter : Pauli) (check : Check) :
    Outcome (List (Option Member)) :=
  let count := slotCount slots letter
  if maxSlots ≤ count then .overflow
  else check.members.foldlM (place slots letter check) (List.replicate count none)

/-- Members in the order in which they meet the ancilla; a slot may be idle. -/
def members (order : Order) (check : Check) : Outcome (List (Option Member)) :=
  match order with
  | declared => .ok (check.members.map some)
  | rotated slots =>
      match check.pureLetter? with
      | some .X => arrange slots .X check
      | some .Z => arrange slots .Z check
      | _ => .fail (.extraction (.mixedOrder check.word))

end Order

end SyndromeSchedule
