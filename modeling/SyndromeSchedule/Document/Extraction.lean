import SyndromeSchedule.Document.Pauli
import SyndromeSchedule.Extraction.Plan

/-!
Extractors in documents. An order names its kind, in a field or as the first item of an array; the
rest of it is read once the kind is known.
-/

namespace SyndromeSchedule

namespace Style

def names : List (String × Style) :=
  [("controlled_pauli", controlledPauli), ("pure_cnot", pureCnot),
    ("rotated_cnot", rotatedCnot)]

def decode : Decoder Style := .name Decoder.isNull names

def toJson (s : Style) : Json := nameIn names s

end Style

namespace Slot

def fields : List (Field Slot) :=
  [.of "pauli" .required Pauli.decodeAside fun s a => { s with letter := a },
    .of "offset" .required Coordinates.decode fun s a => { s with offset := a },
    .of "slot" .required .word fun s a => { s with slot := a }]

def decode : Decoder Slot := .record fields ⟨.I, ⟨[]⟩, 0⟩

def toJson (s : Slot) : Json :=
  .record [("pauli", s.letter.toJson), ("offset", s.offset.toJson), ("slot", .ofNat s.slot)]

end Slot

namespace Order

def slotFields : List (Field (List Slot)) :=
  [.of "slots" .required (.list Slot.decode) fun _ a => a]

/-- Reads the rest of an order of a kind. -/
def decodeKind (kind : String) : Decoder Order := fun j =>
  if kind = "trivial" then (fun _ => declared) <$> Decoder.record ([] : List (Field Unit)) () j
  else if kind = "rotated_lattice" then rotated <$> Decoder.record slotFields [] j
  else Reading.misfit

def decode : Decoder Order := fun j =>
  if j.isReadable then
    match j with
    | .object fields ending =>
        match fields.filter (·.1 = "kind") with
        | [(_, .string kind)] =>
            decodeKind kind (.object (fields.filter (·.1 ≠ "kind")) ending)
        | _ => Reading.misfit
    | .array (.string kind :: rest) ending => decodeKind kind (.array rest ending)
    | _ => Reading.misfit
  else Reading.misfit

def toJson : Order → Json
  | declared => .record [("kind", .string "trivial")]
  | rotated slots =>
      .record [("kind", .string "rotated_lattice"), ("slots", .list (slots.map Slot.toJson))]

end Order

namespace Extractor

def fields : List (Field Extractor) :=
  [.of "style" .defaulted Style.decode fun s a => { s with style := a },
    .of "orderer" .defaulted Order.decode fun s a => { s with order := a }]

def decode : Decoder Extractor := .record fields {}

def toJson (e : Extractor) : Json :=
  .record [("style", e.style.toJson), ("orderer", e.order.toJson)]

end Extractor

end SyndromeSchedule
