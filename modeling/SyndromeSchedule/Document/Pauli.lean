import SyndromeSchedule.Json.Decode

/-!
Letters, phases, states, qubits and operators in documents.
-/

namespace SyndromeSchedule

/-- Name of the value in a table of names. -/
def nameIn {α : Type} [DecidableEq α] (names : List (String × α)) (a : α) : Json :=
  .string (((names.find? (·.2 = a)).map (·.1)).getD "")

namespace Pauli

def names : List (String × Pauli) := [("I", I), ("X", X), ("Y", Y), ("Z", Z)]

def decode : Decoder Pauli := .name Decoder.isNull names

/-- A letter in a part of a document that is set aside before it is read. -/
def decodeAside : Decoder Pauli := .name Decoder.isNullOrEmpty names

def toJson (a : Pauli) : Json := nameIn names a

end Pauli

namespace Phase

def names : List (String × Phase) :=
  [("PlusOne", one), ("PlusI", i), ("MinusOne", minusOne), ("MinusI", minusI)]

def decode : Decoder Phase := .name Decoder.isNull names

def toJson (a : Phase) : Json := nameIn names a

end Phase

namespace Operator

def fields : List (Field Operator) :=
  [.of "pauli" .required Pauli.decode fun s a => { s with letter := a },
    .of "sign" .defaulted Phase.decode fun s a => { s with phase := a }]

def decode : Decoder Operator := .record fields (.positive .I)

def toJson (a : Operator) : Json :=
  .record [("pauli", a.letter.toJson), ("sign", a.phase.toJson)]

end Operator

namespace State

def names : List (String × State) :=
  [("zero", zero), ("one", one), ("plus", plus), ("minus", minus), ("plus_i", plusI),
    ("minus_i", minusI)]

def decode : Decoder State := .name Decoder.isNull names

def toJson (a : State) : Json := nameIn names a

end State

namespace Coordinates

def decode : Decoder Coordinates := fun j => Coordinates.mk <$> Decoder.list .int32 j

def toJson (p : Coordinates) : Json := .list (p.values.map .ofInt)

end Coordinates

/-- A value that may be missing. -/
def Json.ofOption {α : Type} (encode : α → Json) : Option α → Json
  | none => .null
  | some a => encode a

end SyndromeSchedule
