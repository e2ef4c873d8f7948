import SyndromeSchedule.Document.Pauli
import SyndromeSchedule.Program.Instruction

/-!
Programs in documents. An instruction is an object with one field, named for its kind.
-/

namespace SyndromeSchedule

namespace Gate

def names : List (String × Gate) :=
  [("R", R), ("RX", RX), ("X", X), ("H", H), ("HYZ", HYZ), ("SqrtYDag", sqrtYDag),
    ("SqrtX", sqrtX), ("SqrtXDag", sqrtXDag), ("CX", CX), ("CY", CY), ("CZ", CZ), ("M", M),
    ("MX", MX), ("MY", MY), ("MPP", MPP)]

def decode : Decoder Gate := .name Decoder.isNull names

def toJson (g : Gate) : Json := nameIn names g

end Gate

namespace Channel

def names : List (String × Channel) :=
  [("XError", xError), ("YError", yError), ("ZError", zError), ("Depolarize1", depolarize1),
    ("Depolarize2", depolarize2), ("PauliChannel1", pauliChannel1),
    ("PauliChannel2", pauliChannel2)]

def decode : Decoder Channel := .name Decoder.isNull names

def toJson (c : Channel) : Json := nameIn names c

end Channel

namespace Target

def decode : Decoder Target
  | .object [(kind, value)] .closed =>
      if kind = "Qubit" then Target.qubit <$> Decoder.word value
      else if kind = "Product" then
        Target.product <$> Decoder.list (.pair Pauli.decode .word) value
      else Reading.misfit
  | _ => Reading.misfit

def toJson : Target → Json
  | qubit q => .record [("Qubit", .ofNat q)]
  | product factors =>
      .record [("Product", .list (factors.map fun e => .list [e.1.toJson, .ofNat e.2]))]

end Target

/-- The parts an instruction may have. -/
structure InstructionParts where
  number : Nat := 0
  values : List Int := []
  gate : Gate := .R
  channel : Channel := .xError
  parameters : List Double := []
  flip : Option Double := none
  qubits : List Nat := []
  targets : List Target := []
  body : List Instruction := []

namespace Instruction

def numberField (name : String) : Field InstructionParts :=
  .of name .required .word fun s a => { s with number := a }

def valuesField (name : String) (decode : Decoder Int) : Field InstructionParts :=
  .of name .required (.list decode) fun s a => { s with values := a }

def gateField : Field InstructionParts :=
  .of "gate" .required Gate.decode fun s a => { s with gate := a }

def qubitsField : Field InstructionParts :=
  .of "targets" .required (.list .word) fun s a => { s with qubits := a }

/-- Fields of an instruction by its kind, with what they make. -/
def kinds (body : Decoder (List Instruction)) :
    List (String × List (Field InstructionParts) × (InstructionParts → Instruction)) :=
  [("QubitCoords", [numberField "qubit", valuesField "coords" .int32],
      fun p => .coords p.number p.values),
    ("Gate", [gateField, qubitsField], fun p => .gate p.gate p.qubits),
    ("Noise",
      [.of "channel" .required Channel.decode fun s a => { s with channel := a },
        .of "parameters" .required (.list .double) fun s a => { s with parameters := a },
        qubitsField],
      fun p => .noise p.channel p.parameters p.qubits),
    ("Measure",
      [gateField,
        .of "flip" .optional (.option .double) fun s a => { s with flip := a },
        .of "targets" .required (.list Target.decode) fun s a => { s with targets := a }],
      fun p => .measure p.gate p.flip p.targets),
    ("Detector", [valuesField "offsets" .int64], fun p => .detector p.values),
    ("ObservableInclude", [numberField "index", valuesField "offsets" .int64],
      fun p => .observable p.number p.values),
    ("Repeat",
      [numberField "count", .of "body" .required body fun s a => { s with body := a }],
      fun p => .loop p.number p.body)]

/-- Reads an instruction in which blocks are nested less deep than the bound. -/
def decodeBounded : Nat → Decoder Instruction
  | 0, _ => Reading.misfit
  | _ + 1, .string kind => if kind = "Tick" then .ok .tick else Reading.misfit
  | bound + 1, .object [(kind, value)] .closed =>
      if kind = "Tick" then
        if Decoder.isNull value then .ok .tick else Reading.misfit
      else
        match (kinds (.list (decodeBounded bound))).lookup kind with
        | some (fields, make) => make <$> Decoder.record fields {} value
        | none => Reading.misfit
  | _ + 1, _ => Reading.misfit

/-- No readable document nests blocks deeper than its nesting of brackets. -/
def decode : Decoder Instruction := decodeBounded (Json.maxDepth + 1)

mutual
def toJson : Instruction → Json
  | coords q values =>
      .record [("QubitCoords",
        .record [("qubit", .ofNat q), ("coords", .list (values.map .ofInt))])]
  | gate g targets =>
      .record [("Gate", .record [("gate", g.toJson), ("targets", .list (targets.map .ofNat))])]
  | noise c parameters targets =>
      .record [("Noise",
        .record [("channel", c.toJson), ("parameters", .list (parameters.map .ofDouble)),
          ("targets", .list (targets.map .ofNat))])]
  | measure g flip targets =>
      .record [("Measure",
        .record [("gate", g.toJson), ("flip", .ofOption .ofDouble flip),
          ("targets", .list (targets.map Target.toJson))])]
  | detector offsets =>
      .record [("Detector", .record [("offsets", .list (offsets.map .ofInt))])]
  | observable index offsets =>
      .record [("ObservableInclude",
        .record [("index", .ofNat index), ("offsets", .list (offsets.map .ofInt))])]
  | tick => .string "Tick"
  | loop count body =>
      .record [("Repeat", .record [("count", .ofNat count), ("body", .list (toJsonList body))])]
termination_by structural i => i

def toJsonList : List Instruction → List Json
  | [] => []
  | i :: rest => toJson i :: toJsonList rest
termination_by structural is => is
end

end Instruction

namespace Program

def fields : List (Field Program) :=
  [.of "instructions" .required (.list Instruction.decode)
    fun s a => { s with instructions := a }]

def decode : Decoder Program := .record fields ⟨[]⟩

def toJson (p : Program) : Json :=
  .record [("instructions", .list (Instruction.toJsonList p.instructions))]

end Program

end SyndromeSchedule
