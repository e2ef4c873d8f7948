import SyndromeSchedule.Document.Pauli
import SyndromeSchedule.Noise.Model

/-!
Noise in documents. A source is read as a named model if it has a name and a probability, and
otherwise as a model in which every place is optional.
-/

namespace SyndromeSchedule

namespace NoiseKind

def names : List (String × NoiseKind) :=
  ([flip, channel .depolarize1, channel .depolarize2, channel .xError, channel .yError,
    channel .zError, channel .pauliChannel1, channel .pauliChannel2]).map fun k => (k.name, k)

def decode : Decoder NoiseKind := .name Decoder.isNull names

def toJson (k : NoiseKind) : Json := .string k.name

end NoiseKind

namespace Disturbance

def fields : List (Field Disturbance) :=
  [.of "name" .required NoiseKind.decode fun s a => { s with kind := a },
    .of "probability" .required .double fun s a => { s with probability := a },
    .of "terms" .defaulted (.option (.list .double)) fun s a => { s with terms := a }]

def decode : Decoder Disturbance := .record fields ⟨.flip, .zero, none⟩

/-- Weights are written only if there are any. -/
def toJson (d : Disturbance) : Json :=
  .record ([("name", d.kind.toJson), ("probability", .ofDouble d.probability)] ++
    match d.terms with
    | none => []
    | some terms => [("terms", .list (terms.map .ofDouble))])

end Disturbance

namespace NoiseModel

/-- The model with other noise at a place. -/
def set (m : NoiseModel) (place : Place) (d : Option Disturbance) : NoiseModel :=
  match place with
  | .initialisation => { m with initialisation := d }
  | .idling => { m with idling := d }
  | .roundStart => { m with roundStart := d }
  | .oneQubitGate => { m with oneQubitGate := d }
  | .twoQubitGate => { m with twoQubitGate := d }
  | .measurement => { m with measurement := d }

def fields : List (Field NoiseModel) :=
  Place.all.map fun place =>
    .of place.name .defaulted (.option Disturbance.decode) fun s a => s.set place a

def decode : Decoder NoiseModel := .record fields .noiseless

def toJson (m : NoiseModel) : Json :=
  .record (Place.all.map fun place => (place.name, .ofOption Disturbance.toJson (m.at? place)))

end NoiseModel

namespace NoiseSource

/-- Name and probability of a model. -/
def presetFields : List (Field (String × Double)) :=
  [.of "preset" .required .string fun s a => (a, s.2),
    .of "probability" .required .double fun s a => (s.1, a)]

/-- The whole source has to be readable, whatever of it is used. -/
def decode : Decoder NoiseSource := fun j =>
  if j.isReadable then
    match Decoder.object presetFields ("", .zero) j with
    | .ok (name, probability) => .ok (.preset name probability)
    | .error _ => explicit <$> NoiseModel.decode j
  else Reading.misfit

def toJson : NoiseSource → Json
  | preset name probability =>
      .record [("preset", .string name), ("probability", .ofDouble probability)]
  | explicit model => model.toJson

end NoiseSource

end SyndromeSchedule
