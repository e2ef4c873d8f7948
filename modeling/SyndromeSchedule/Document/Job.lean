import SyndromeSchedule.Compile.Job
import SyndromeSchedule.Document.Extraction
import SyndromeSchedule.Document.Layout
import SyndromeSchedule.Document.Noise
import SyndromeSchedule.Document.Schedule

/-!
Requests, options, jobs and reports in documents.
-/

namespace SyndromeSchedule

namespace Request

/-- Later states of a qubit replace earlier ones. -/
def fields : List (Field Request) :=
  [.of "layers" .required .word fun s a => { s with layers := a },
    .of "initial_states" .defaulted (.list (.pair Coordinates.decode State.decode))
      fun s a => { s with initial := .ofList a },
    .of "final_measurements" .defaulted (.list (.pair Coordinates.decode Pauli.decode))
      fun s a => { s with finals := a },
    .of "logical_observables" .defaulted (.list Logical.decode)
      fun s a => { s with observables := a }]

def decode : Decoder Request := .record fields { layers := 0 }

def toJson (r : Request) : Json :=
  .record [("layers", .ofNat r.layers),
    ("initial_states", .list (r.initial.entries.map fun e => .list [e.1.toJson, e.2.toJson])),
    ("final_measurements", .list (r.finals.map fun e => .list [e.1.toJson, e.2.toJson])),
    ("logical_observables", .list (r.observables.map (·.toJson)))]

end Request

namespace Options

def fields : List (Field Options) :=
  [.of "repeat_middle_layers" .defaulted .bool fun s a => { s with repeatMiddle := a },
    .of "output" .defaulted Layout.decode fun s a => { s with layout := a }]

def decode : Decoder Options := .record fields {}

def toJson (o : Options) : Json :=
  .record [("repeat_middle_layers", .bool o.repeatMiddle), ("output", o.layout.toJson)]

end Options

/-- A job as described; code and request are missing until they are read. -/
structure JobDescription where
  code : Option Code := none
  request : Request := { layers := 0 }
  noise : NoiseSource := .explicit .noiseless
  extractor : Extractor := {}
  options : Options := {}

namespace Job

def fields : List (Field JobDescription) :=
  [.of "code" .required Code.decode fun s a => { s with code := some a },
    .of "request" .required Request.decode fun s a => { s with request := a },
    .of "noise" .defaulted NoiseSource.decode fun s a => { s with noise := a },
    .of "extractor" .defaulted Extractor.decode fun s a => { s with extractor := a },
    .of "compiler" .defaulted Options.decode fun s a => { s with options := a }]

def decode : Decoder Job := fun j => do
  let d ← Decoder.record fields {} j
  let code ← Reading.ofOption d.code
  return ⟨code, d.request, d.noise, d.extractor, d.options⟩

def toJson (j : Job) : Json :=
  .record [("code", j.code.toJson), ("request", j.request.toJson), ("noise", j.noise.toJson),
    ("extractor", j.extractor.toJson), ("compiler", j.options.toJson)]

end Job

namespace Report

def toJson (r : Report) : Json :=
  .record [("layers", .ofNat r.layers), ("compiled_rounds", .ofNat r.rounds),
    ("ticks", .ofNat r.ticks), ("measurements", .ofNat r.measurements),
    ("detectors", .list (r.detectors.map fun e =>
      .list [.record [("round", .ofNat e.1.round), ("index", .ofNat e.1.index)],
        .ofNat e.2])),
    ("final_detectors", .ofNat r.finalDetectors),
    ("discarded_detectors", .ofNat r.discarded), ("repeated", .bool r.repeated)]

end Report

end SyndromeSchedule
