import SyndromeSchedule.Json.Decode
import SyndromeSchedule.Timeline.Emission

/-!
The layout of programs in documents.
-/

namespace SyndromeSchedule.Layout

def fields : List (Field Layout) :=
  [.of "include_qubit_coords" .defaulted .bool fun s a => { s with coords := a },
    .of "trailing_tick" .defaulted .bool fun s a => { s with trailingTick := a }]

def decode : Decoder Layout := .record fields {}

def toJson (l : Layout) : Json :=
  .record [("include_qubit_coords", .bool l.coords), ("trailing_tick", .bool l.trailingTick)]

end SyndromeSchedule.Layout
