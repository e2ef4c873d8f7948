import SyndromeSchedule.Schedule.Check

/-!
The record of measurements in the order in which they are filed. A handle is the number of entries
that were there before; a key that is filed again stands for its latest entry.
-/

namespace SyndromeSchedule

/-- Keys of entries with their handles. -/
def Record.numbered : List (Key × Nat) → List (Key × Nat)
  | [] => []
  | (key, _) :: older => (key, older.length) :: numbered older

/-- Entries with their ticks, and an index from keys to handles, the latest first in both. -/
structure Record where
  entries : List (Key × Nat)
  index : List (Key × Nat)
  /-- The index knows the entries and nothing else. -/
  indexed : index = Record.numbered entries

namespace Record

def empty : Record := ⟨[], [], rfl⟩

def size (r : Record) : Nat := r.entries.length

/-- Files an entry and notes its handle in the index. -/
def push (r : Record) (key : Key) (tick : Nat) : Record where
  entries := (key, tick) :: r.entries
  index := (key, r.size) :: r.index
  indexed := congrArg ((key, r.size) :: ·) r.indexed

/-- The latest handle that an index has for a key. -/
def handleIn? (key : Key) : List (Key × Nat) → Option Nat
  | [] => none
  | (k, handle) :: older => if k = key then some handle else handleIn? key older

def handle? (r : Record) (key : Key) : Option Nat := handleIn? key r.index

def contains (r : Record) (key : Key) : Bool := (r.handle? key).isSome

def entry? (r : Record) (handle : Nat) : Option (Key × Nat) :=
  if handle < r.size then r.entries[r.size - 1 - handle]? else none

def tickOf (r : Record) (handle : Nat) : Outcome Nat :=
  (·.2) <$> Outcome.ofIndex (Record.entry? r handle)

/-- The handle of a key, or an error that names the key. -/
def lookup (r : Record) (key : Key) : Outcome Nat :=
  match r.handle? key with
  | some handle => .ok handle
  | none => .fail (.unknownOutcome key.product key.round)

/-- Like `lookup`, for a measurement that should have been made by now. -/
def lookupMade (r : Record) (key : Key) : Outcome Nat :=
  match r.handle? key with
  | some handle => .ok handle
  | none => .fail (.notYetMeasured (.outcome key.product key.round))

end Record

end SyndromeSchedule
