import SyndromeSchedule.Timeline.Store

/-!
From ticks to a program. Within a tick come noise, gates, noise and annotations; handles become
offsets from the latest outcome, counted where the annotation stands.
-/

namespace SyndromeSchedule

structure Layout where
  coords : Bool := true
  trailingTick : Bool := false
deriving DecidableEq

/-- Outcomes emitted so far: their number, and where each entry of the record went. -/
structure Cursor where
  emitted : Nat
  positions : Array (Option Nat)

namespace Cursor

/-- Nothing is emitted yet of a number of entries. -/
def start (entries : Nat) : Cursor := ⟨0, Array.replicate entries none⟩

def placed (c : Cursor) (handle : Nat) : Cursor :=
  ⟨c.emitted + 1, c.positions.setIfInBounds handle (some c.emitted)⟩

/-- Where the outcome of an entry went, if it is emitted. -/
def position? (c : Cursor) (handle : Nat) : Option (Option Nat) := c.positions[handle]?

/-- Emits the outcome of a handle, which has to be one of the entries. -/
def place (c : Cursor) (handle : Nat) : Outcome Cursor :=
  if handle < c.positions.size then .ok (c.placed handle) else .outside

end Cursor

namespace Store

def emitNoise (noise : List NoiseOp) : List Instruction :=
  (noiseGroups noise).filterMap fun ops =>
    ops.head?.map fun op => .noise op.channel op.parameters (ops.flatMap (·.targets))

/-- Target of a measuring gate. A gate without qubits has none. -/
def measured : GateTarget → Outcome Target
  | .qubits (q :: _) => .ok (.qubit q)
  | .qubits [] => .outside
  | .product factors => .ok (.product factors)

def countOutcome (c : Cursor) (op : GateOp) : Outcome Cursor :=
  match op.handle with
  | some handle => c.place handle
  | none => .ok c

def emitGroup (c : Cursor) : List GateOp → Outcome (Cursor × List Instruction)
  | [] => .ok (c, [])
  | op :: rest =>
      if op.gate.isMeasurement then do
        let targets ← (op :: rest).mapM fun o => measured o.target
        let c ← (op :: rest).foldlM countOutcome c
        return (c, [.measure op.gate op.flip targets])
      else .ok (c, [.gate op.gate ((op :: rest).flatMap (·.target.indices))])

def emitGates (c : Cursor) : List (List GateOp) → Outcome (Cursor × List Instruction)
  | [] => .ok (c, [])
  | ops :: rest => do
      let (c, first) ← emitGroup c ops
      let (c, others) ← emitGates c rest
      return (c, first ++ others)

/-- Offsets of handles, all of which have to be emitted. -/
def offsets (s : Store) (c : Cursor) (handles : List Nat) : Outcome (List Int) :=
  handles.mapM fun handle =>
    match c.position? handle with
    | none => .outside
    | some (some position) => .ok ((position : Int) - c.emitted)
    | some none =>
        match s.record.entry? handle with
        | some (key, _) => .fail (.notYetMeasured (.outcome key.product key.round))
        | none => .outside

def emitNote (s : Store) (c : Cursor) : Note → Outcome Instruction
  | .detector handles => .detector <$> s.offsets c handles
  | .observable index handles => .observable index <$> s.offsets c handles

/-- Instructions of a tick, without its end. -/
def emitTick (s : Store) (c : Cursor) (t : Tick) : Outcome (Cursor × List Instruction) := do
  let (c, gates) ← emitGates c (gateGroups t.gates)
  let notes ← t.notes.mapM (s.emitNote c)
  return (c, emitNoise t.before ++ gates ++ emitNoise t.after ++ notes)

def emitTicks (s : Store) (c : Cursor) : List Tick → Outcome (Cursor × List Instruction)
  | [] => .ok (c, [])
  | t :: rest => do
      let (c, first) ← s.emitTick c t
      let (c, others) ← s.emitTicks c rest
      return (c, first ++ .tick :: others)

def emitCoords (s : Store) : List Instruction :=
  s.qubits.zipIdx.map fun e => .coords e.2 e.1.values

/-- Instructions of all ticks, with the repeated ones in a block. -/
def emitBody (s : Store) : Outcome (List Instruction) := do
  let ticks := s.ticks.toList
  match s.region with
  | none => return (← s.emitTicks (.start s.record.size) ticks).2
  | some region =>
      if region.start ≤ region.stop && region.stop ≤ s.size then do
        let (c, first) ← s.emitTicks (.start s.record.size) (ticks.take region.start)
        let (c, body) ← s.emitTicks c ((ticks.take region.stop).drop region.start)
        let (_, last) ← s.emitTicks c (ticks.drop region.stop)
        return first ++ .loop region.repetitions body :: last
      else .outside

/-- Leaves out a tick at the end. -/
def dropLastTick (instructions : List Instruction) : List Instruction :=
  match instructions.getLast? with
  | some .tick => instructions.dropLast
  | _ => instructions

def emit (s : Store) (layout : Layout) : Outcome Program := do
  let body ← s.emitBody
  let all := (if layout.coords then s.emitCoords else []) ++ body
  return ⟨if layout.trailingTick then all else dropLastTick all⟩

end Store

end SyndromeSchedule
