import SyndromeSchedule.Compile.Session

/-!
Compilation of a request: a store, its program and a report on what is in them.
-/

namespace SyndromeSchedule

structure Report where
  layers : Nat
  /-- Rounds that were placed; a repeated layer is placed once. -/
  rounds : Nat
  ticks : Nat
  measurements : Nat
  /-- Detectors by their place in the schedule. -/
  detectors : List (Entry × Nat)
  finalDetectors : Nat
  discarded : Nat
  /-- Whether the middle layers are written once. -/
  repeated : Bool
deriving DecidableEq

def Report.total (r : Report) : Nat :=
  r.detectors.foldr (fun e n => e.2 + n) r.finalDetectors

structure Compilation where
  store : Store
  program : Program
  report : Report

namespace Task

/-- Fails if a check of the schedule cannot be measured, or two checks of a round need the same
qubit at once. -/
def checkExtraction (task : Task) : Outcome Unit :=
  (List.range task.code.period).forM fun round => do
    let extracted ← task.extractRound round
    match Extracted.conflict? extracted with
    | some cause => .fail (.extraction cause)
    | none => .ok ()

/-- A session with nothing placed yet. -/
def session (task : Task) : Session :=
  { progress :=
      { resolver :=
          { initial := task.request.initial
            trackers := Tracker.startAll task.request.observables } } }

/-- Places all layers, and tells whether the middle ones are written once. -/
def placeLayers (task : Task) (s : Session) : Outcome (Session × Bool) := do
  let layers := task.request.layers
  let (s, first) ← s.compileLayer task
  let (s, repeated) ← if 3 ≤ layers then s.compileMiddle task first else pure (s, false)
  if 2 ≤ layers then
    let (s, _) ← s.compileLayer task
    return (s, repeated)
  else return (s, repeated)

/-- Places everything on ticks. -/
def schedule (task : Task) : Outcome (Store × Report) := do
  task.checkExtraction
  let s ← task.session.initialise task
  let (s, repeated) ← task.placeLayers s
  let (s, finalDetectors) ← s.measureFinals task
  let resolver := s.progress.resolver
  resolver.finish
  return (s.store,
    { layers := task.request.layers
      rounds := s.rounds
      ticks := s.barrier
      measurements := s.store.record.size
      detectors := resolver.report
      finalDetectors
      discarded := resolver.discarded
      repeated })

end Task

namespace Compiler

def compile (c : Compiler) (code : Code) (request : Request) : Outcome Compilation := do
  match request.fault? code with
  | some cause => .fail cause
  | none =>
      let (store, report) ← Task.schedule ⟨c, code, request⟩
      let program ← store.emit c.options.layout
      return ⟨store, program, report⟩

end Compiler

end SyndromeSchedule
