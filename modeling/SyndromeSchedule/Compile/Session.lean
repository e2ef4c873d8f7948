import SyndromeSchedule.Compile.Request
import SyndromeSchedule.Resolution.Resolver
import SyndromeSchedule.Timeline.Occupancy

/-!
Scheduling on ticks. Within a round all checks with an ancilla share one grid of slots, so that
their order on every data qubit is that of the slots; checks without an ancilla are measured as soon
as their qubits are free. A layer starts after everything before it.
-/

namespace SyndromeSchedule

/-- Everything that stays fixed during a compilation. -/
structure Task where
  compiler : Compiler
  code : Code
  request : Request

/-- The latest measurement of a data qubit by itself. -/
structure DirectOutcome where
  basis : Pauli
  handle : Nat
  round : Nat
  tick : Nat

/-- A check with its ancilla and how it is measured. -/
structure Extracted where
  check : Check
  ancilla : Qubit
  plan : Plan

structure Session where
  progress : Progress := {}
  occupancy : Occupancy := {}
  /-- Last tick with a gate on a qubit. -/
  lastUse : Table Nat := .empty
  /-- First tick after the last measurement of an ancilla. -/
  ancillaFloor : Table Nat := .empty
  /-- First tick after the operations of earlier rounds on a data qubit. -/
  dataFloor : Table Nat := .empty
  /-- First tick with a gate on a data qubit in this round. -/
  firstUse : Table Nat := .empty
  /-- Latest measurements of data qubits by themselves. -/
  direct : Table DirectOutcome := .empty
  layerStart : Nat := 0
  rounds : Nat := 0

/-- Gate that takes the state zero to another one. -/
def preparation : State → Option Gate
  | .zero => none
  | .one => some .X
  | .plus => some .H
  | .minus => some .sqrtYDag
  | .plusI => some .sqrtXDag
  | .minusI => some .sqrtX

namespace Task

/-- Checks of a round that have an ancilla, with their plans. -/
def extractRound (task : Task) (round : Nat) : Outcome (List Extracted) :=
  ((task.code.checksIn round).filterMap fun c => c.ancilla.map fun a => (c, a)).mapM
    fun e => do
      let plan ← task.compiler.extractor.plan e.1
      return ⟨e.1, e.2, plan⟩

end Task

namespace Extracted

/-- Qubits used in each slot, in order, with the check that uses them. -/
def uses (e : Extracted) : List ((Nat × Qubit) × Product) :=
  e.plan.steps.zipIdx.flatMap fun step =>
    let data := match step.1 with
      | some i => [i.data]
      | none => []
    (e.ancilla :: data).map fun q => ((step.2, q), e.check.product)

/-- First use of a qubit that is taken in the same slot. -/
def conflictIn? : List ((Nat × Qubit) × Product) → List ((Nat × Qubit) × Product) →
    Option ExtractionError
  | _, [] => none
  | seen, (place, product) :: rest =>
      match seen.lookup place with
      | some other => some (.slotConflict other product place.2 place.1)
      | none => conflictIn? ((place, product) :: seen) rest

def conflict? (extracted : List Extracted) : Option ExtractionError :=
  conflictIn? [] (extracted.flatMap uses)

/-- Interactions with their slots. -/
def interactions (e : Extracted) : List (Nat × Interaction) :=
  e.plan.steps.zipIdx.filterMap fun step => step.1.map fun i => (step.2, i)

/-- Ticks between slots: room for rotations before and after, if there are any. -/
def stride (extracted : List Extracted) : Nat :=
  let all := extracted.flatMap interactions
  let before := if all.any (·.2.before.isSome) then 1 else 0
  let after := if all.any (·.2.after.isSome) then 1 else 0
  1 + before + after

end Extracted

namespace Session

def store (s : Session) : Store := s.progress.store

def setStore (s : Session) (store : Store) : Session :=
  { s with progress := { s.progress with store } }

/-- First tick after everything. -/
def barrier (s : Session) : Nat := max s.occupancy.size s.store.size

/-- Applies a disturbance, if there is one that shows. -/
def disturb (store : Store) (d : Option Disturbance) (tick : Nat) (placement : Placement)
    (qubits : List Qubit) : Outcome Store :=
  match d.filter Disturbance.isActive with
  | none => .ok store
  | some d =>
      let (channel, parameters) := d.resolve .Z
      store.addNoise tick placement channel parameters qubits

/-- Notes that a gate uses a qubit. -/
def touch (code : Code) (tick : Nat) (s : Session) (q : Qubit) : Session :=
  let last := match s.lastUse.get? q with
    | some t => max t tick
    | none => tick
  let s := { s with lastUse := s.lastUse.insert q last }
  if code.isData q then
    let first := match s.firstUse.get? q with
      | some t => min t tick
      | none => tick
    { s with firstUse := s.firstUse.insert q first }
  else s

/-- Notes that a gate takes qubits in a tick. -/
def occupy (s : Session) (tick : Nat) (qubits : List Qubit) : Session :=
  { s with occupancy := qubits.foldl (fun o q => o.occupy tick q) s.occupancy }

/-- Notes whether a qubit holds a state from a tick on. -/
def setLive (s : Session) (tick : Nat) (q : Qubit) (live : Bool) : Session :=
  { s with occupancy := s.occupancy.setLive tick q live }

/-- Applies a gate with the noise of a place after it. -/
def apply (task : Task) (s : Session) (tick : Nat) (gate : Gate) (qubits : List Qubit)
    (place : Place) : Outcome Session := do
  let (store, _) ← (s.store.addGate tick gate qubits).commit
  let store ← disturb store (task.compiler.noise.at? place) tick .after qubits
  return qubits.foldl (touch task.code tick) ((s.setStore store).occupy tick qubits)

/-- Resets a qubit, which then holds a state. -/
def reset (task : Task) (s : Session) (tick : Nat) (q : Qubit) : Outcome Session := do
  let s ← s.apply task tick .R [q] .initialisation
  return s.setLive tick q true

def single (task : Task) (s : Session) (tick : Nat) (gate : Gate) (q : Qubit) :
    Outcome Session :=
  s.apply task tick gate [q] .oneQubitGate

def double (task : Task) (s : Session) (tick : Nat) (gate : Gate) (first second : Qubit) :
    Outcome Session :=
  s.apply task tick gate [first, second] .twoQubitGate

def singleIf (task : Task) (s : Session) (tick : Nat) (gate : Option Gate) (q : Qubit) :
    Outcome Session :=
  match gate with
  | some g => s.single task tick g q
  | none => .ok s

/-- Resets all data qubits, then prepares those that do not start in zero. -/
def initialise (task : Task) (s : Session) : Outcome Session := do
  let s ← task.code.dataQubits.foldlM (fun s q => s.reset task 0 q) s
  task.code.dataQubits.foldlM
    (fun s q => s.singleIf task 1 (preparation (task.request.initialState q)) q) s

/-- Reports a measurement to the detectors that wait for it. -/
def notify (s : Session) (key : Key) : Outcome Session := do
  let (progress, _) ← (s.progress.notify key).commit
  return { s with progress }

/-- Resets and prepares an ancilla, and gives the tick after that. -/
def prepareAncilla (task : Task) (s : Session) (e : Extracted) : Outcome (Session × Nat) := do
  let floor := max s.layerStart ((s.ancillaFloor.get? e.ancilla).getD 0)
  let tick := s.occupancy.earliestFree floor [e.ancilla]
  let s ← s.reset task tick e.ancilla
  match preparation e.plan.ancillaState with
  | none => return (s, tick + 1)
  | some gate =>
      let tick := s.occupancy.earliestFree (tick + 1) [e.ancilla]
      let s ← s.single task tick gate e.ancilla
      return (s, tick + 1)

/-- Prepares all ancillas of a round, and gives the first tick after that. -/
def prepareAncillas (task : Task) (s : Session) (extracted : List Extracted) :
    Outcome (Session × Nat) :=
  extracted.foldlM (fun state e => do
    let (s, ready) ← state.1.prepareAncilla task e
    return (s, max state.2 ready)) (s, s.layerStart)

/-- First start of the grid that data qubits allow an interaction. -/
def startFor (s : Session) (stride : Nat) (slot : Nat) (i : Interaction) : Nat :=
  let floor := (s.dataFloor.get? i.data).getD 0
  (floor + if i.before.isSome then 1 else 0) - slot * stride

/-- Whether the data qubit of an interaction at a tick is free right before, if it is rotated
there. -/
def freeBefore (o : Occupancy) (tick : Nat) (i : Interaction) : Outcome Bool :=
  match i.before with
  | none => .ok true
  | some _ => return o.isFree (← Outcome.pred tick) i.data

def fits (o : Occupancy) (ancilla : Qubit) (tick : Nat) (i : Interaction) : Outcome Bool :=
  if o.isFree tick ancilla && o.isFree tick i.data then do
    let free ← freeBefore o tick i
    return free && (i.after.isNone || o.isFree (tick + 1) i.data)
  else .ok false

def gridFits (o : Occupancy) (extracted : List Extracted) (stride start : Nat) : Outcome Bool :=
  (extracted.flatMap fun e => e.interactions.map fun step => (e.ancilla, step)).allM
    fun use => fits o use.1 (start + use.2.1 * stride) use.2.2

/-- First start, of as many as given and the one after them, where the grid fits. -/
def searchStart (o : Occupancy) (extracted : List Extracted) (stride : Nat) :
    Nat → Nat → Outcome Nat
  | 0, start => .ok start
  | steps + 1, start => do
      if ← gridFits o extracted stride start then return start
      else searchStart o extracted stride steps (start + 1)

/-- First start where the grid fits. It does two ticks past the end, where all qubits are free. -/
def gridStart (o : Occupancy) (extracted : List Extracted) (stride start : Nat) : Outcome Nat :=
  searchStart o extracted stride (o.size + 1 - start) start

/-- Rotates the data qubit of an interaction in the tick before. -/
def rotateBefore (task : Task) (s : Session) (tick : Nat) (i : Interaction) :
    Outcome Session :=
  match i.before with
  | none => .ok s
  | some gate => do s.single task (← Outcome.pred tick) gate i.data

def interact (task : Task) (s : Session) (ancilla : Qubit) (tick : Nat) (i : Interaction) :
    Outcome Session := do
  let s ← s.rotateBefore task tick i
  let s ←
    if i.ancillaControls then s.double task tick i.gate ancilla i.data
    else s.double task tick i.gate i.data ancilla
  s.singleIf task (tick + 1) i.after i.data

/-- Measures an ancilla from a tick on, and reports the outcome. -/
def measureAncilla (task : Task) (s : Session) (e : Extracted) (start round : Nat) :
    Outcome Session := do
  let tick := s.occupancy.earliestFree start [e.ancilla]
  let key := Key.of e.check (Word.signed round)
  let gate ← Outcome.ofExcept .request (Gate.measuring e.plan.basis)
  let (store, _) ←
    (s.store.addMeasurement tick gate e.ancilla task.compiler.noise.flip? key).commit
  let s := ((s.setStore store).occupy tick [e.ancilla]).setLive tick e.ancilla false
  let s := s.touch task.code tick e.ancilla
  { s with ancillaFloor := s.ancillaFloor.insert e.ancilla (tick + 1) }.notify key

/-- Runs the slots of a check on the grid, then measures its ancilla. -/
def runExtracted (task : Task) (stride start round : Nat) (s : Session) (e : Extracted) :
    Outcome Session := do
  let s ← e.interactions.foldlM
    (fun s step => s.interact task e.ancilla (start + step.1 * stride) step.2) s
  let next :=
    if e.plan.steps.isEmpty then start else start + (e.plan.steps.length - 1) * stride + 1
  s.measureAncilla task e next round

/-- Places all checks of a round that have an ancilla. -/
def scheduleExtracted (task : Task) (s : Session) (extracted : List Extracted) (round : Nat) :
    Outcome Session :=
  if extracted.isEmpty then .ok s
  else do
    let stride := Extracted.stride extracted
    let (s, ready) ← s.prepareAncillas task extracted
    let needed := (extracted.flatMap (·.interactions)).foldl
      (fun start step => max start (s.startFor stride step.1 step.2)) ready
    let start ← gridStart s.occupancy extracted stride needed
    extracted.foldlM (runExtracted task stride start round) s

/-- Measures a check without an ancilla: one qubit by itself, more as a product. -/
def measureDirect (task : Task) (s : Session) (c : Check) (tick round : Nat) (key : Key) :
    Outcome Session :=
  match c.members with
  | [m] => do
      let basis := m.operator.letter
      let gate ← Outcome.ofExcept .request (Gate.measuring basis)
      let (store, handle) ←
        (s.store.addMeasurement tick gate m.qubit task.compiler.noise.flip? key).commit
      let s := s.setStore store
      return { s with direct := s.direct.insert m.qubit ⟨basis, handle, round, tick⟩ }
  | members => do
      let factors := members.map fun m => (m.qubit, m.operator.letter)
      let (store, _) ← (s.store.addProduct tick factors task.compiler.noise.flip? key).commit
      return s.setStore store

/-- Places a check without an ancilla as soon as its qubits are free. -/
def scheduleDirect (task : Task) (round : Nat) (s : Session) (c : Check) : Outcome Session := do
  let floors := c.qubits.map fun q => (s.dataFloor.get? q).getD 0
  let tick := s.occupancy.earliestFree (floors.foldl max s.layerStart) c.qubits
  let key := Key.of c (Word.signed round)
  let s ← s.measureDirect task c tick round key
  (c.qubits.foldl (touch task.code tick) (s.occupy tick c.qubits)).notify key

/-- Noise of a round on a data qubit: before its first gate, or where it is left alone. -/
def roundNoise (task : Task) (s : Session) (q : Qubit) : Outcome Session := do
  let noise := task.compiler.noise
  match s.firstUse.get? q with
  | some first =>
      let store ← disturb s.store noise.roundStart first .before [q]
      return s.setStore store
  | none =>
      let last := (s.lastUse.get? q).getD 0
      if s.occupancy.isLive last q then
        let (tick, placement) :=
          if s.layerStart ≤ last then (last, Placement.after)
          else (s.layerStart, Placement.before)
        let store ← disturb s.store noise.idling tick placement [q]
        let store ← disturb store noise.roundStart tick placement [q]
        return s.setStore store
      else return s

/-- Sets the floors of the data qubits for a new round. -/
def startRound (code : Code) (s : Session) : Session :=
  let floor (q : Qubit) : Nat := match s.lastUse.get? q with
    | some t => t + 1
    | none => 0
  { s with
    dataFloor := code.dataQubits.foldl (fun t q => t.insert q (floor q)) s.dataFloor
    firstUse := .empty }

def compileRound (task : Task) (s : Session) : Outcome Session := do
  let round := s.rounds
  let (progress, _) ← (s.progress.beginRound task.code round).commit
  let s := startRound task.code { s with progress }
  let extracted ← task.extractRound round
  let s ← s.scheduleExtracted task extracted round
  let s ← ((task.code.checksIn round).filter (·.ancilla.isNone)).foldlM
    (scheduleDirect task round) s
  let s ← task.code.dataQubits.foldlM (roundNoise task) s
  let (progress, _) ← (s.progress.endRound task.code round).commit
  return { s with progress, rounds := round + 1 }

def compileRounds (task : Task) : Nat → Session → Outcome Session
  | 0, s => .ok s
  | n + 1, s => do
      let s ← s.compileRound task
      compileRounds task n s

/-- Places a layer, and gives its first tick and the one after its last. -/
def compileLayer (task : Task) (s : Session) : Outcome (Session × Nat × Nat) := do
  let start := if s.rounds = 0 then 0 else s.barrier
  let s ← compileRounds task task.code.period { s with layerStart := start }
  let stop := s.barrier
  if start < stop then
    let progress ← s.progress.flush (stop - 1)
    return ({ s with progress }, start, stop)
  else return (s, start, stop)

def compileLayers (task : Task) : Nat → Session → Outcome Session
  | 0, s => .ok s
  | n + 1, s => do
      let (s, _) ← s.compileLayer task
      compileLayers task n s

/-- Measurements of some ticks, with rounds counted from a base. -/
def measuredFrom (s : Session) (start stop : Nat) (base : Int) : Outcome (List Key) := do
  let handles ← s.store.order start stop
  handles.mapM fun h => do
    let (key, _) ← Outcome.ofIndex <| s.store.record.entry? h
    return { key with round := key.round - base }

/-- Whether two layers measure the same, the second one period later. -/
def sameMeasurements (task : Task) (s : Session) (first second : Nat × Nat) : Outcome Bool := do
  let a ← s.measuredFrom first.1 first.2 0
  let b ← s.measuredFrom second.1 second.2 task.code.period
  return a = b

/-- Places the layers after the first of at least three, but not the last. If the second is like the
first, it stands for all of them. -/
def compileMiddle (task : Task) (s : Session) (first : Nat × Nat) : Outcome (Session × Bool) := do
  let layers := task.request.layers
  let (s, start, stop) ← s.compileLayer task
  let same ← s.sameMeasurements task first (start, stop)
  if start < stop && same && task.compiler.options.repeatMiddle then
    let store ← Outcome.ofExcept .request (s.store.markRepeat start stop (layers - 2))
    return (s.setStore store, true)
  else
    let s ← s.compileLayers task (layers - 3)
    return (s, false)

/-- Final measurement of a data qubit. It is not made again if the last operation on the qubit was
that measurement, in the last round. -/
def measureFinal (task : Task) (last tick : Nat) (state : Session × Table (Pauli × Nat))
    (final : Qubit × Pauli) : Outcome (Session × Table (Pauli × Nat)) := do
  let (s, finals) := state
  let (q, basis) := final
  let reusable := (s.direct.get? q).filter fun d =>
    d.round = last && d.basis = basis && s.lastUse.get? q = some d.tick
  match reusable with
  | some d => return (s, finals.insert q (basis, d.handle))
  | none =>
      let check ← Check.ofLetters [(q, basis)] none
      let gate ← Outcome.ofExcept .request (Gate.measuring basis)
      let key := Key.of check (Word.signed s.rounds)
      let (store, handle) ←
        (s.store.addMeasurement tick gate q task.compiler.noise.flip? key).commit
      let s := ((s.setStore store).occupy tick [q]).setLive tick q false
      return (s.touch task.code tick q, finals.insert q (basis, handle))

/-- Measures the data qubits at the end, closes detectors and observables on the outcomes, and gives
the number of these detectors. -/
def measureFinals (task : Task) (s : Session) : Outcome (Session × Nat) := do
  let last ← Outcome.pred s.rounds
  let (s, finals) ← (task.request.resolvedFinals task.code).foldlM
    (measureFinal task last s.barrier) (s, .empty)
  let (progress, placed) ← (s.progress.finalDetectors task.code last finals).commit
  let (progress, _) ← (progress.finalObservables s.rounds finals).commit
  return ({ s with progress }, placed)

end Session

end SyndromeSchedule
