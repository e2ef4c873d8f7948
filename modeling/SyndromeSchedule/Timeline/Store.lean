import SyndromeSchedule.Program.Instruction
import SyndromeSchedule.Timeline.Attempt
import SyndromeSchedule.Timeline.Numbering
import SyndromeSchedule.Timeline.Record

/-!
Ticks and what happens in them. Gates, noise and annotations may be written in any order of ticks;
the only rule is that no qubit takes part in two gates of one tick. Qubits are numbered in order of
first use.

An operation that is refused may have numbered qubits and made room for ticks before, which is why
it gives back a store in any case.
-/

namespace SyndromeSchedule

/-- What a gate acts on, by number of qubits. -/
inductive GateTarget where
  | qubits (indices : List Nat)
  | product (factors : List (Pauli × Nat))
deriving DecidableEq

def GateTarget.indices : GateTarget → List Nat
  | qubits indices => indices
  | product factors => factors.map (·.2)

/-- A gate in a tick; a measurement knows its handle in the record. -/
structure GateOp where
  gate : Gate
  flip : Option Double
  target : GateTarget
  handle : Option Nat
deriving DecidableEq

structure NoiseOp where
  channel : Channel
  parameters : List Double
  targets : List Nat
deriving DecidableEq

/-- Outcomes that make a detector or are part of an observable. -/
inductive Note where
  | detector (handles : List Nat)
  | observable (index : Nat) (handles : List Nat)
deriving DecidableEq

/-- Noise stands before or after the gates of its tick. -/
inductive Placement where
  | before
  | after
deriving DecidableEq

structure Tick where
  before : List NoiseOp := []
  gates : List GateOp := []
  after : List NoiseOp := []
  notes : List Note := []
  busy : List Nat := []
deriving DecidableEq, Inhabited

/-- Ticks that are repeated as a block. -/
structure Region where
  start : Nat
  stop : Nat
  repetitions : Nat
deriving DecidableEq

structure Store where
  ticks : Array Tick := #[]
  numbering : Numbering := .empty
  record : Record := .empty
  region : Option Region := none

namespace Store

def empty : Store := {}

def size (s : Store) : Nat := s.ticks.size

def qubits (s : Store) : List Qubit := s.numbering.qubits

def index (s : Store) (q : Qubit) : Store × Nat :=
  let numbered := s.numbering.number q
  ({ s with numbering := numbered.1 }, numbered.2)

def indexAll (s : Store) : List Qubit → Store × List Nat
  | [] => (s, [])
  | q :: rest =>
      let (s, n) := s.index q
      let (s, ns) := s.indexAll rest
      (s, n :: ns)

/-- Most ticks there is room for. -/
def maxTicks : Nat := 1099511627776

def ensure (s : Store) (tick : Nat) : Outcome Store :=
  if maxTicks ≤ tick then .overflow
  else .ok { s with ticks := s.ticks ++ Array.replicate (tick + 1 - s.ticks.size) {} }

def modify (s : Store) (tick : Nat) (change : Tick → Tick) : Store :=
  { s with ticks := s.ticks.modify tick change }

/-- First qubit of a target that is taken in a tick. -/
def conflict? (s : Store) (tick : Nat) (target : GateTarget) : Option Nat :=
  let busy := ((s.ticks[tick]?).map (·.busy)).getD []
  target.indices.find? (· ∈ busy)

def takeUp (busy : List Nat) : List Nat → List Nat
  | [] => busy
  | n :: rest => takeUp (if n ∈ busy then busy else n :: busy) rest

/-- Marks qubits as taken. -/
def occupy (indices : List Nat) (t : Tick) : Tick :=
  { t with busy := takeUp t.busy indices }

def pushGate (op : GateOp) (t : Tick) : Tick :=
  { t with gates := t.gates ++ [op] }

/-- Takes the qubits of a gate, which have to be free. -/
def claim (s : Store) (tick : Nat) (target : GateTarget) : Attempt Store Unit :=
  match s.ensure tick with
  | .error halt => ⟨s, .error halt⟩
  | .ok s =>
      match s.conflict? tick target with
      | some q => ⟨s, .fail (.conflict tick q)⟩
      | none => ⟨s.modify tick (occupy target.indices), .ok ()⟩

def addGate (s : Store) (tick : Nat) (gate : Gate) (qubits : List Qubit) :
    Attempt Store Unit :=
  let (s, indices) := s.indexAll qubits
  (s.claim tick (.qubits indices)).andThen fun s _ =>
    ⟨s.modify tick (pushGate ⟨gate, none, .qubits indices, none⟩), .ok ()⟩

/-- Puts a measurement on record. -/
def file (s : Store) (key : Key) (tick : Nat) : Store :=
  { s with record := s.record.push key tick }

/-- Files a measurement and pushes its gate with the handle under which it is found on record. -/
def pushOutcome (s : Store) (tick : Nat) (gate : Gate) (target : GateTarget)
    (flip : Option Double) (key : Key) : Attempt Store Nat :=
  let s := s.file key tick
  match s.record.lookup key with
  | .error halt => ⟨s, .error halt⟩
  | .ok handle => ⟨s.modify tick (pushGate ⟨gate, flip, target, some handle⟩), .ok handle⟩

/-- Adds a measurement of a numbered target and gives its handle. -/
def addOutcome (s : Store) (tick : Nat) (gate : Gate) (target : GateTarget)
    (flip : Option Double) (key : Key) : Attempt Store Nat :=
  (s.claim tick target).andThen fun s _ => s.pushOutcome tick gate target flip key

def addMeasurement (s : Store) (tick : Nat) (gate : Gate) (q : Qubit) (flip : Option Double)
    (key : Key) : Attempt Store Nat :=
  let (s, n) := s.index q
  s.addOutcome tick gate (.qubits [n]) flip key

def addProduct (s : Store) (tick : Nat) (factors : List (Qubit × Pauli))
    (flip : Option Double) (key : Key) : Attempt Store Nat :=
  let (s, indices) := s.indexAll (factors.map (·.1))
  s.addOutcome tick .MPP (.product ((factors.map (·.2)).zip indices)) flip key

def putNoise (placement : Placement) (op : NoiseOp) (t : Tick) : Tick :=
  match placement with
  | .before => { t with before := t.before ++ [op] }
  | .after => { t with after := t.after ++ [op] }

def addNoise (s : Store) (tick : Nat) (placement : Placement) (channel : Channel)
    (parameters : List Double) (qubits : List Qubit) : Outcome Store := do
  let (s, indices) := s.indexAll qubits
  let s ← s.ensure tick
  return s.modify tick (putNoise placement ⟨channel, parameters, indices⟩)

def annotate (s : Store) (tick : Nat) (note : Note) : Outcome Store := do
  let s ← s.ensure tick
  return s.modify tick fun t => { t with notes := t.notes ++ [note] }

/-- Has ticks repeated as a block. -/
def markRepeat (s : Store) (start stop repetitions : Nat) : Except RequestError Store :=
  if start < stop && stop ≤ s.size then .ok { s with region := some ⟨start, stop, repetitions⟩ }
  else .error (.repeatRange start stop s.size)

/-- Adds an item to the first group it fits, or as a group of its own. -/
def addToGroup {α : Type} (same : α → α → Bool) (a : α) : List (List α) → List (List α)
  | [] => [[a]]
  | group :: rest =>
      match group with
      | head :: _ => if same head a then (group ++ [a]) :: rest else group :: addToGroup same a rest
      | [] => group :: addToGroup same a rest

/-- Items grouped with the first they are like, in order of first appearance. -/
def groups {α : Type} (same : α → α → Bool) (items : List α) : List (List α) :=
  items.foldl (fun gs a => addToGroup same a gs) []

/-- Gates that share an instruction: the same gate with the same flip. -/
def gateGroups (gates : List GateOp) : List (List GateOp) :=
  groups (fun a b => a.gate = b.gate && a.flip = b.flip) gates

/-- Noise that shares an instruction: the same channel with equal numbers. -/
def noiseGroups (noise : List NoiseOp) : List (List NoiseOp) :=
  groups (fun a b => a.channel = b.channel && Instruction.sameNumbers a.parameters b.parameters)
    noise

/-- Handles of the measurements in a tick, in the order of their instructions. -/
def handlesIn (t : Tick) : List Nat :=
  (gateGroups t.gates).flatMap fun ops => ops.filterMap (·.handle)

/-- Handles of the measurements in some ticks, in the order of the program. -/
def order (s : Store) (start stop : Nat) : Outcome (List Nat) :=
  let low := min start s.size
  let high := min stop s.size
  if low ≤ high then .ok ((s.ticks.extract low high).toList.flatMap handlesIn) else .outside

end Store

end SyndromeSchedule
