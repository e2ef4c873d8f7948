import SyndromeSchedule.Resolution.Tracker
import SyndromeSchedule.Timeline.Store

/-!
Detectors and observables as annotations of a store. The detectors of a round start to wait when the
round begins, and are written as soon as the last of their outcomes is on record, into the tick of
the latest one.
-/

namespace SyndromeSchedule

structure Entry where
  round : Nat
  index : Nat
deriving DecidableEq

inductive Stage where
  /-- Some outcomes are missing. -/
  | pending
  /-- All outcomes are there, but the annotation is not. -/
  | triggered
  | resolved
deriving DecidableEq

structure Instance where
  entry : Entry
  round : Int
  constituents : List Key
  stage : Stage
  /-- Number of outcomes that are missing. -/
  missing : Nat
deriving DecidableEq

structure Resolver where
  instances : Array Instance := #[]
  /-- Instances that wait for a key. -/
  triggers : List (Key × List Nat) := []
  /-- Detectors dropped since the initial state does not fix them. -/
  discarded : Nat := 0
  initial : Table State := .empty
  trackers : List Tracker := []

/-- What a compilation has written so far, and what it waits for. -/
structure Progress where
  resolver : Resolver := {}
  store : Store := {}

/-- Items that occur an odd number of times, in order of first appearance. -/
def oddItems {α : Type} [DecidableEq α] (items : List α) : List α :=
  (items.eraseDups).filter fun a => items.count a % 2 = 1

namespace Resolver

def resolved (r : Resolver) : Nat :=
  (r.instances.toList.filter (·.stage = .resolved)).length

/-- Counts one more for an entry, in order of entries. -/
def countEntry (e : Entry) : List (Entry × Nat) → List (Entry × Nat)
  | [] => [(e, 1)]
  | (f, n) :: rest =>
      if e = f then (f, n + 1) :: rest
      else if e.round < f.round || (e.round = f.round && e.index < f.index) then
        (e, 1) :: (f, n) :: rest
      else (f, n) :: countEntry e rest

def report (r : Resolver) : List (Entry × Nat) :=
  (r.instances.toList.filter (·.stage = .resolved)).foldl (fun counts i =>
    countEntry i.entry counts) []

def initialBasis (r : Resolver) (q : Qubit) : Pauli :=
  ((r.initial.get? q).getD .zero).basis

/-- Whether the initial state fixes the value of a product. -/
def fixes (r : Resolver) (p : Product) : Bool :=
  p.factors.entries.all fun e => r.initialBasis e.1 = e.2

def addTrigger (key : Key) (id : Nat) : List (Key × List Nat) → List (Key × List Nat)
  | [] => [(key, [id])]
  | (k, ids) :: rest =>
      if k = key then (k, ids ++ [id]) :: rest else (k, ids) :: addTrigger key id rest

def modify (r : Resolver) (id : Nat) (change : Instance → Instance) : Resolver :=
  { r with instances := r.instances.modify id change }

/-- Adds an instance that waits for the keys not on record. -/
def wait (r : Resolver) (entry : Entry) (round : Int) (constituents missing : List Key) :
    Resolver :=
  let id := r.instances.size
  { r with
    instances := r.instances.push ⟨entry, round, constituents, .pending, missing.length⟩
    triggers := missing.foldl (fun ts key => addTrigger key id ts) r.triggers }

def unresolved? (r : Resolver) : Option Instance :=
  r.instances.toList.find? (·.stage ≠ .resolved)

def finish (r : Resolver) : Outcome Unit :=
  match r.unresolved? with
  | none => .ok ()
  | some i => .fail (.notYetMeasured (.detector i.entry.round i.entry.index i.round))

end Resolver

namespace Progress

def latestTick (s : Store) (handles : List Nat) : Outcome Nat := do
  let ticks ← handles.mapM s.record.tickOf
  return ticks.foldl max 0

/-- Writes a detector into the tick of its latest outcome. -/
def placeDetector (s : Store) (handles : List Nat) : Outcome Store := do
  let tick ← latestTick s handles
  s.annotate tick (.detector handles)

/-- The detector of some keys, all of which have to be on record. -/
def writeDetector (s : Store) (keys : List Key) : Outcome Store := do
  let handles ← keys.mapM s.record.lookupMade
  placeDetector s handles

/-- Writes an instance all of whose outcomes are reported. -/
def trigger (p : Progress) (id : Nat) : Attempt Progress Unit :=
  match p.resolver.instances[id]? with
  | none => ⟨p, .outside⟩
  | some i =>
      let resolver := p.resolver.modify id fun i => { i with stage := .triggered }
      match writeDetector p.store i.constituents with
      | .error halt => ⟨{ p with resolver }, .error halt⟩
      | .ok store =>
          ⟨⟨resolver.modify id fun i => { i with stage := .resolved }, store⟩, .ok ()⟩

/-- Starts an instance with outcomes from round zero on. If earlier ones were cut off, the initial
state has to stand in for them. -/
def openInstance (p : Progress) (entry : Entry) (round : Int) (cut : Bool)
    (constituents : List Key) : Attempt Progress Unit :=
  let product := constituents.foldl (fun q key => q.mul key.product) .identity
  if cut && (constituents.isEmpty || !p.resolver.fixes product) then
    ⟨{ p with resolver := { p.resolver with discarded := p.resolver.discarded + 1 } }, .ok ()⟩
  else
    let missing := constituents.filter fun key => !p.store.record.contains key
    let id := p.resolver.instances.size
    let p := { p with resolver := p.resolver.wait entry round constituents missing }
    if missing.isEmpty then p.trigger id else ⟨p, .ok ()⟩

/-- Starts the instance of a detector that closes in a round. -/
def openDetector (entryRound : Nat) (round : Int) (p : Progress) (e : Detector × Nat) :
    Attempt Progress Unit :=
  match e.1.triggers round with
  | .error halt => ⟨p, .error halt⟩
  | .ok all =>
      let kept := all.filter (0 ≤ ·.2)
      p.openInstance ⟨entryRound, e.2⟩ round (all.any (·.2 < 0))
        (oddItems (kept.map fun t => Key.of t.1 t.2))

def beginRound (p : Progress) (code : Code) (round : Nat) : Attempt Progress Unit :=
  Attempt.forEach (openDetector (round % code.period) (Word.signed round)) p
    (code.detectorsIn round).zipIdx

/-- Counts one outcome less for an instance, and writes it if none is left. -/
def arrive (p : Progress) (id : Nat) : Attempt Progress Unit :=
  match Outcome.ofIndex p.resolver.instances[id]? >>= fun i => Outcome.pred i.missing with
  | .error halt => ⟨p, .error halt⟩
  | .ok missing =>
      let p := { p with resolver := p.resolver.modify id fun i => { i with missing } }
      if missing = 0 then p.trigger id else ⟨p, .ok ()⟩

def notify (p : Progress) (key : Key) : Attempt Progress Unit :=
  let ids := (p.resolver.triggers.lookup key).getD []
  let resolver :=
    { p.resolver with triggers := p.resolver.triggers.filter (·.1 ≠ key) }
  Attempt.forEach arrive { p with resolver } ids

/-- Does something with every tracker up to the first failure, which keeps what it did to its
tracker. -/
def eachTracker (action : Tracker → Attempt Tracker Unit) :
    List Tracker → Attempt (List Tracker) Unit
  | [] => ⟨[], .ok ()⟩
  | t :: rest =>
      let first := action t
      match first.outcome with
      | .error halt => ⟨first.state :: rest, .error halt⟩
      | .ok () =>
          let others := eachTracker action rest
          ⟨first.state :: others.state, others.outcome⟩

def setTrackers (p : Progress) (trackers : List Tracker) : Progress :=
  { p with resolver := { p.resolver with trackers } }

/-- Moves all observables past a round. -/
def endRound (p : Progress) (code : Code) (round : Nat) : Attempt Progress Unit :=
  let result := eachTracker (·.advance code round p.store.record) p.resolver.trackers
  ⟨p.setTrackers result.state, result.outcome⟩

/-- Annotates a tick with outcomes of an observable, if there are any. -/
def annotateObservable (s : Store) (tick index : Nat) (handles : List Nat) : Outcome Store :=
  if handles.isEmpty then .ok s else s.annotate tick (.observable index handles)

/-- Writes the outcomes toggled so far into a tick. -/
def flush (p : Progress) (tick : Nat) : Outcome Progress := do
  let store ← p.resolver.trackers.foldlM
    (fun s t => annotateObservable s tick t.index t.pending) p.store
  return (⟨p.resolver, store⟩ : Progress).setTrackers (p.resolver.trackers.map (·.take.1))

/-- Latest round that measures a check, of as many as given back from a round. -/
def lastMeasured? (code : Code) (c : Check) : Nat → Nat → Option Nat
  | 0, _ => none
  | steps + 1, round =>
      if (code.checksIn round).any c.same then some round
      else lastMeasured? code c steps (round - 1)

/-- Whether final measurements cover all members of a check. -/
def isCovered (finals : Table (Pauli × Nat)) (c : Check) : Bool :=
  c.members.all fun m => ((finals.get? m.qubit).map (·.1)) = some m.operator.letter

/-- Whether a check is measured after a round that does not commute. -/
def isDisturbed (code : Code) (c : Check) (measured last : Nat) : Bool :=
  (List.range (last - measured)).any fun k =>
    (code.checksIn (measured + 1 + k)).any fun later => !c.commutes later

def finalHandles (finals : Table (Pauli × Nat)) (c : Check) : Outcome (List Nat) :=
  c.qubits.mapM fun q => (·.2) <$> Outcome.ofIndex (finals.get? q)

/-- Writes the detector of some handles and counts it, unless they cancel. -/
def placeFinal (state : Store × Nat) (handles : List Nat) : Outcome (Store × Nat) :=
  if handles.isEmpty then .ok state
  else do
    let store ← placeDetector state.1 handles
    return (store, state.2 + 1)

/-- Compares the last outcome of a check with the final measurements. -/
def closeCheck (code : Code) (last : Nat) (finals : Table (Pauli × Nat))
    (state : Store × Nat) (c : Check) : Attempt (Store × Nat) Unit :=
  if !isCovered finals c then ⟨state, .ok ()⟩
  else
    match lastMeasured? code c (min code.period (last + 1)) last with
    | none => ⟨state, .ok ()⟩
    | some measured =>
        if isDisturbed code c measured last then ⟨state, .ok ()⟩
        else
          match state.1.record.lookupMade (.of c (Word.signed measured)) with
          | .error _ => ⟨state, .fail (.notYetMeasured (.outcome c.product measured))⟩
          | .ok handle =>
              match finalHandles finals c >>= fun hs =>
                  placeFinal state (oddItems (handle :: hs)) with
              | .error halt => ⟨state, .error halt⟩
              | .ok next => ⟨next, .ok ()⟩

/-- Writes the detectors that close on the final measurements, and gives their number. -/
def finalDetectors (p : Progress) (code : Code) (last : Nat) (finals : Table (Pauli × Nat)) :
    Attempt Progress Nat :=
  if Word.size ≤ last + 1 then ⟨p, .overflow⟩
  else
    let result :=
      Attempt.forEach (closeCheck code last finals) (p.store, 0) code.distinctChecks
    ⟨{ p with store := result.state.1 }, result.outcome.map fun _ => result.state.2⟩

def closeTracker (rounds : Nat) (finals : Table (Pauli × Nat)) (s : Store) (t : Tracker) :
    Attempt (Store × Tracker) Unit :=
  let closed := t.close rounds finals
  match closed.outcome with
  | .error halt => ⟨(s, closed.state), .error halt⟩
  | .ok () =>
      let (t, handles) := closed.state.take
      match latestTick s handles >>= fun tick => annotateObservable s tick t.index handles with
      | .error halt => ⟨(s, t), .error halt⟩
      | .ok store => ⟨(store, t), .ok ()⟩

/-- Ends observables in order, up to the first failure. -/
def closeTrackers (rounds : Nat) (finals : Table (Pauli × Nat)) :
    Store → List Tracker → Attempt (Store × List Tracker) Unit
  | s, [] => ⟨(s, []), .ok ()⟩
  | s, t :: rest =>
      let first := closeTracker rounds finals s t
      match first.outcome with
      | .error halt => ⟨(first.state.1, first.state.2 :: rest), .error halt⟩
      | .ok () =>
          let others := closeTrackers rounds finals first.state.1 rest
          ⟨(others.state.1, first.state.2 :: others.state.2), others.outcome⟩

def finalObservables (p : Progress) (rounds : Nat) (finals : Table (Pauli × Nat)) :
    Attempt Progress Unit :=
  let result := closeTrackers rounds finals p.store p.resolver.trackers
  ⟨(⟨p.resolver, result.state.1⟩ : Progress).setTrackers result.state.2, result.outcome⟩

end Progress

end SyndromeSchedule
