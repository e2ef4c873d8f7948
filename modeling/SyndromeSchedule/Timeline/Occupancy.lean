import SyndromeSchedule.Error

/-!
Which qubits are taken and which hold a state, tick by tick. The table grows as needed: a new tick
has all qubits free, and holds the states of the tick before.
-/

namespace SyndromeSchedule

structure Moment where
  occupied : List Qubit := []
  live : List Qubit := []
deriving DecidableEq, Inhabited

structure Occupancy where
  moments : Array Moment := #[]

namespace Occupancy

def empty : Occupancy := {}

def size (o : Occupancy) : Nat := o.moments.size

def grow : Nat → Array Moment → Array Moment
  | 0, moments => moments
  | n + 1, moments => grow n (moments.push { live := (moments.back?.map (·.live)).getD [] })

def extendTo (o : Occupancy) (tick : Nat) : Occupancy :=
  ⟨grow (tick + 1 - o.size) o.moments⟩

/-- Whether no gate acts on a qubit; past the end all are free. -/
def isFree (o : Occupancy) (tick : Nat) (q : Qubit) : Bool :=
  match o.moments[tick]? with
  | some m => q ∉ m.occupied
  | none => true

def occupy (o : Occupancy) (tick : Nat) (q : Qubit) : Occupancy :=
  ⟨(o.extendTo tick).moments.modify tick fun m => { m with occupied := q :: m.occupied }⟩

def setState (q : Qubit) (live : Bool) (m : Moment) : Moment :=
  { m with live := if live then q :: m.live.filter (· ≠ q) else m.live.filter (· ≠ q) }

/-- From a tick on, a qubit holds a state, or does not. -/
def setLive (o : Occupancy) (tick : Nat) (q : Qubit) (live : Bool) : Occupancy :=
  ⟨(o.extendTo tick).moments.mapIdx fun t m => if tick ≤ t then setState q live m else m⟩

/-- Whether a qubit holds a state; past the end as in the last tick. -/
def isLive (o : Occupancy) (tick : Nat) (q : Qubit) : Bool :=
  match (o.moments[tick]?).or o.moments.back? with
  | some m => q ∈ m.live
  | none => false

def allFree (o : Occupancy) (tick : Nat) (qubits : List Qubit) : Bool :=
  qubits.all (o.isFree tick)

/-- First tick, of as many as given and the one after them, where all qubits are free. -/
def searchFree (o : Occupancy) (qubits : List Qubit) : Nat → Nat → Nat
  | 0, tick => tick
  | steps + 1, tick =>
      if o.allFree tick qubits then tick else searchFree o qubits steps (tick + 1)

/-- First tick from a given one where all qubits are free. There is one, since all are free past the
end. -/
def earliestFree (o : Occupancy) (start : Nat) (qubits : List Qubit) : Nat :=
  o.searchFree qubits (o.size - start) start

/-- Like `earliestFree`, for a start that has a tick after it. -/
def earliestFree? (o : Occupancy) (start : Nat) (qubits : List Qubit) : Outcome Nat :=
  if start + 1 < Word.size then .ok (o.earliestFree start qubits) else .overflow

end Occupancy

end SyndromeSchedule
