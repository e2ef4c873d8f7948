import SyndromeSchedule.Program.Gate

/-!
Programs: lists of instructions in which a block may be repeated. Counts are those of the program
with its blocks repeated, as long as a word holds them.
-/

namespace SyndromeSchedule

/-- What a measurement measures: a qubit, or a product of letters. -/
inductive Target where
  | qubit (index : Nat)
  | product (factors : List (Pauli × Nat))
deriving DecidableEq, Repr

inductive Instruction where
  /-- Place of a qubit. -/
  | coords (qubit : Nat) (values : List Int)
  | gate (gate : Gate) (targets : List Nat)
  | noise (channel : Channel) (parameters : List Double) (targets : List Nat)
  /-- Measurement whose outcomes may be flipped with a probability. -/
  | measure (gate : Gate) (flip : Option Double) (targets : List Target)
  /-- Parity of earlier outcomes, counted back from the latest. -/
  | detector (offsets : List Int)
  /-- Outcomes that are part of a logical observable. -/
  | observable (index : Nat) (offsets : List Int)
  | tick
  | loop (count : Nat) (body : List Instruction)

structure Program where
  instructions : List Instruction

namespace Instruction

/-- Lists of numerically equal doubles. -/
def sameNumbers (xs ys : List Double) : Bool :=
  xs.length = ys.length && (xs.zip ys).all fun e => e.1.numEq e.2

/-- Flips that are both missing or numerically equal. -/
def sameFlip : Option Double → Option Double → Bool
  | none, none => true
  | some x, some y => x.numEq y
  | _, _ => false

mutual
/-- Whether two instructions are alike, with numbers compared as numbers. -/
def same : Instruction → Instruction → Bool
  | coords q vs, coords q' vs' => q = q' && vs = vs'
  | gate g ts, gate g' ts' => g = g' && ts = ts'
  | noise c ps ts, noise c' ps' ts' => c = c' && sameNumbers ps ps' && ts = ts'
  | measure g f ts, measure g' f' ts' => g = g' && sameFlip f f' && ts = ts'
  | detector os, detector os' => os = os'
  | observable i os, observable i' os' => i = i' && os = os'
  | tick, tick => true
  | loop n body, loop n' body' => n = n' && sameList body body'
  | _, _ => false
termination_by structural i => i

def sameList : List Instruction → List Instruction → Bool
  | [], [] => true
  | i :: rest, i' :: rest' => same i i' && sameList rest rest'
  | _, _ => false
termination_by structural is => is
end

mutual
/-- Sum of the weights of all instructions that are executed. -/
def weigh (weight : Instruction → Nat) : Instruction → Option Nat
  | loop n body => do
      let once ← weighList weight body
      Word.mul? n once
  | coords q vs => some (weight (coords q vs))
  | gate g ts => some (weight (gate g ts))
  | noise c ps ts => some (weight (noise c ps ts))
  | measure g f ts => some (weight (measure g f ts))
  | detector os => some (weight (detector os))
  | observable i os => some (weight (observable i os))
  | tick => some (weight tick)
termination_by structural i => i

def weighList (weight : Instruction → Nat) : List Instruction → Option Nat
  | [] => some 0
  | i :: rest => do
      let first ← weigh weight i
      let others ← weighList weight rest
      Word.add? first others
termination_by structural is => is
end

mutual
/-- One more than the largest observable, or zero. -/
def observableBound : Instruction → Option Nat
  | observable index _ => Word.add? index 1
  | loop _ body => observableBoundList body
  | coords _ _ => some 0
  | gate _ _ => some 0
  | noise _ _ _ => some 0
  | measure _ _ _ => some 0
  | detector _ => some 0
  | tick => some 0
termination_by structural i => i

def observableBoundList : List Instruction → Option Nat
  | [] => some 0
  | i :: rest => do
      let first ← observableBound i
      let others ← observableBoundList rest
      return max first others
termination_by structural is => is
end

end Instruction

namespace Program

/-- Whether two programs are alike, with numbers compared as numbers. -/
def same (p q : Program) : Bool :=
  Instruction.sameList p.instructions q.instructions

def measurementCount (p : Program) : Option Nat :=
  Instruction.weighList
    (fun | .measure _ _ targets => targets.length | _ => 0) p.instructions

def detectorCount (p : Program) : Option Nat :=
  Instruction.weighList (fun | .detector _ => 1 | _ => 0) p.instructions

def tickCount (p : Program) : Option Nat :=
  Instruction.weighList (fun | .tick => 1 | _ => 0) p.instructions

def observableCount (p : Program) : Option Nat :=
  Instruction.observableBoundList p.instructions

end Program

end SyndromeSchedule
