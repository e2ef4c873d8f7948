import SyndromeSchedule.Pauli.Basic
import SyndromeSchedule.Lattice.Table

/-!
Products of letters on several qubits with one overall phase. Only letters other than the identity
are kept, in order of qubits.
-/

namespace SyndromeSchedule

structure Product where
  factors : Table Pauli
  phase : Phase
deriving DecidableEq

namespace Product

def identity : Product := ⟨.empty, .one⟩

instance : Inhabited Product := ⟨identity⟩

/-- Letter on a qubit; the identity where no factor is kept. -/
def letter (p : Product) (q : Qubit) : Pauli :=
  (p.factors.get? q).getD .I

def mulOperator (p : Product) (q : Qubit) (op : Operator) : Product :=
  let (letter, phase) := (p.letter q).mul op.letter
  ⟨if letter = .I then p.factors.erase q else p.factors.insert q letter,
    (p.phase.mul op.phase).mul phase⟩

def ofOperators (operators : List (Qubit × Operator)) : Product :=
  operators.foldl (fun p e => p.mulOperator e.1 e.2) identity

def mul (p r : Product) : Product :=
  let letters := r.factors.entries.foldl (fun p e => p.mulOperator e.1 (.positive e.2)) p
  { letters with phase := letters.phase.mul r.phase }

/-- Qubits with a letter other than the identity. -/
def support (p : Product) : List Qubit := p.factors.keys

def weight (p : Product) : Nat := p.factors.size

def isIdentity (p : Product) : Bool := p.factors.entries.isEmpty

def sameLetters (p r : Product) : Bool := p.factors = r.factors

/-- Same letters, and phases that differ by a sign at most. -/
def matchesUpToSign (p r : Product) : Bool :=
  p.sameLetters r && (p.phase.mul r.phase.inverse).isReal

/-- Products commute if their letters clash on an even number of qubits. -/
def commutes (p r : Product) : Bool :=
  (p.factors.entries.filter fun e => !e.2.commutes (r.letter e.1)).length % 2 = 0

def intersects (p r : Product) : Bool :=
  p.support.any r.factors.contains

/-- Phase, then letters with their qubits joined by stars. -/
def text (p : Product) : String :=
  p.phase.text ++ "*".intercalate (p.factors.entries.map fun e => e.2.text ++ e.1.text)

end Product

end SyndromeSchedule
