import SyndromeSchedule.Text.Blank

/-!
Single-qubit Pauli letters, powers of the imaginary unit, and signed letters.
-/

namespace SyndromeSchedule

/-- A power of the imaginary unit. -/
inductive Phase where
  | one
  | i
  | minusOne
  | minusI
deriving DecidableEq, Repr, Inhabited

namespace Phase

/-- The exponent `k` of `i ^ k`. -/
def power : Phase → Nat
  | one => 0
  | i => 1
  | minusOne => 2
  | minusI => 3

def ofPower (k : Nat) : Phase :=
  match k % 4 with
  | 0 => one
  | 1 => i
  | 2 => minusOne
  | _ => minusI

def mul (a b : Phase) : Phase := ofPower (a.power + b.power)

def inverse (a : Phase) : Phase := ofPower (4 - a.power)

def isReal (a : Phase) : Bool := a.power % 2 = 0

def text : Phase → String
  | one => "+"
  | i => "+i"
  | minusOne => "-"
  | minusI => "-i"

end Phase

inductive Pauli where
  | I
  | X
  | Y
  | Z
deriving DecidableEq, Repr, Inhabited

namespace Pauli

/-- Product of two letters and the phase it picks up. -/
def mul : Pauli → Pauli → Pauli × Phase
  | I, b => (b, .one)
  | a, I => (a, .one)
  | X, X => (I, .one)
  | X, Y => (Z, .i)
  | X, Z => (Y, .minusI)
  | Y, X => (Z, .minusI)
  | Y, Y => (I, .one)
  | Y, Z => (X, .i)
  | Z, X => (Y, .i)
  | Z, Y => (X, .minusI)
  | Z, Z => (I, .one)

def commutes (a b : Pauli) : Bool := a = I || b = I || a = b

def char : Pauli → Char
  | I => 'I'
  | X => 'X'
  | Y => 'Y'
  | Z => 'Z'

def text (a : Pauli) : String := String.ofList [a.char]

/-- Letter written as a character of either case. -/
def ofChar? (c : Char) : Option Pauli :=
  match c.toUpper with
  | 'I' => some I
  | 'X' => some X
  | 'Y' => some Y
  | 'Z' => some Z
  | _ => none

/-- Letter that stands alone between white space. -/
def ofText? (text : List Char) : Option Pauli :=
  match Text.trim text with
  | [c] => ofChar? c
  | _ => none

end Pauli

structure Operator where
  letter : Pauli
  phase : Phase := .one
deriving DecidableEq, Repr, Inhabited

namespace Operator

/-- The letter itself. -/
def positive (letter : Pauli) : Operator := ⟨letter, .one⟩

def mul (a b : Operator) : Operator :=
  let (letter, phase) := a.letter.mul b.letter
  ⟨letter, (a.phase.mul b.phase).mul phase⟩

/-- A plus sign is left out. -/
def text (a : Operator) : String :=
  if a.phase = .one then a.letter.text else a.phase.text ++ a.letter.text

end Operator

inductive State where
  | zero
  | one
  | plus
  | minus
  | plusI
  | minusI
deriving DecidableEq, Repr, Inhabited

namespace State

/-- The signed letter that leaves the state as it is. -/
def stabilizer : State → Operator
  | zero => ⟨.Z, .one⟩
  | one => ⟨.Z, .minusOne⟩
  | plus => ⟨.X, .one⟩
  | minus => ⟨.X, .minusOne⟩
  | plusI => ⟨.Y, .one⟩
  | minusI => ⟨.Y, .minusOne⟩

def basis (s : State) : Pauli := s.stabilizer.letter

end State

end SyndromeSchedule
