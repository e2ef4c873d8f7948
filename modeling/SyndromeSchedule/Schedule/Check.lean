import SyndromeSchedule.Error

/-!
Checks: products of letters that are measured as one outcome, directly or through an ancilla. A
value of type `Check` has at least one member, acts on distinct qubits with letters other than the
identity, keeps its ancilla apart from its members and has a real phase.
-/

namespace SyndromeSchedule

/-- One factor of a check: its place relative to the anchor, its qubit and its operator. -/
structure Member where
  offset : Coordinates
  qubit : Qubit
  operator : Operator
deriving DecidableEq

def Member.product (members : List Member) : Product :=
  .ofOperators (members.map fun m => (m.qubit, m.operator))

/-- First member that repeats an earlier qubit or carries the identity. -/
def Member.fault? : List Qubit → List Member → Option CheckError
  | _, [] => none
  | seen, m :: rest =>
      if m.qubit ∈ seen then some (.repeatedQubit m.qubit)
      else if m.operator.letter = .I then some (.identityFactor m.qubit)
      else Member.fault? (m.qubit :: seen) rest

/-- Fault of an ancilla that is a member itself. -/
def Member.ancillaFault? (members : List Member) : Option Qubit → Option CheckError
  | none => none
  | some ancilla =>
      if members.any (·.qubit = ancilla) then some (.ancillaIsMember ancilla) else none

def CheckError.find? (members : List Member) (ancilla : Option Qubit) : Option CheckError :=
  if members.isEmpty then some .empty
  else
    (Member.fault? [] members).or <|
      (Member.ancillaFault? members ancilla).or <|
        if (Member.product members).phase.isReal then none
        else some (.notHermitian (Member.product members))

structure Check where
  members : List Member
  anchor : Option Coordinates
  ancilla : Option Qubit
  sound : CheckError.find? members ancilla = none
deriving DecidableEq

namespace Check

def make (members : List Member) (anchor : Option Coordinates) (ancilla : Option Qubit) :
    Except CheckError Check :=
  match h : CheckError.find? members ancilla with
  | some cause => .error cause
  | none => .ok ⟨members, anchor, ancilla, h⟩

def makeOutcome (members : List Member) (anchor : Option Coordinates)
    (ancilla : Option Qubit) : Outcome Check :=
  .ofExcept (fun cause => .design (.check cause)) (make members anchor ancilla)

/-- The member at an offset from the anchor. Offsets have to fit 32 bits. -/
def memberAround (anchor : Coordinates) (qubit : Qubit) (operator : Operator) :
    Outcome Member :=
  match qubit.difference anchor with
  | none => .fail (.design (.check (.dimension qubit anchor)))
  | some offset => if offset.isSmall then .ok ⟨offset, qubit, operator⟩ else .overflow

/-- A check whose members are placed relative to an anchor. -/
def around (anchor : Coordinates) (operators : List (Qubit × Operator))
    (ancilla : Option Qubit) : Outcome Check := do
  let members ← operators.mapM fun e => memberAround anchor e.1 e.2
  makeOutcome members (some anchor) ancilla

/-- A check of plain letters around its ancilla or, without one, around its first qubit. -/
def ofLetters (letters : List (Qubit × Pauli)) (ancilla : Option Qubit) : Outcome Check :=
  match ancilla.or (letters.head?.map (·.1)) with
  | none => .fail (.design (.check .empty))
  | some anchor => around anchor (letters.map fun e => (e.1, .positive e.2)) ancilla

def product (c : Check) : Product := Member.product c.members

def phase (c : Check) : Phase := c.product.phase

def text (c : Check) : String := c.product.text

/-- The operators by qubit. Checks with the same content measure the same thing, whatever their
order of members, offsets, anchor and ancilla. -/
def content (c : Check) : Table Operator :=
  .ofList (c.members.map fun m => (m.qubit, m.operator))

def same (a b : Check) : Bool := a.content = b.content

def weight (c : Check) : Nat := c.members.length

def qubits (c : Check) : List Qubit := c.members.map (·.qubit)

def word (c : Check) : List Pauli := c.members.map (·.operator.letter)

/-- The letter of all members, if they agree. -/
def pureLetter? (c : Check) : Option Pauli :=
  match c.word with
  | [] => none
  | letter :: rest => if rest.all (· = letter) then some letter else none

def commutes (a b : Check) : Bool := a.product.commutes b.product

def actsOn (c : Check) (q : Qubit) : Bool := c.members.any (·.qubit = q)

end Check

/-- What an outcome is filed under: absolute round and content of the check. -/
structure Key where
  round : Int
  content : Table Operator
deriving DecidableEq

namespace Key

def of (c : Check) (round : Int) : Key := ⟨round, c.content⟩

def product (k : Key) : Product := .ofOperators k.content.entries

def text (k : Key) : String := k.product.text ++ " @ round " ++ toString k.round

end Key

end SyndromeSchedule
