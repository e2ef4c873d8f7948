import SyndromeSchedule.Noise.Channel
import SyndromeSchedule.Number.Positional
import SyndromeSchedule.Pauli.Product
import SyndromeSchedule.Text.Quoted

/-!
Everything that can be wrong, by cause, with the message each cause is reported by. Arithmetic that
leaves its range is kept apart from faults of the input: it ends whatever was being done.
-/

namespace SyndromeSchedule

/-- A qubit that may be missing, as messages show it. -/
def qubitOptionText : Option Qubit → String
  | none => "None"
  | some q =>
      "Some(Qubit(Coordinates([" ++ ", ".intercalate (q.values.map fun z => toString z) ++ "])))"

inductive CheckError where
  | empty
  | repeatedQubit (qubit : Qubit)
  | identityFactor (qubit : Qubit)
  | ancillaIsMember (ancilla : Qubit)
  | notHermitian (product : Product)
  | dimension (qubit : Qubit) (anchor : Coordinates)
  | otherAncilla (check : Product) (known given : Option Qubit)
deriving DecidableEq

def CheckError.message : CheckError → String
  | .empty => "a check needs at least one qubit"
  | .repeatedQubit qubit => "qubit " ++ qubit.text ++ " appears twice"
  | .identityFactor qubit => "identity operator on qubit " ++ qubit.text
  | .ancillaIsMember ancilla => "ancilla " ++ ancilla.text ++ " is also a member qubit"
  | .notHermitian product => "product " ++ product.text ++ " is not Hermitian"
  | .dimension qubit anchor =>
      "qubit " ++ qubit.text ++ " and anchor " ++ anchor.text ++ " have different dimensions"
  | .otherAncilla check known given =>
      "check " ++ check.text ++ " already interned with ancilla " ++ qubitOptionText known ++
        ", got " ++ qubitOptionText given

inductive DetectorError where
  | future (offset : Int) (check : Product)
  | noFreshOutcome
  | mismatch (floor lid : Product)
deriving DecidableEq

def DetectorError.message : DetectorError → String
  | .future offset check => "positive offset " ++ toString offset ++ " on " ++ check.text
  | .noFreshOutcome => "lid has no check measured in the end round"
  | .mismatch floor lid => "floor " ++ floor.text ++ " does not match lid " ++ lid.text

inductive CodeError where
  | repeatedDataQubit (qubit : Qubit)
  | emptySchedule
  | scheduleLengths (detectors checks : Nat)
  | strayMember (check : Product) (round : Nat) (qubit : Qubit)
  | ancillaIsData (ancilla : Qubit) (check : Product)
  | repeatedCheck (check : Product) (round : Nat)
  | wrongEnd (listed ends : Nat)
  | offsetOutside (offset : Int) (length : Nat)
  | unscheduled (round : Nat) (check : Product) (offset : Int) (scheduled : Nat)
  | emptyHistory
  | identityLogical
  | logicalNotHermitian (product : Product)
  | historyLength (history length : Nat)
  | strayLogical (qubit : Qubit)
  | noRound (round : Nat)
deriving DecidableEq

def CodeError.message : CodeError → String
  | .repeatedDataQubit qubit => "data qubit " ++ qubit.text ++ " declared twice"
  | .emptySchedule => "check schedule is empty"
  | .scheduleLengths detectors checks =>
      "detector schedule has " ++ toString detectors ++ " rounds but check schedule has " ++
        toString checks
  | .strayMember check round qubit =>
      "check " ++ check.text ++ " in round " ++ toString round ++ " touches " ++ qubit.text ++
        " which is not a data qubit"
  | .ancillaIsData ancilla check =>
      "ancilla " ++ ancilla.text ++ " of check " ++ check.text ++ " is a data qubit"
  | .repeatedCheck check round =>
      "check " ++ check.text ++ " appears twice in round " ++ toString round
  | .wrongEnd listed ends =>
      "detector listed in round " ++ toString listed ++ " ends in round " ++ toString ends
  | .offsetOutside offset length =>
      "detector offset " ++ toString offset ++ " outside [-" ++ toString length ++ ", 0]"
  | .unscheduled round check offset scheduled =>
      "detector in round " ++ toString round ++ " references " ++ check.text ++ " at offset " ++
        toString offset ++ " but it is not scheduled in round " ++ toString scheduled
  | .emptyHistory => "logical operator has an empty history"
  | .identityLogical => "logical operator is the identity"
  | .logicalNotHermitian product =>
      "logical operator " ++ product.text ++ " is not Hermitian"
  | .historyLength history length =>
      "logical operator history length " ++ toString history ++
        " does not divide schedule length " ++ toString length
  | .strayLogical qubit =>
      "logical operator acts on " ++ qubit.text ++ " which is not a data qubit"
  | .noRound round => "no round " ++ toString round ++ " to attach a detector to"

/-- A code, or a part of one, that is not well formed. -/
inductive DesignError where
  | check (cause : CheckError)
  | detector (cause : DetectorError)
  | code (cause : CodeError)
deriving DecidableEq

def DesignError.message : DesignError → String
  | .check cause => "Invalid check: " ++ cause.message
  | .detector cause => "Invalid detector: " ++ cause.message
  | .code cause => "Invalid code: " ++ cause.message

inductive RequestError where
  | noLayers
  | strayInitial (qubit : Qubit)
  | strayFinal (qubit : Qubit)
  | identityFinal (qubit : Qubit)
  | repeatedFinal (qubit : Qubit)
  | identityBasis
  | repeatRange (start stop length : Nat)
deriving DecidableEq

def RequestError.message : RequestError → String
  | .noLayers => "at least one layer is required"
  | .strayInitial qubit =>
      "initial state given for " ++ qubit.text ++ " which is not a data qubit"
  | .strayFinal qubit => "final measurement of " ++ qubit.text ++ " which is not a data qubit"
  | .identityFinal qubit => "final measurement of " ++ qubit.text ++ " in the identity basis"
  | .repeatedFinal qubit => qubit.text ++ " measured twice at the end"
  | .identityBasis => "cannot measure in the identity basis"
  | .repeatRange start stop length =>
      "repeat range " ++ toString start ++ ".." ++ toString stop ++ " outside the " ++
        toString length ++ " allocated ticks"

inductive ExtractionError where
  | mixedOrder (word : List Pauli)
  | noSlot (letter : Pauli) (offset : Coordinates) (check : Product)
  | sharedSlot (check : Product) (slot : Nat)
  | mixedWord (word : List Pauli)
  | controlledIdentity
  | slotConflict (first second : Product) (qubit : Qubit) (slot : Nat)
deriving DecidableEq

def wordText (word : List Pauli) : String :=
  String.ofList (word.map Pauli.char)

def ExtractionError.message : ExtractionError → String
  | .mixedOrder word =>
      "rotated lattice ordering needs a pure X or Z check, got " ++ wordText word
  | .noSlot letter offset check =>
      "no " ++ letter.text ++ " slot for offset " ++ offset.text ++ " in check " ++ check.text
  | .sharedSlot check slot =>
      "two members of check " ++ check.text ++ " share slot " ++ toString slot
  | .mixedWord word => "CNOT-only extraction needs a pure X or Z check, got " ++ wordText word
  | .controlledIdentity => "no controlled-identity gate"
  | .slotConflict first second qubit slot =>
      "checks " ++ first.text ++ " and " ++ second.text ++ " both use qubit " ++ qubit.text ++
        " in interaction slot " ++ toString slot

inductive ObservableError where
  | drift (index : Nat) (round : Nat) (found expected : Product)
  | wrongEnd (index : Nat) (found expected : Product)
  | unread (index : Nat) (qubit : Qubit) (letter : Pauli)
deriving DecidableEq

def ObservableError.message : ObservableError → String
  | .drift index round found expected =>
      "observable " ++ toString index ++ " after round " ++ toString round ++ " is " ++
        found.text ++ ", expected " ++ expected.text
  | .wrongEnd index found expected =>
      "observable " ++ toString index ++ " ends as " ++ found.text ++ ", expected " ++
        expected.text
  | .unread index qubit letter =>
      "observable " ++ toString index ++ " needs " ++ qubit.text ++ " measured in the " ++
        letter.text ++ " basis at the end"

inductive ConfigError where
  | probability (place : Place) (value : Double)
  | termCount (place : Place) (kind : NoiseKind) (expected found : Nat)
  | termRange (place : Place) (kind : NoiseKind)
  | termsMissing (place : Place) (kind : NoiseKind) (expected : Nat)
  | termsUnexpected (place : Place) (kind : NoiseKind)
  | twoQubitKind (place : Place) (kind : NoiseKind)
  | notFlip (kind : NoiseKind)
  | unknownPreset (name : String)
  | request (cause : RequestError)
deriving DecidableEq

def ConfigError.message : ConfigError → String
  | .probability place value =>
      place.name ++ ": probability " ++ value.text ++ " outside [0, 1]"
  | .termCount place kind expected found =>
      place.name ++ ": " ++ kind.name ++ " takes " ++ toString expected ++ " terms, got " ++
        toString found
  | .termRange place kind =>
      place.name ++ ": " ++ kind.name ++ " terms must be in [0, 1] and sum to at most 1"
  | .termsMissing place kind expected =>
      place.name ++ ": " ++ kind.name ++ " needs " ++ toString expected ++ " terms"
  | .termsUnexpected place kind => place.name ++ ": " ++ kind.name ++ " does not take terms"
  | .twoQubitKind place kind =>
      place.name ++ ": two-qubit channel " ++ kind.name ++ " only allowed on two_qubit_gate"
  | .notFlip kind => "measurement: channel must be flip, got " ++ kind.name
  | .unknownPreset name => "unknown noise preset: " ++ name
  | .request cause => "request: " ++ cause.message

/-- What the reader of programs missed. -/
inductive Expected where
  | name
  /-- An instruction that makes sense. -/
  | meaning
  | lineEnd
  | exponent
deriving DecidableEq

def Expected.text : Expected → String
  | .name => "Alpha"
  | .meaning => "Verify"
  | .lineEnd => "Eof"
  | .exponent => "Float"

inductive ParseError where
  | letter (text : List Char)
  | unexpected (line : List Char)
  | unparsable (line : List Char) (missed : Expected)
deriving DecidableEq

def ParseError.message : ParseError → String
  | .letter text => "not a Pauli letter: " ++ Text.quote text
  | .unexpected line => "Unexpected content: " ++ String.ofList line
  | .unparsable line missed =>
      "Cannot parse " ++ Text.quote line ++ " (" ++ missed.text ++ ")"

/-- A file that cannot be read or written. -/
inductive FileError where
  | missing
  | denied
  | isFolder
  | notFolder
  /-- A name, or the whole path, has too many bytes. -/
  | tooLong
  /-- The bytes are no text. -/
  | notText
deriving DecidableEq

def FileError.message : FileError → String
  | .missing => "No such file or directory (os error 2)"
  | .denied => "Permission denied (os error 13)"
  | .isFolder => "Is a directory (os error 21)"
  | .notFolder => "Not a directory (os error 20)"
  | .tooLong => "File name too long (os error 36)"
  | .notText => "stream did not contain valid UTF-8"

/-- A measurement needed before it was made: one outcome, or the outcomes of a detector given by its
place in the schedule and the round it ends in. -/
inductive MissingOutcome where
  | outcome (check : Product) (round : Int)
  | detector (round index : Nat) (ends : Int)
deriving DecidableEq

def MissingOutcome.message : MissingOutcome → String
  | .outcome check round => check.text ++ " @ round " ++ toString round
  | .detector round index ends =>
      "detector ScheduleEntry \x7b round: " ++ toString round ++ ", index: " ++ toString index ++
        " \x7d ending in round " ++ toString ends ++ " never resolved"

inductive Error where
  | design (cause : DesignError)
  | request (cause : RequestError)
  | extraction (cause : ExtractionError)
  | conflict (tick qubit : Nat)
  | unknownOutcome (check : Product) (round : Int)
  | notYetMeasured (cause : MissingOutcome)
  | observable (cause : ObservableError)
  | config (cause : ConfigError)
  | parse (cause : ParseError) (position : Nat)
  | file (cause : FileError)
  /-- A document that does not fit, or one that describes no code. -/
  | document (cause : Option DesignError)
deriving DecidableEq

namespace Error

def message : Error → String
  | design cause => cause.message
  | request cause => "Invalid compile request: " ++ cause.message
  | extraction cause => "Extraction error: " ++ cause.message
  | conflict tick qubit =>
      "Conflict at tick " ++ toString tick ++ ": qubit " ++ toString qubit ++
        " already has a gate"
  | unknownOutcome check round =>
      "Unknown measurement: " ++ check.text ++ " @ round " ++ toString round
  | notYetMeasured cause => "Not yet measured: " ++ cause.message
  | observable cause => "Observable error: " ++ cause.message
  | config cause => "Configuration error: " ++ cause.message
  | parse cause position =>
      "Parse error: " ++ cause.message ++ " at position " ++ toString position
  | file cause => "I/O error: " ++ cause.message
  | document none => "Serialization error:"
  | document (some cause) => "Serialization error: " ++ cause.message

/-- Whether the fault lies in what was asked for, before any scheduling. -/
def isStructural : Error → Bool
  | design _ | request _ | config _ => true
  | _ => false

end Error

/-- What arithmetic or an index can leave. -/
inductive Bound where
  /-- A machine word, or the room there is for ticks and slots. -/
  | word
  /-- A list, left by an index, or the natural numbers, left by a difference. -/
  | range
deriving DecidableEq

/-- Why there is no result. -/
inductive Halt where
  | fault (cause : Error)
  | overflow {bound : Bound}
deriving DecidableEq

/-- A result, a fault of the input, or an overflow. -/
abbrev Outcome (α : Type) := Except Halt α

namespace Outcome

def fail {α : Type} (cause : Error) : Outcome α := .error (.fault cause)

def overflow {α : Type} : Outcome α := .error (@Halt.overflow .word)

/-- An index or a difference is out of range. -/
def outside {α : Type} : Outcome α := .error (@Halt.overflow .range)

/-- A result whose faults are one kind of error. -/
def ofExcept {ε α : Type} (wrap : ε → Error) : Except ε α → Outcome α
  | .ok a => .ok a
  | .error cause => fail (wrap cause)

/-- A value that exists unless arithmetic left its range. -/
def ofOption {α : Type} : Option α → Outcome α
  | some a => .ok a
  | none => overflow

/-- An item that exists unless its index is out of range. -/
def ofIndex {α : Type} : Option α → Outcome α
  | some a => .ok a
  | none => outside

/-- One less than a number that has to be positive. -/
def pred : Nat → Outcome Nat
  | 0 => outside
  | n + 1 => .ok n

end Outcome

end SyndromeSchedule
