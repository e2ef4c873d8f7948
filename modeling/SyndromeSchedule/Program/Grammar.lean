import SyndromeSchedule.Program.Instruction
import SyndromeSchedule.Text.Blank

/-!
Reading program text. A line holds one instruction, with comments after a hash sign; a block of
lines may be repeated. Reading fails softly where something else may still fit, and for good once an
instruction has been read that makes no sense. A repeated block that fails softly is tried as an
instruction, which it never is, so that the fault is found at its first line.
-/

namespace SyndromeSchedule.Grammar

structure Failure where
  /-- Whether nothing else may be tried. -/
  final : Bool
  missed : Expected
  rest : List Char

/-- Blanks within a line. -/
def isSpace (c : Char) : Bool := c = ' ' || c = '\t'

def skipSpaces (text : List Char) : List Char := text.dropWhile isSpace

/-- The text after at least one blank. -/
def spaces? : List Char → Option (List Char)
  | c :: rest => if isSpace c then some (skipSpaces rest) else none
  | [] => none

def newline? : List Char → Option (List Char)
  | '\n' :: rest => some rest
  | '\r' :: '\n' :: rest => some rest
  | _ => none

def isLineEnd (c : Char) : Bool := c = '\n' || c = '\r'

/-- The text without a comment at its start. A comment ends at a line end; with a lone carriage
return in it, it is none. -/
def skipComment : List Char → List Char
  | '#' :: rest =>
      let after := rest.dropWhile fun c => !isLineEnd c
      if after.isEmpty || (newline? after).isSome then after else '#' :: rest
  | text => text

/-- The text after a line that holds at most a comment. -/
def blankLine? (text : List Char) : Option (List Char) :=
  newline? (skipComment (skipSpaces text))

/-- The text after all such lines. -/
def skipBlankLines : Nat → List Char → List Char
  | 0, text => text
  | bound + 1, text =>
      match blankLine? text with
      | some rest => skipBlankLines bound rest
      | none => text

/-- The text after the rest of a line that holds at most a comment. -/
def lineEnd (text : List Char) : Except Failure (List Char) :=
  let rest := skipComment (skipSpaces text)
  match rest, newline? rest with
  | _, some rest => .ok rest
  | [], none => .ok []
  | rest, none => .error ⟨false, .lineEnd, rest⟩

/-- Splits off leading digits, of which there has to be one. -/
def digits? (text : List Char) : Option (List Char × List Char) :=
  match text.takeWhile Char.isDigit with
  | [] => none
  | digits => some (digits, text.dropWhile Char.isDigit)

/-- A counter that fits a word. -/
def counter? (text : List Char) : Option (Nat × List Char) := do
  let (digits, rest) ← digits? text
  let n := Nat.ofDigitChars 10 digits 0
  if n < Word.size then some (n, rest) else none

def isNameChar (c : Char) : Bool := c.isAlphanum || c = '_'

/-- Name of an instruction: a letter, then letters, digits and underscores. -/
def name? : List Char → Option (List Char × List Char)
  | c :: rest =>
      if c.isAlpha then
        some (c :: rest.takeWhile isNameChar, rest.dropWhile isNameChar)
      else none
  | [] => none

def sign : List Char → Bool × List Char
  | '+' :: rest => (false, rest)
  | '-' :: rest => (true, rest)
  | text => (false, text)

/-- Digits of a number before and after its point; one side may be missing. -/
def mantissa? (text : List Char) : Option ((List Char × List Char) × List Char) :=
  match digits? text with
  | some (whole, '.' :: rest) =>
      some ((whole, rest.takeWhile Char.isDigit), rest.dropWhile Char.isDigit)
  | some (whole, rest) => some ((whole, []), rest)
  | none =>
      match text with
      | '.' :: rest => (digits? rest).map fun (fraction, rest) => (([], fraction), rest)
      | _ => none

/-- Exponent of a number, which needs digits once it is marked. -/
def exponent (start : List Char) : List Char → Except Failure (Int × List Char)
  | c :: rest =>
      if c = 'e' || c = 'E' then
        let (negative, digits) := sign rest
        match digits? digits with
        | some (digits, rest) =>
            let size : Int := Nat.ofDigitChars 10 digits 0
            .ok (if negative then -size else size, rest)
        | none => .error ⟨true, .exponent, start⟩
      else .ok (0, c :: rest)
  | [] => .ok (0, [])

/-- Drops a word written in letters of either case. -/
def word? : List Char → List Char → Option (List Char)
  | [], text => some text
  | w :: word, c :: text => if c.toLower = w then word? word text else none
  | _ :: _, [] => none

def number (text : List Char) : Except Failure (Option (Double × List Char)) :=
  let (negative, body) := sign text
  match mantissa? body with
  | some ((whole, fraction), rest) => do
      let (power, rest) ← exponent text rest
      let digits := Nat.ofDigitChars 10 (whole ++ fraction) 0
      return some (Double.ofDecimal negative digits (power - fraction.length), rest)
  | none =>
      match word? ['n', 'a', 'n'] text with
      | some rest => .ok (some (Double.nan, rest))
      | none =>
          match word? ['i', 'n', 'f'] text with
          | some rest => .ok (some (Double.infinity, rest))
          | none => .ok none

def comma? (text : List Char) : Option (List Char) :=
  match skipSpaces text with
  | ',' :: rest => some (skipSpaces rest)
  | _ => none

def moreNumbers : Nat → List Char → Except Failure (List Double × List Char)
  | 0, text => .ok ([], text)
  | bound + 1, text =>
      match comma? text with
      | none => .ok ([], text)
      | some rest => do
          match ← number rest with
          | none => return ([], text)
          | some (x, rest) =>
              let (xs, rest) ← moreNumbers bound rest
              return (x :: xs, rest)

/-- Numbers between commas. -/
def numbers (text : List Char) : Except Failure (List Double × List Char) := do
  match ← number text with
  | none => return ([], text)
  | some (x, rest) =>
      let (xs, rest) ← moreNumbers rest.length rest
      return (x :: xs, rest)

/-- Arguments in parentheses; where they cannot be read there are none. -/
def arguments (text : List Char) : Except Failure (List Double × List Char) :=
  match text with
  | '(' :: inner => do
      let (xs, rest) ← numbers (skipSpaces inner)
      match skipSpaces rest with
      | ')' :: rest => return (xs, rest)
      | _ => return ([], text)
  | _ => .ok ([], text)

inductive RawTarget where
  | outcome (offset : Int)
  | product (factors : List (Pauli × Nat))
  | qubit (index : Nat)

/-- An outcome, counted back from the latest. -/
def outcome? : List Char → Option (Int × List Char)
  | 'r' :: 'e' :: 'c' :: '[' :: text => do
      let (negative, body) := match text with
        | '-' :: body => (true, body)
        | body => (false, body)
      let (digits, rest) ← digits? body
      let size : Int := Nat.ofDigitChars 10 digits 0
      let offset := if negative then -size else size
      match rest with
      | ']' :: rest => if Word.isInt64 offset then some (offset, rest) else none
      | _ => none
  | _ => none

def factor? : List Char → Option ((Pauli × Nat) × List Char)
  | 'X' :: text => (counter? text).map fun (q, rest) => ((.X, q), rest)
  | 'Y' :: text => (counter? text).map fun (q, rest) => ((.Y, q), rest)
  | 'Z' :: text => (counter? text).map fun (q, rest) => ((.Z, q), rest)
  | _ => none

def moreFactors : Nat → List Char → List (Pauli × Nat) × List Char
  | 0, text => ([], text)
  | bound + 1, text =>
      match text with
      | '*' :: rest =>
          match factor? rest with
          | none => ([], text)
          | some (f, rest) =>
              let (fs, rest) := moreFactors bound rest
              (f :: fs, rest)
      | _ => ([], text)

def target? (text : List Char) : Option (RawTarget × List Char) :=
  match outcome? text with
  | some (offset, rest) => some (.outcome offset, rest)
  | none =>
      match factor? text with
      | some (f, rest) =>
          let (fs, rest) := moreFactors rest.length rest
          some (.product (f :: fs), rest)
      | none => (counter? text).map fun (q, rest) => (.qubit q, rest)

def targets : Nat → List Char → List RawTarget × List Char
  | 0, text => ([], text)
  | bound + 1, text =>
      match (spaces? text).bind target? with
      | none => ([], text)
      | some (t, rest) =>
          let (ts, rest) := targets bound rest
          (t :: ts, rest)

def offsets? (ts : List RawTarget) : Option (List Int) :=
  ts.mapM fun
    | .outcome offset => if offset < 0 then some offset else none
    | _ => none

def qubits? (ts : List RawTarget) : Option (List Nat) :=
  ts.mapM fun
    | .qubit q => some q
    | _ => none

/-- Targets of a measurement: products for a product gate, qubits otherwise. -/
def measured? (g : Gate) (ts : List RawTarget) : Option (List Target) :=
  ts.mapM fun
    | .product factors => if g = .MPP then some (.product factors) else none
    | .qubit q => if g = .MPP then none else some (.qubit q)
    | .outcome _ => none

def gateInstruction? (g : Gate) (xs : List Double) (ts : List RawTarget) : Option Instruction :=
  if g.isMeasurement then (measured? g ts).map (.measure g xs.head?)
  else (qubits? ts).map (.gate g)

def noiseInstruction? (c : Channel) (xs : List Double) (ts : List RawTarget) :
    Option Instruction :=
  if xs.length = c.parameterCount then (qubits? ts).map (.noise c xs) else none

/-- The instruction of a name with arguments and targets, if it makes sense. -/
def meaning? (name : String) (xs : List Double) (ts : List RawTarget) : Option Instruction :=
  if name = "TICK" then (if ts.isEmpty then some .tick else none)
  else if name = "DETECTOR" then (offsets? ts).map .detector
  else if name = "OBSERVABLE_INCLUDE" then
    match xs with
    | [x] => if x.isNonnegative then (offsets? ts).map (.observable x.toWord) else none
    | _ => none
  else if name = "QUBIT_COORDS" then
    match ts with
    | [.qubit q] => some (.coords q (xs.map Double.toInt32))
    | _ => none
  else
    match Gate.ofName? name with
    | some g => gateInstruction? g xs ts
    | none => (Channel.ofName? name).bind fun c => noiseInstruction? c xs ts

def instruction (text : List Char) : Except Failure (Instruction × List Char) :=
  match name? text with
  | none => .error ⟨false, .name, text⟩
  | some (name, rest) => do
      let (xs, rest) ← arguments rest
      let (ts, rest) := targets rest.length rest
      match meaning? (String.ofList name) xs ts with
      | some i => return (i, rest)
      | none => .error ⟨true, .meaning, text⟩

/-- Start of a repeated block: how often, and the text of the block. -/
def blockStart? (text : List Char) : Option (Nat × List Char) :=
  match text with
  | 'R' :: 'E' :: 'P' :: 'E' :: 'A' :: 'T' :: rest => do
      let (count, rest) ← (spaces? rest).bind counter?
      match skipSpaces rest with
      | '\x7b' :: rest =>
          match lineEnd rest with
          | .ok rest => some (count, rest)
          | .error _ => none
      | _ => none
  | _ => none

/-- Instructions up to the end of the text or a closing brace. -/
def block : Nat → List Char → Except Failure (List Instruction × List Char)
  | 0, text => .error ⟨false, .name, text⟩
  | bound + 1, text =>
      let text := skipSpaces (skipBlankLines text.length text)
      match text with
      | [] => .ok ([], [])
      | '\x7d' :: _ => .ok ([], text)
      | _ => do
          let (i, rest) ←
            match blockStart? text with
            | none => instruction text
            | some (count, inner) =>
                match block bound inner with
                | .ok (body, '\x7d' :: rest) => .ok (.loop count body, rest)
                | .ok _ => instruction text
                | .error failure =>
                    if failure.final then .error failure else instruction text
          let rest ← lineEnd rest
          let (is, rest) ← block bound rest
          return (i :: is, rest)

def byteLength (text : List Char) : Nat :=
  text.foldr (fun c n => c.utf8Size + n) 0

end SyndromeSchedule.Grammar

namespace SyndromeSchedule

open Grammar

/-- Reads a program. Faults are placed by the number of bytes before them. -/
def Program.ofText (text : String) : Except Error Program :=
  let chars := text.toList
  let position (rest : List Char) : Nat := byteLength chars - byteLength rest
  match block (chars.length + 1) chars with
  | .ok (instructions, rest) =>
      if (Text.trim rest).isEmpty then .ok ⟨instructions⟩
      else .error (.parse (.unexpected (Text.firstLine rest)) (position rest))
  | .error failure =>
      .error (.parse (.unparsable (Text.firstLine failure.rest) failure.missed)
        (position failure.rest))

end SyndromeSchedule
