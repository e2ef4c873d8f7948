import SyndromeSchedule.Json.Basic

/-!
From text to JSON. Reading never fails: text that is not JSON gives a value that is broken from the
first malformed character on. The recursion is on a bound for the number of characters left.
-/

namespace SyndromeSchedule.Json

def isSpace (c : Char) : Bool :=
  c = ' ' || c = '\n' || c = '\t' || c = '\r'

def skipSpace (text : List Char) : List Char :=
  text.dropWhile isSpace

/-- A character of a string, or half of a surrogate pair given by an escape. -/
inductive Piece where
  | char (c : Char)
  | half (code : Nat)

def hexDigit? (c : Char) : Option Nat :=
  if c.isDigit then some (c.toNat - '0'.toNat)
  else if 'a' ≤ c && c ≤ 'f' then some (c.toNat - 'a'.toNat + 10)
  else if 'A' ≤ c && c ≤ 'F' then some (c.toNat - 'A'.toNat + 10)
  else none

def hex4? (a b c d : Char) : Option Nat := do
  let a ← hexDigit? a
  let b ← hexDigit? b
  let c ← hexDigit? c
  let d ← hexDigit? d
  return ((a * 16 + b) * 16 + c) * 16 + d

/-- Reads what a backslash introduces. -/
def escape? : List Char → Option (Piece × List Char)
  | 'u' :: a :: b :: c :: d :: rest => do
      let code ← hex4? a b c d
      if 0xd800 ≤ code && code ≤ 0xdfff then return (.half code, rest)
      else return (.char (Char.ofNat code), rest)
  | c :: rest =>
      match c with
      | '"' => some (.char '"', rest)
      | '\\' => some (.char '\\', rest)
      | '/' => some (.char '/', rest)
      | 'b' => some (.char '\x08', rest)
      | 'f' => some (.char '\x0c', rest)
      | 'n' => some (.char '\n', rest)
      | 'r' => some (.char '\r', rest)
      | 't' => some (.char '\t', rest)
      | _ => none
  | [] => none

def pieces? : Nat → List Char → Option (List Piece × List Char)
  | 0, _ => none
  | _, [] => none
  | _ + 1, '"' :: rest => some ([], rest)
  | bound + 1, '\\' :: rest => do
      let (piece, rest) ← escape? rest
      let (more, rest) ← pieces? bound rest
      return (piece :: more, rest)
  | bound + 1, c :: rest =>
      if c.toNat < 0x20 then none
      else do
        let (more, rest) ← pieces? bound rest
        return (.char c :: more, rest)

/-- The characters of a string, unless half a surrogate pair stands alone. -/
def joinPieces : List Piece → Option (List Char)
  | [] => some []
  | .char c :: rest => (joinPieces rest).map (c :: ·)
  | .half high :: .half low :: rest =>
      if high < 0xdc00 && 0xdc00 ≤ low then
        (joinPieces rest).map
          (Char.ofNat (0x10000 + (high - 0xd800) * 0x400 + (low - 0xdc00)) :: ·)
      else none
  | .half _ :: _ => none

/-- Splits off leading digits, of which there has to be one. -/
def digits? (text : List Char) : Option (List Char × List Char) :=
  match text.takeWhile Char.isDigit with
  | [] => none
  | digits => some (digits, text.dropWhile Char.isDigit)

/-- Digits before the point; a zero stands alone. -/
def whole? (text : List Char) : Option (List Char × List Char) :=
  match digits? text with
  | some ('0' :: _ :: _, _) => none
  | result => result

/-- Digits after a point, if one follows. -/
def fraction? : List Char → Option (Option (List Char) × List Char)
  | '.' :: rest => (digits? rest).map fun (digits, rest) => (some digits, rest)
  | text => some (none, text)

/-- Sign and digits after the mark of an exponent. -/
def exponentTail? : List Char → Option ((ExponentSign × List Char) × List Char)
  | '+' :: rest => (digits? rest).map fun (digits, rest) => ((.plus, digits), rest)
  | '-' :: rest => (digits? rest).map fun (digits, rest) => ((.minus, digits), rest)
  | text => (digits? text).map fun (digits, rest) => ((.absent, digits), rest)

/-- An exponent, if one follows. -/
def exponent? : List Char → Option (Option (ExponentSign × List Char) × List Char)
  | 'e' :: rest => (exponentTail? rest).map fun (tail, rest) => (some tail, rest)
  | 'E' :: rest => (exponentTail? rest).map fun (tail, rest) => (some tail, rest)
  | text => some (none, text)

/-- A number without its sign. -/
def unsigned? (negative : Bool) (text : List Char) : Option (Numeral × List Char) := do
  let (whole, text) ← whole? text
  let (fraction, text) ← fraction? text
  let (exponent, text) ← exponent? text
  return (⟨negative, whole, fraction, exponent⟩, text)

def numeral? : List Char → Option (Numeral × List Char)
  | '-' :: rest => unsigned? true rest
  | text => unsigned? false text

/-- Reads a string after its opening quote; no text if it cannot be used. -/
def string? (text : List Char) : Option (Option String × List Char) :=
  (pieces? (text.length + 1) text).map fun (pieces, rest) =>
    ((joinPieces pieces).map String.ofList, rest)

/-- Fields up to the first name that cannot be used. -/
def usable : List (Option String × Json) → List (String × Json)
  | (some name, value) :: rest => (name, value) :: usable rest
  | _ => []

/-- An array whose items have been read, with the text after it if it closes. -/
def closeArray : List Json × Option (List Char) → Json × Option (List Char)
  | (items, none) => (.array items .broken, none)
  | (items, some rest) => (.array items .closed, some rest)

/-- An object whose fields have been read, with the text after it if it closes. -/
def closeObject : List (Option String × Json) × Option (List Char) →
    Json × Option (List Char)
  | (fields, none) => (.object (usable fields) .broken, none)
  | (fields, some rest) =>
      (.object (usable fields) (if fields.all (·.1.isSome) then .closed else .unreadable),
        some rest)

mutual
/-- Reads one value; the text after it is missing if the value is malformed. -/
def readValue : Nat → List Char → Json × Option (List Char)
  | 0, _ => (.broken, none)
  | bound + 1, text =>
      match skipSpace text with
      | 'n' :: 'u' :: 'l' :: 'l' :: rest => (.null, some rest)
      | 't' :: 'r' :: 'u' :: 'e' :: rest => (.bool true, some rest)
      | 'f' :: 'a' :: 'l' :: 's' :: 'e' :: rest => (.bool false, some rest)
      | '"' :: rest =>
          match string? rest with
          | none => (.broken, none)
          | some (none, rest) => (.unreadable, some rest)
          | some (some value, rest) => (.string value, some rest)
      | '[' :: rest =>
          match skipSpace rest with
          | ']' :: rest => (.array [] .closed, some rest)
          | rest => closeArray (readItems bound rest)
      | '\x7b' :: rest =>
          match skipSpace rest with
          | '\x7d' :: rest => (.object [] .closed, some rest)
          | rest => closeObject (readFields bound rest)
      | text =>
          match numeral? text with
          | none => (.broken, none)
          | some (value, rest) => (.number value, some rest)

def readItems : Nat → List Char → List Json × Option (List Char)
  | 0, _ => ([], none)
  | bound + 1, text =>
      match readValue bound text with
      | (.broken, _) => ([], none)
      | (item, none) => ([item], none)
      | (item, some rest) =>
          match skipSpace rest with
          | ']' :: rest => ([item], some rest)
          | ',' :: rest =>
              let (items, rest) := readItems bound rest
              (item :: items, rest)
          | _ => ([item], none)

def readFields : Nat → List Char → List (Option String × Json) × Option (List Char)
  | 0, _ => ([], none)
  | bound + 1, text =>
      match skipSpace text with
      | '"' :: rest =>
          match string? rest with
          | none => ([], none)
          | some (name, rest) =>
              match skipSpace rest with
              | ':' :: rest =>
                  match readValue bound rest with
                  | (.broken, _) => ([], none)
                  | (value, none) => ([(name, value)], none)
                  | (value, some rest) =>
                      match skipSpace rest with
                      | '\x7d' :: rest => ([(name, value)], some rest)
                      | ',' :: rest =>
                          let (fields, rest) := readFields bound rest
                          ((name, value) :: fields, rest)
                      | _ => ([(name, value)], none)
              | _ => ([], none)
      | _ => ([], none)
end

def read (text : String) : Document :=
  let chars := text.toList
  match readValue (chars.length + 1) chars with
  | (value, none) => ⟨value, false⟩
  | (value, some rest) => ⟨value, (skipSpace rest).isEmpty⟩

end SyndromeSchedule.Json
