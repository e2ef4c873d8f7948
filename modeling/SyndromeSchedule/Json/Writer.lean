import SyndromeSchedule.Json.Basic

/-!
From JSON to text, on one line or with one item a line.
-/

namespace SyndromeSchedule

def Numeral.text (n : Numeral) : List Char :=
  let sign := if n.negative then ['-'] else []
  let fraction := match n.fraction with
    | none => []
    | some digits => '.' :: digits
  let exponent := match n.exponent with
    | none => []
    | some (.absent, digits) => 'e' :: digits
    | some (.plus, digits) => 'e' :: '+' :: digits
    | some (.minus, digits) => 'e' :: '-' :: digits
  sign ++ n.whole ++ fraction ++ exponent

namespace Json

/-- How one character stands in a JSON string. -/
def escapeChar (c : Char) : List Char :=
  if c = '"' then ['\\', '"']
  else if c = '\\' then ['\\', '\\']
  else if c = '\n' then ['\\', 'n']
  else if c = '\r' then ['\\', 'r']
  else if c = '\t' then ['\\', 't']
  else if c = '\x08' then ['\\', 'b']
  else if c = '\x0c' then ['\\', 'f']
  else if c.toNat < 0x20 then
    ['\\', 'u', '0', '0', Nat.digitChar (c.toNat / 16), Nat.digitChar (c.toNat % 16)]
  else [c]

def stringText (text : String) : List Char :=
  '"' :: text.toList.flatMap escapeChar ++ ['"']

def nullText : List Char := ['n', 'u', 'l', 'l']

def boolText : Bool → List Char
  | true => ['t', 'r', 'u', 'e']
  | false => ['f', 'a', 'l', 's', 'e']

mutual
/-- Text without white space. What could not be read is written as null. -/
def compact : Json → List Char
  | .null => nullText
  | .bool value => boolText value
  | .number value => value.text
  | .string value => stringText value
  | .array items _ => '[' :: compactItems items
  | .object fields _ => '\x7b' :: compactFields fields
  | .unreadable => nullText
  | .broken => nullText
termination_by structural value => value

def compactItems : List Json → List Char
  | [] => [']']
  | [item] => compact item ++ [']']
  | item :: next :: rest => compact item ++ ',' :: compactItems (next :: rest)
termination_by structural items => items

def compactFields : List (String × Json) → List Char
  | [] => ['\x7d']
  | [(name, value)] => stringText name ++ ':' :: compact value ++ ['\x7d']
  | (name, value) :: next :: rest =>
      stringText name ++ ':' :: compact value ++ ',' :: compactFields (next :: rest)
termination_by structural fields => fields
end

/-- Start of a line at a nesting depth. -/
def indent (depth : Nat) : List Char :=
  '\n' :: List.replicate (2 * depth) ' '

mutual
/-- Text with one item or field a line, indented by two blanks. -/
def pretty : Nat → Json → List Char
  | _, .null => nullText
  | _, .bool value => boolText value
  | _, .number value => value.text
  | _, .string value => stringText value
  | _, .array [] _ => ['[', ']']
  | depth, .array (item :: rest) _ => '[' :: prettyItems depth (item :: rest)
  | _, .object [] _ => ['\x7b', '\x7d']
  | depth, .object (field :: rest) _ => '\x7b' :: prettyFields depth (field :: rest)
  | _, .unreadable => nullText
  | _, .broken => nullText
termination_by structural _ value => value

/-- Items of an array at a depth, with the closing bracket. -/
def prettyItems (depth : Nat) : List Json → List Char
  | [] => [']']
  | [item] => indent (depth + 1) ++ pretty (depth + 1) item ++ indent depth ++ [']']
  | item :: next :: rest =>
      indent (depth + 1) ++ pretty (depth + 1) item ++ ',' :: prettyItems depth (next :: rest)
termination_by structural items => items

/-- Fields of an object at a depth, with the closing brace. -/
def prettyFields (depth : Nat) : List (String × Json) → List Char
  | [] => ['\x7d']
  | [(name, value)] =>
      indent (depth + 1) ++ stringText name ++ ':' :: ' ' :: pretty (depth + 1) value ++
        indent depth ++ ['\x7d']
  | (name, value) :: next :: rest =>
      indent (depth + 1) ++ stringText name ++ ':' :: ' ' :: pretty (depth + 1) value ++
        ',' :: prettyFields depth (next :: rest)
termination_by structural fields => fields
end

def line (value : Json) : String :=
  String.ofList value.compact

def page (value : Json) : String :=
  String.ofList (value.pretty 0)

end Json

end SyndromeSchedule
