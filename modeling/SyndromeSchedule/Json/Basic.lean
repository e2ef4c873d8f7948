import SyndromeSchedule.Number.Positional

/-!
JSON documents as far as they can be read. A value remembers where its text stops being JSON, so
that a reader meets the faults of a document in the order of its text. Numbers keep the digits they
are written with, and objects keep every field in order, repeated names included.
-/

namespace SyndromeSchedule

/-- Sign in front of an exponent. -/
inductive ExponentSign where
  | absent
  | plus
  | minus
deriving DecidableEq, Repr

/-- A number as written: sign, digits before and after the point, exponent. -/
structure Numeral where
  negative : Bool
  whole : List Char
  fraction : Option (List Char)
  exponent : Option (ExponentSign × List Char)
deriving DecidableEq, Repr

/-- How the text of an array or object goes on after the parts listed. -/
inductive Ending where
  | closed
  /-- A field name follows that is no text, such as half a surrogate pair. -/
  | unreadable
  /-- It is malformed from here on. -/
  | broken
deriving DecidableEq, Repr

/-- A JSON value. Whatever is `unreadable` may be skipped but not used. -/
inductive Json where
  | null
  | bool (value : Bool)
  | number (value : Numeral)
  | string (value : String)
  | array (items : List Json) (ending : Ending)
  | object (fields : List (String × Json)) (ending : Ending)
  | unreadable
  | broken

namespace Json

def list (items : List Json) : Json := .array items .closed

def record (fields : List (String × Json)) : Json := .object fields .closed

/-- Whether the text of the value is well formed. A malformed part makes every value around it
malformed. -/
def isWhole : Json → Bool
  | .broken | .array _ .broken | .object _ .broken => false
  | _ => true

mutual
/-- The value with whatever lies in more than `depth` arrays and objects made unreadable. -/
def limit : Nat → Json → Json
  | 0, .array _ _ => .unreadable
  | 0, .object _ _ => .unreadable
  | depth + 1, .array items ending => .array (limitItems depth items) ending
  | depth + 1, .object fields ending => .object (limitFields depth fields) ending
  | _, .null => .null
  | _, .bool value => .bool value
  | _, .number value => .number value
  | _, .string value => .string value
  | _, .unreadable => .unreadable
  | _, .broken => .broken
termination_by structural _ value => value

def limitItems (depth : Nat) : List Json → List Json
  | [] => []
  | item :: rest => limit depth item :: limitItems depth rest
termination_by structural items => items

def limitFields (depth : Nat) : List (String × Json) → List (String × Json)
  | [] => []
  | (name, value) :: rest => (name, limit depth value) :: limitFields depth rest
termination_by structural fields => fields
end

end Json

/-- A text read as JSON: its value, and whether nothing but white space follows it. -/
structure Document where
  value : Json
  ended : Bool

end SyndromeSchedule
