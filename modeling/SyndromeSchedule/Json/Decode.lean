import SyndromeSchedule.Error
import SyndromeSchedule.Json.Number
import SyndromeSchedule.Json.Reader

/-!
From JSON to values. Decoders follow the order of the text and stop at the first fault, which is
either a shape that does not fit or a value that its own constructor rejects. Fields nobody asks for
are skipped, but their text has to be JSON.
-/

namespace SyndromeSchedule

/-- Why a document gives no value. -/
inductive Misread where
  | shape
  | rejected (cause : DesignError)
deriving DecidableEq

abbrev Reading (α : Type) := Except Misread α

def Misread.toError : Misread → Error
  | .shape => .document none
  | .rejected cause => .document (some cause)

namespace Reading

def misfit {α : Type} : Reading α := .error .shape

/-- Fails unless the condition holds. -/
def require (condition : Bool) : Reading Unit :=
  if condition then .ok () else misfit

def ofOption {α : Type} : Option α → Reading α
  | some a => .ok a
  | none => misfit

/-- A value whose constructor may reject it. -/
def ofExcept {ε α : Type} (wrap : ε → DesignError) : Except ε α → Reading α
  | .ok a => .ok a
  | .error cause => .error (.rejected (wrap cause))

def toOutcome {α : Type} : Reading α → Outcome α
  | .ok a => .ok a
  | .error cause => .fail cause.toError

end Reading

abbrev Decoder (α : Type) := Json → Reading α

namespace Decoder

open Reading

def integer (low high : Int) : Decoder Int
  | .number n =>
      match n.toInt? with
      | some z => if low ≤ z && z ≤ high then .ok z else misfit
      | none => misfit
  | _ => misfit

def int32 : Decoder Int := integer (-2147483648) 2147483647

def int64 : Decoder Int := integer (-9223372036854775808) 9223372036854775807

/-- Counters of 64 bits. -/
def word : Decoder Nat := fun j => Int.toNat <$> integer 0 18446744073709551615 j

def byte : Decoder Nat := fun j => Int.toNat <$> integer 0 255 j

def double : Decoder Double
  | .number n => ofOption n.toDouble?
  | _ => misfit

def string : Decoder String
  | .string s => .ok s
  | _ => misfit

def bool : Decoder Bool
  | .bool b => .ok b
  | _ => misfit

def option {α : Type} (decode : Decoder α) : Decoder (Option α)
  | .null => .ok none
  | j => some <$> decode j

def list {α : Type} (decode : Decoder α) : Decoder (List α)
  | .array items ending => do
      let values ← items.mapM decode
      require (ending = .closed)
      return values
  | _ => misfit

def pair {α β : Type} (first : Decoder α) (second : Decoder β) : Decoder (α × β)
  | .array (a :: b :: rest) ending => do
      let x ← first a
      let y ← second b
      require (rest.isEmpty && ending = .closed)
      return (x, y)
  | .array [a] _ => do
      let _ ← first a
      misfit
  | _ => misfit

/-- One of some names, given as a string or as the name of a field that holds nothing. -/
def name {α : Type} (nothing : Json → Bool) (names : List (String × α)) : Decoder α
  | .string s => ofOption (names.lookup s)
  | .object [(s, value)] .closed =>
      if nothing value then ofOption (names.lookup s) else misfit
  | _ => misfit

/-- Null stands for nothing. -/
def isNull : Json → Bool
  | .null => true
  | _ => false

/-- Null and the empty object stand for nothing. -/
def isNullOrEmpty : Json → Bool
  | .null => true
  | .object [] .closed => true
  | _ => false

end Decoder

/-- What a missing field means. -/
inductive Presence where
  /-- It is an error. -/
  | required
  /-- It has a default, unless the record is written as an array. -/
  | optional
  /-- It has a default. -/
  | defaulted
deriving DecidableEq

/-- A field of a record under construction. -/
structure Field (σ : Type) where
  name : String
  presence : Presence
  read : σ → Decoder σ

namespace Field

variable {σ α : Type}

/-- A field that is set from a decoded value. -/
def of (name : String) (presence : Presence) (decode : Decoder α) (set : σ → α → σ) :
    Field σ :=
  ⟨name, presence, fun s j => set s <$> decode j⟩

end Field

namespace Decoder

open Reading

variable {σ : Type}

/-- Reads the fields of an object in the order of the text. A known field may occur once. -/
def named (fields : List (Field σ)) :
    List String → σ → List (String × Json) → Reading (σ × List String)
  | seen, s, [] => .ok (s, seen)
  | seen, s, (key, value) :: rest =>
      match fields.find? (·.name = key) with
      | none => do
          require value.isWhole
          named fields seen s rest
      | some field => do
          require (key ∉ seen)
          let s ← field.read s value
          named fields (key :: seen) s rest

/-- Reads the items of an array as fields in the order of their declaration. -/
def listed : List (Field σ) → σ → List Json → Reading σ
  | fields, s, [] => do
      require (fields.all (·.presence = .defaulted))
      return s
  | [], _, _ :: _ => misfit
  | field :: fields, s, value :: rest => do
      let s ← field.read s value
      listed fields s rest

/-- Records, written as objects only. -/
def object (fields : List (Field σ)) (start : σ) : Decoder σ
  | .object entries ending => do
      let (s, seen) ← named fields [] start entries
      require (ending = .closed)
      require (fields.all fun f => f.presence ≠ .required || f.name ∈ seen)
      return s
  | _ => misfit

/-- Records, written as objects or as arrays. Fields that are missing keep their value in
`start`. -/
def record (fields : List (Field σ)) (start : σ) : Decoder σ
  | .array items ending => do
      let s ← listed fields start items
      require (ending = .closed)
      return s
  | j => object fields start j

end Decoder

namespace Json

mutual
/-- Whether every part of a value can be used. -/
def isReadable : Json → Bool
  | .null | .bool _ | .string _ => true
  | .number n => n.toInt?.isSome || n.toDouble?.isSome
  | .array items ending => areReadable items && ending = .closed
  | .object fields ending => fieldsReadable fields && ending = .closed
  | .unreadable | .broken => false
termination_by structural value => value

def areReadable : List Json → Bool
  | [] => true
  | item :: rest => isReadable item && areReadable rest
termination_by structural items => items

def fieldsReadable : List (String × Json) → Bool
  | [] => true
  | (_, value) :: rest => isReadable value && fieldsReadable rest
termination_by structural fields => fields
end

/-- Nesting of arrays and objects that a document may have. -/
def maxDepth : Nat := 127

end Json

def Decoder.run {α : Type} (decode : Decoder α) (text : String) : Reading α := do
  let document := Json.read text
  let value ← decode (document.value.limit Json.maxDepth)
  Reading.require document.ended
  return value

end SyndromeSchedule
