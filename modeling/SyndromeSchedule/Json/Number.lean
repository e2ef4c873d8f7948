import SyndromeSchedule.Json.Basic
import SyndromeSchedule.Number.Word

/-!
Numbers in documents. Integers are numerals without fraction and exponent that fit a 64-bit word.
Doubles are read by one product or quotient of the leading digits with a power of ten, which may
miss the nearest double by an ulp, and are written with the fewest digits, in scientific notation
outside the range from `10 ^ (-5)` to `10 ^ 16`.
-/

namespace SyndromeSchedule.Numeral

def wholeValue (n : Numeral) : Nat :=
  Nat.ofDigitChars 10 n.whole 0

/-- The integer written, if it is one and fits a word. Zero has no sign. -/
def toInt? (n : Numeral) : Option Int :=
  match n.fraction, n.exponent with
  | none, none =>
      let value := n.wholeValue
      if n.negative then
        if value ≠ 0 && value ≤ Word.half then some (-(value : Int)) else none
      else if value < Word.size then some value
      else none
  | _, _ => none

/-- Appends digits to a significand as long as a word holds it, and counts those that were taken. -/
def absorb : Nat → List Char → Nat × Nat
  | significand, [] => (significand, 0)
  | significand, c :: rest =>
      let next := significand * 10 + (c.toNat - '0'.toNat)
      if next < Word.size then
        let (result, taken) := absorb next rest
        (result, taken + 1)
      else (significand, 0)

/-- The number `x * 10 ^ exponent` in steps of at most `10 ^ 308`. A word vanishes after two
divisions by that, so three steps are enough. -/
def scaleDown : Nat → Double → Nat → Double
  | 0, _, _ => Double.zero
  | steps + 1, x, exponent =>
      if x.isZero then x
      else if exponent ≤ 308 then x.divPositive (Double.ofNat (Nat.pow 10 exponent))
      else scaleDown steps (x.divPositive (Double.ofNat (Nat.pow 10 308))) (exponent - 308)

/-- A significand times a power of ten, unless it is out of range. -/
def scale? (significand : Nat) (exponent : Int) : Option Double :=
  let x := Double.ofNat significand
  if x.isZero then some x
  else if 308 < exponent then none
  else if 0 ≤ exponent then
    let y := x.mulPositive (Double.ofNat (Nat.pow 10 exponent.toNat))
    if y.isFinite then some y else none
  else some (scaleDown 3 x (-exponent).toNat)

def magnitude? (n : Numeral) : Option Double :=
  let (whole, taken) := absorb 0 n.whole
  let dropped : Int := n.whole.length - taken
  let (significand, places) := absorb whole (n.fraction.getD [])
  let start := dropped - places
  match n.exponent with
  | none => scale? significand start
  | some (sign, digits) =>
      let exponent := Nat.ofDigitChars 10 digits 0
      if 2147483647 < exponent then
        if significand ≠ 0 && sign ≠ .minus then none else some Double.zero
      else
        scale? significand (if sign = .minus then start - exponent else start + exponent)

/-- The double written, unless it is out of range. -/
def toDouble? (n : Numeral) : Option Double :=
  n.magnitude?.map fun x => if n.negative then x.neg else x

def ofInt (z : Int) : Numeral :=
  ⟨z < 0, Nat.toDigits 10 z.natAbs, none, none⟩

/-- A decimal in fixed notation with at least one digit after the point. -/
def fixed (negative : Bool) (d : Decimal) : Numeral :=
  let digits := Nat.toDigits 10 d.digits
  if 0 ≤ d.exponent then
    ⟨negative, digits ++ List.replicate d.exponent.toNat '0', some ['0'], none⟩
  else
    let places := (-d.exponent).toNat
    if places < digits.length then
      ⟨negative, digits.take (digits.length - places),
        some (digits.drop (digits.length - places)), none⟩
    else
      ⟨negative, ['0'], some (List.replicate (places - digits.length) '0' ++ digits), none⟩

/-- A decimal with one digit before the point and the given power of ten. -/
def scientific (negative : Bool) (d : Decimal) (power : Int) : Numeral :=
  let digits := Nat.toDigits 10 d.digits
  let fraction := digits.drop 1
  ⟨negative, digits.take 1, if fraction.isEmpty then none else some fraction,
    some (if power < 0 then .minus else .plus, Nat.toDigits 10 power.natAbs)⟩

def ofDouble (x : Double) : Numeral :=
  if x.isZero then ⟨x.negative, ['0'], some ['0'], none⟩
  else
    let d := x.shortest .even
    let power := (Nat.toDigits 10 d.digits).length + d.exponent - 1
    if -5 ≤ power && power ≤ 15 then fixed x.negative d
    else scientific x.negative d power

end SyndromeSchedule.Numeral

namespace SyndromeSchedule.Json

def ofInt (z : Int) : Json := .number (Numeral.ofInt z)

def ofNat (n : Nat) : Json := ofInt n

/-- A double as a document holds it: there is no number for infinity. -/
def ofDouble (x : Double) : Json :=
  if x.isFinite then .number (Numeral.ofDouble x) else .null

end SyndromeSchedule.Json
