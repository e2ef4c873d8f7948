import SyndromeSchedule.Number.Shortest

/-!
Doubles in program text and messages: shortest digits in positional notation, whatever the size, and
without a decimal point when there is no fraction.
-/

namespace SyndromeSchedule

/-- Digits with the decimal point `places` digits from the right. -/
def pointed (digits : List Char) (places : Nat) : List Char :=
  if places < digits.length then
    digits.take (digits.length - places) ++ '.' :: digits.drop (digits.length - places)
  else
    '0' :: '.' :: List.replicate (places - digits.length) '0' ++ digits

/-- A decimal without exponent. -/
def Decimal.positional (d : Decimal) : List Char :=
  let digits := Nat.toDigits 10 d.digits
  if 0 ≤ d.exponent then digits ++ List.replicate d.exponent.toNat '0'
  else pointed digits (-d.exponent).toNat

/-- A double as programs and messages show it. -/
def Double.text (x : Double) : String :=
  if x.isNaN then "NaN"
  else
    let body :=
      if x.isZero then ['0']
      else if x.isFinite then (x.shortest .up).positional
      else ['i', 'n', 'f']
    String.ofList (if x.negative then '-' :: body else body)

end SyndromeSchedule
