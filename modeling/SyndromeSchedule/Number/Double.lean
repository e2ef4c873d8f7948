/-!
Double-precision numbers as bit patterns. The magnitude of a double is its 63 low bits read as a
number: exponent field times `2 ^ 52` plus fraction. On these patterns numeric order is order of
magnitudes, and rounding is exact arithmetic in `Nat`, so every operation below reduces in the
kernel.

Only what schedules and programs need is here: rounding of a ratio, addition of weights, products
and quotients of positive numbers, truncation.
-/

namespace SyndromeSchedule

/-- A double: its sign and the rest of its bits. -/
structure Double where
  negative : Bool
  magnitude : Fin 9223372036854775808
deriving DecidableEq, Repr, Inhabited

namespace Double

/-- The hidden bit, `2 ^ 52`. -/
def hidden : Nat := 4503599627370496

/-- Magnitude of an infinity; patterns above it are not numbers. -/
def infinite : Nat := 2047 * hidden

/-- Magnitudes are capped at infinity. -/
def ofMagnitude (negative : Bool) (magnitude : Nat) : Double :=
  ⟨negative, min magnitude infinite, by
    have : infinite = 9218868437227405312 := rfl
    omega⟩

def zero : Double := ⟨false, 0⟩

def one : Double := ofMagnitude false (1023 * hidden)

def infinity : Double := ofMagnitude false infinite

/-- The quiet pattern that stands for every result that is not a number. -/
def nan : Double := ⟨false, 9221120237041090560⟩

def isNaN (x : Double) : Bool := infinite < x.magnitude.val

def isFinite (x : Double) : Bool := x.magnitude.val < infinite

def isZero (x : Double) : Bool := x.magnitude.val = 0

/-- Integer significand of a finite double. -/
def significand (x : Double) : Nat :=
  if x.magnitude.val < hidden then x.magnitude.val
  else x.magnitude.val % hidden + hidden

/-- Exponent of the significand's unit, counted from `2 ^ (-1075)`. -/
def scale (x : Double) : Nat :=
  max (x.magnitude.val / hidden) 1

/-- Absolute value of a finite double as numerator and denominator. -/
def ratio (x : Double) : Nat × Nat :=
  (x.significand * Nat.pow 2 (x.scale - 1075), Nat.pow 2 (1075 - x.scale))

/-- Nearest integer to `num / den`, a half going to the even neighbour. -/
def roundDiv (num den : Nat) : Nat :=
  let down := num / den
  let twice := 2 * (num % den)
  if twice < den then down
  else if den < twice then down + 1
  else down + down % 2

/-- Scale of the double next to `num / den`. The binary logarithm of the ratio is that of the
numerator less that of the denominator, or one below. -/
def scaleOf (num den : Nat) : Nat :=
  let guess := num.log2 + 1023 - den.log2
  let atLeast :=
    if 1023 ≤ guess then den * Nat.pow 2 (guess - 1023) ≤ num
    else den ≤ num * Nat.pow 2 (1023 - guess)
  max (if atLeast then guess else guess - 1) 1

/-- The double nearest to `num / den`, ties to even, overflow to infinity. A significand that rounds
up to the next power of two carries into the exponent field by itself. -/
def ofRatio (negative : Bool) (num den : Nat) : Double :=
  if num = 0 then ⟨negative, 0⟩
  else
    let s := scaleOf num den
    let m := roundDiv (num * Nat.pow 2 (1075 - s)) (den * Nat.pow 2 (s - 1075))
    ofMagnitude negative ((s - 1) * hidden + m)

def ofNat (n : Nat) : Double := ofRatio false n 1

/-- Sum of two finite doubles that are not negative. -/
def addWeights (x y : Double) : Double :=
  let (a, b) := x.ratio
  let (c, d) := y.ratio
  ofRatio false (a * d + c * b) (b * d)

def mulPositive (x y : Double) : Double :=
  let (a, b) := x.ratio
  let (c, d) := y.ratio
  ofRatio false (a * c) (b * d)

def divPositive (x y : Double) : Double :=
  let (a, b) := x.ratio
  let (c, d) := y.ratio
  ofRatio false (a * d) (b * c)

def neg (x : Double) : Double := ⟨!x.negative, x.magnitude⟩

/-- Numeric equality: both zeros are equal, nothing equals what is not a number. -/
def numEq (x y : Double) : Bool :=
  !x.isNaN && !y.isNaN && (x == y || (x.isZero && y.isZero))

def isProbability (x : Double) : Bool :=
  if x.negative then x.isZero else x.magnitude.val ≤ one.magnitude.val

def isPositive (x : Double) : Bool :=
  !x.negative && !x.isZero && !x.isNaN

def isNonnegative (x : Double) : Bool :=
  !x.isNaN && (!x.negative || x.isZero)

/-- Absolute value rounded towards zero and cut off at `cap`. -/
def truncate (cap : Nat) (x : Double) : Nat :=
  if x.isNaN then 0
  else if x.isFinite then min (x.ratio.1 / x.ratio.2) cap
  else cap

/-- Counter read from a double: truncated, cut to the range of a word. -/
def toWord (x : Double) : Nat :=
  if x.negative then 0 else x.truncate 18446744073709551615

/-- Coordinate read from a double: truncated, cut to 32 bits. -/
def toInt32 (x : Double) : Int :=
  if x.negative then -(x.truncate 2147483648 : Int) else x.truncate 2147483647

/-- The double nearest to `digits * 10 ^ exponent`. Exponents far outside the range of doubles are
decided by their size alone. -/
def ofDecimal (negative : Bool) (digits : Nat) (exponent : Int) : Double :=
  if digits = 0 then ⟨negative, 0⟩
  else
    let size : Int := (Nat.toDigits 10 digits).length + exponent
    if 400 < size then ofMagnitude negative infinite
    else if size < -400 then ⟨negative, 0⟩
    else if 0 ≤ exponent then ofRatio negative (digits * Nat.pow 10 exponent.toNat) 1
    else ofRatio negative digits (Nat.pow 10 (-exponent).toNat)

end Double

end SyndromeSchedule
