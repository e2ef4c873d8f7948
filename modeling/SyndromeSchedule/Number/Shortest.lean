import SyndromeSchedule.Number.Double

/-!
The shortest decimal that reads back as a given double. On the grid of multiples of a power of ten,
a double has two neighbours; the coarsest grid on which one of them rounds to the double gives the
fewest digits.
-/

namespace SyndromeSchedule

/-- The number `digits * 10 ^ exponent`. -/
structure Decimal where
  digits : Nat
  exponent : Int
deriving DecidableEq, Repr

/-- Which of two equally near decimals is taken. -/
inductive Tie where
  | up
  | even
deriving DecidableEq, Repr

namespace Double

/-- Ends of the interval of reals that round to a finite positive double, in quarters of its unit.
Below a power of two the doubles are twice as dense. -/
def interval (x : Double) : Nat × Nat :=
  let center := 4 * x.significand
  (if x.significand = hidden && 1 < x.scale then center - 1 else center - 2, center + 2)

/-- The multiple of `10 ^ k` that rounds to the double and is nearest to it. -/
def onGrid? (tie : Tie) (x : Double) (k : Int) : Option Nat :=
  let up := Nat.pow 2 (x.scale - 1077) * Nat.pow 10 (-k).toNat
  let unit := Nat.pow 2 (1077 - x.scale) * Nat.pow 10 k.toNat
  let (low, high) := x.interval
  let value := 4 * x.significand * up
  let below := value / unit
  let inside (c : Nat) : Bool :=
    if x.significand % 2 = 0 then low * up ≤ c * unit && c * unit ≤ high * up
    else low * up < c * unit && c * unit < high * up
  match inside below, inside (below + 1) with
  | false, false => none
  | true, false => some below
  | false, true => some (below + 1)
  | true, true =>
      let twice := 2 * (value - below * unit)
      if twice < unit then some below
      else if unit < twice then some (below + 1)
      else match tie with
        | .up => some (below + 1)
        | .even => some (below + below % 2)

/-- Tries grids from `10 ^ k` downwards. -/
def search (tie : Tie) (x : Double) : Nat → Int → Decimal
  | 0, k => ⟨0, k⟩
  | steps + 1, k =>
      match x.onGrid? tie k with
      | some digits => ⟨digits, k⟩
      | none => search tie x steps (k - 1)

/-- A power of ten above every finite positive double of this size. -/
def coarsest (x : Double) : Int :=
  ((x.significand.log2 : Int) + x.scale - 1074) * 30103 / 100000 + 1

/-- Shortest decimal of a finite double that is not zero. Seventeen digits always suffice, so the
search ends well within its steps. -/
def shortest (tie : Tie) (x : Double) : Decimal :=
  x.search tie 24 x.coarsest

end Double

end SyndromeSchedule
