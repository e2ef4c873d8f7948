/-!
Ranges of the machine integers behind counters and documents. Quantities are kept as unbounded `Nat`
and `Int`; the places where a 64-bit or 32-bit word would be left say so here.
-/

namespace SyndromeSchedule.Word

/-- One more than the largest unsigned 64-bit word. -/
def size : Nat := 18446744073709551616

/-- One more than the largest signed 64-bit word. -/
def half : Nat := 9223372036854775808

/-- Sum of two counters, if a word holds it. -/
def add? (a b : Nat) : Option Nat :=
  if a + b < size then some (a + b) else none

/-- Product of two counters, if a word holds it. -/
def mul? (a b : Nat) : Option Nat :=
  if a * b < size then some (a * b) else none

def isInt64 (z : Int) : Bool :=
  -(half : Int) ≤ z && z < half

def isInt32 (z : Int) : Bool :=
  -2147483648 ≤ z && z < 2147483648

/-- The signed word with the same 64 bits as the counter. -/
def signed (n : Nat) : Int :=
  if n < half then n else (n : Int) - size

end SyndromeSchedule.Word
