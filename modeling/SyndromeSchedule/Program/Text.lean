import SyndromeSchedule.Program.Instruction

/-!
Programs as text: one instruction a line, blocks indented by four blanks.
-/

namespace SyndromeSchedule

def natChars (n : Nat) : List Char := Nat.toDigits 10 n

def intChars (z : Int) : List Char :=
  if z < 0 then '-' :: natChars z.natAbs else natChars z.natAbs

/-- Texts with a comma and a blank between them. -/
def commaJoin : List (List Char) → List Char
  | [] => []
  | [text] => text
  | text :: next :: rest => text ++ ',' :: ' ' :: commaJoin (next :: rest)

def argumentChars (arguments : List (List Char)) : List Char :=
  '(' :: commaJoin arguments ++ [')']

namespace Target

def productChars : List (Pauli × Nat) → List Char
  | [] => []
  | [(letter, q)] => letter.char :: natChars q
  | (letter, q) :: next :: rest => letter.char :: natChars q ++ '*' :: productChars (next :: rest)

def chars : Target → List Char
  | qubit q => natChars q
  | product factors => productChars factors

end Target

namespace Instruction

def targetChars {α : Type} (chars : α → List Char) (targets : List α) : List Char :=
  targets.flatMap fun t => ' ' :: chars t

def recordChars (offset : Int) : List Char :=
  ['r', 'e', 'c', '['] ++ intChars offset ++ [']']

def flipChars : Option Double → List Char
  | none => []
  | some p => argumentChars [p.text.toList]

mutual
def chars (depth : Nat) : Instruction → List Char
  | coords q values =>
      List.replicate (4 * depth) ' ' ++ "QUBIT_COORDS".toList ++
        argumentChars (values.map intChars) ++ ' ' :: natChars q ++ ['\n']
  | gate g targets =>
      List.replicate (4 * depth) ' ' ++ g.name.toList ++ targetChars natChars targets ++ ['\n']
  | noise c parameters targets =>
      List.replicate (4 * depth) ' ' ++ c.name.toList ++
        argumentChars (parameters.map (·.text.toList)) ++ targetChars natChars targets ++ ['\n']
  | measure g flip targets =>
      List.replicate (4 * depth) ' ' ++ g.name.toList ++ flipChars flip ++
        targetChars Target.chars targets ++ ['\n']
  | detector offsets =>
      List.replicate (4 * depth) ' ' ++ "DETECTOR".toList ++ targetChars recordChars offsets ++
        ['\n']
  | observable index offsets =>
      List.replicate (4 * depth) ' ' ++ "OBSERVABLE_INCLUDE".toList ++
        argumentChars [natChars index] ++ targetChars recordChars offsets ++ ['\n']
  | tick => List.replicate (4 * depth) ' ' ++ "TICK\n".toList
  | loop count body =>
      List.replicate (4 * depth) ' ' ++ "REPEAT ".toList ++ natChars count ++ " \x7b\n".toList ++
        charsList (depth + 1) body ++ List.replicate (4 * depth) ' ' ++ "\x7d\n".toList
termination_by structural i => i

def charsList (depth : Nat) : List Instruction → List Char
  | [] => []
  | i :: rest => chars depth i ++ charsList depth rest
termination_by structural is => is
end

end Instruction

def Program.text (p : Program) : String :=
  String.ofList (Instruction.charsList 0 p.instructions)

end SyndromeSchedule
