import SyndromeSchedule.Text.Hidden

/-!
Quoted text for messages: the text between double quotes, with characters that would not show
written as escapes.
-/

namespace SyndromeSchedule.Text

/-- How one character stands in quoted text. -/
def quoteChar (c : Char) : List Char :=
  if c = '"' then ['\\', '"']
  else if c = '\\' then ['\\', '\\']
  else if c = '\n' then ['\\', 'n']
  else if c = '\r' then ['\\', 'r']
  else if c = '\t' then ['\\', 't']
  else if c = '\x00' then ['\\', '0']
  else if isHidden c then
    ['\\', 'u', '\x7b'] ++ Nat.toDigits 16 c.toNat ++ ['\x7d']
  else [c]

def quote (text : List Char) : String :=
  String.ofList ('"' :: text.flatMap quoteChar ++ ['"'])

end SyndromeSchedule.Text
