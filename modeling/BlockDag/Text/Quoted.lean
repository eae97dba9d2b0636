/-
Quoted text: between two quotation marks, with an escape for every character that would not show or
would end the text.
-/
import BlockDag.Text.Hidden

namespace BlockDag.Text

/-- The digits of a number to base 16, in lowercase. -/
def hexDigits (n : Nat) : List Char := Nat.toDigits 16 n

/-- A character as it stands between quotation marks. -/
def escapeChar (c : Char) : List Char :=
  if c = '\x00' then ['\\', '0']
  else if c = '\t' then ['\\', 't']
  else if c = '\r' then ['\\', 'r']
  else if c = '\n' then ['\\', 'n']
  else if c = '"' then ['\\', '"']
  else if c = '\\' then ['\\', '\\']
  else if isHidden c then ['\\', 'u', '\x7b'] ++ hexDigits c.toNat ++ ['\x7d']
  else [c]

/-- The text between quotation marks. -/
def quote (text : String) : String := String.ofList ('"' :: text.toList.flatMap escapeChar ++ ['"'])

end BlockDag.Text
