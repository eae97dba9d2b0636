/-
The ways to write a text in a TOML document. A text stands between single or double quotes; between
double quotes a backslash begins an escape. Between three quotes on each side it may run over several
lines.
-/
namespace BlockDag.Toml

/-- How a text is written. -/
structure TextStyle where
  /-- Whether the quotes are double, and escapes are read. -/
  escapes : Bool
  /-- Whether there are three quotes on each side. -/
  long : Bool
deriving DecidableEq

namespace TextStyle

/-- One line between double quotes. -/
def basic : TextStyle := ⟨true, false⟩

/-- One line between single quotes. -/
def literal : TextStyle := ⟨false, false⟩

/-- Any number of lines between double quotes. -/
def longBasic : TextStyle := ⟨true, true⟩

/-- Any number of lines between single quotes. -/
def longLiteral : TextStyle := ⟨false, true⟩

/-- The quote. -/
def mark (s : TextStyle) : Char := if s.escapes then '\x22' else '\x27'

/-- What stands on each side. -/
def marks (s : TextStyle) : List Char := List.replicate (if s.long then 3 else 1) s.mark

end TextStyle

end BlockDag.Toml
