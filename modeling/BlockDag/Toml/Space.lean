/-
What a TOML document may hold between its parts: blanks, ends of lines and comments.
-/
namespace BlockDag.Toml

/-- Characters that are read one after the other, and what is left of them. -/
abbrev Reader (α : Type) := List Char → Option (α × List Char)

/-- Whether a character may stand in a comment or a text as it is. -/
def isPlain (c : Char) : Bool := c = '\t' || (' ' ≤ c && c ≠ '\x7f')

/-- Whether a character is a blank within a line. -/
def isBlank (c : Char) : Bool := c = ' ' || c = '\t'

/-- Leaves blanks aside. -/
def skipBlanks (cs : List Char) : List Char := cs.dropWhile isBlank

/-- Leaves blanks and ends of lines aside. -/
def skipLines : List Char → List Char
  | '\r' :: '\n' :: rest => skipLines rest
  | c :: rest => if isBlank c || c = '\n' then skipLines rest else c :: rest
  | [] => []

/-- Leaves an end of line aside, if there is one. -/
def skipLineEnd : List Char → List Char
  | '\n' :: rest => rest
  | '\r' :: '\n' :: rest => rest
  | cs => cs

/-- Leaves blanks, ends of lines and comments aside; `comment` tells whether a comment has begun. A
comment goes on to the end of its line. -/
def skipSpace (comment : Bool) : List Char → Option (List Char)
  | [] => some []
  | '\r' :: '\n' :: rest => skipSpace false rest
  | c :: rest =>
    if c = '\n' then skipSpace false rest
    else if comment then
      if isPlain c then skipSpace true rest else none
    else if isBlank c then skipSpace false rest
    else if c = '#' then skipSpace true rest
    else some (c :: rest)

/-- Reads the end of a line, after blanks and a comment. -/
def lineEnd (comment : Bool) : List Char → Option (List Char)
  | [] => some []
  | '\r' :: '\n' :: rest => some rest
  | c :: rest =>
    if c = '\n' then some rest
    else if comment then
      if isPlain c then lineEnd true rest else none
    else if isBlank c then lineEnd false rest
    else if c = '#' then lineEnd true rest
    else none

/-- Reads one character that has to be there. -/
def expect (c : Char) : List Char → Option (List Char)
  | d :: rest => if d = c then some rest else none
  | [] => none

end BlockDag.Toml
