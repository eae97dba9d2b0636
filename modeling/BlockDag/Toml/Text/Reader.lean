/-
Reading texts in a TOML document: step by step up to the closing quotes.
-/
import BlockDag.Bytes
import BlockDag.Toml.Space
import BlockDag.Toml.Text.Style

namespace BlockDag.Toml

namespace Text

/-- What comes next in a text. -/
inductive Step where
  /-- Some characters of it, and what follows. -/
  | piece (chars rest : List Char)
  /-- Its end, with its last characters before it, and what follows. -/
  | close (chars rest : List Char)
  /-- Nothing that may stand there. -/
  | bad

/-- The number that hexadecimal digits make. -/
def hexNumber (digits : List Char) : Option Nat :=
  digits.foldlM (fun n c => (Bytes.hexDigit? c).map (16 * n + ·)) 0

/-- The character with a number, if the number is one of a character. -/
def scalar? (n : Nat) : Option Char := if n.isValidChar then some (Char.ofNat n) else none

/-- A character given by its number in `width` hexadecimal digits. -/
def numbered (width : Nat) (cs : List Char) : Step :=
  if (cs.take width).length = width then
    match hexNumber (cs.take width) >>= scalar? with
    | some c => .piece [c] (cs.drop width)
    | none => .bad
  else .bad

/-- What follows a backslash. In a text of several lines the end of its line may follow, after which
all blanks and further ends of lines are left aside. -/
def escape (long : Bool) : List Char → Step
  | 'b' :: rest => .piece ['\x08'] rest
  | 't' :: rest => .piece ['\t'] rest
  | 'n' :: rest => .piece ['\n'] rest
  | 'f' :: rest => .piece ['\x0c'] rest
  | 'r' :: rest => .piece ['\r'] rest
  | '\x22' :: rest => .piece ['\x22'] rest
  | '\\' :: rest => .piece ['\\'] rest
  | 'u' :: rest => numbered 4 rest
  | 'U' :: rest => numbered 8 rest
  | cs =>
    if long then
      match skipBlanks cs with
      | '\n' :: rest => .piece [] (skipLines rest)
      | '\r' :: '\n' :: rest => .piece [] (skipLines rest)
      | _ => .bad
    else .bad

/-- What follows three quotes in a text between three. One or two more belong to the text. -/
def closeLong (mark : Char) (cs : List Char) : Step :=
  let more := cs.takeWhile (· = mark)
  if more.length ≤ 2 then .close more (cs.drop more.length) else .bad

/-- The next step through a text. Ends of lines read as line feeds. -/
def step (s : TextStyle) : List Char → Step
  | [] => .bad
  | c :: rest =>
    if c = s.mark then
      if s.long then
        if rest.take 2 = [s.mark, s.mark] then closeLong s.mark (rest.drop 2) else .piece [c] rest
      else .close [] rest
    else if c = '\\' && s.escapes then escape s.long rest
    else if isPlain c then .piece [c] rest
    else if s.long then
      match c, rest with
      | '\n', _ => .piece ['\n'] rest
      | '\r', '\n' :: rest => .piece ['\n'] rest
      | _, _ => .bad
    else .bad

/-- Goes through a text up to its end, in at most one step for each character of `fuel`. Every step takes
a character, so that the text is fuel enough for itself. -/
def scan (s : TextStyle) : (fuel : List Char) → Reader (List Char)
  | [], _ => none
  | _ :: fuel, cs =>
    match step s cs with
    | .bad => none
    | .close chars rest => some (chars, rest)
    | .piece chars rest => do
      let (more, rest) ← scan s fuel rest
      return (chars ++ more, rest)

/-- Reads what follows the quotes that begin a text. -/
def readAfterMarks (s : TextStyle) (cs : List Char) : Option (String × List Char) := do
  let (chars, rest) ← scan s cs cs
  return (String.ofList chars, rest)

/-- Reads a text in one line. -/
def readShort : Reader String
  | '\x22' :: rest => readAfterMarks .basic rest
  | '\x27' :: rest => readAfterMarks .literal rest
  | _ => none

/-- Reads a text. An end of line right after three quotes does not belong to it. -/
def read : Reader String
  | '\x22' :: '\x22' :: '\x22' :: rest => readAfterMarks .longBasic (skipLineEnd rest)
  | '\x27' :: '\x27' :: '\x27' :: rest => readAfterMarks .longLiteral (skipLineEnd rest)
  | cs => readShort cs

end Text

end BlockDag.Toml
