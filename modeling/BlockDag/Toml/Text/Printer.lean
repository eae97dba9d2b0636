/-
Writing texts in a TOML document. A text is written without escapes where one of the styles allows it,
and in a single line where it has a single one.
-/
import BlockDag.Toml.Space
import BlockDag.Toml.Text.Style

namespace BlockDag.Toml.Text

/-- The length of the longest run of `c`, where `run` of them stand in front. -/
def longestRun (c : Char) (run : Nat) : List Char → Nat
  | [] => run
  | d :: rest => if d = c then longestRun c (run + 1) rest else max run (longestRun c 0 rest)

/-- Whether a text has ends of lines. -/
def hasLines (cs : List Char) : Bool := cs.contains '\n'

/-- Whether a text has characters that no style can hold as they are. -/
def hasControls (cs : List Char) : Bool := cs.any fun c => !isPlain c && c ≠ '\n'

/-- Whether a text can be written in a style without escapes. Three quotes in a row would close it, as
would one where it is short. -/
def Fits (s : TextStyle) (cs : List Char) : Prop :=
  hasControls cs = false ∧ (s.long = false → hasLines cs = false) ∧
    (s.escapes = true → '\\' ∉ cs) ∧ longestRun s.mark 0 cs ≤ if s.long then 2 else 0

instance (s : TextStyle) (cs : List Char) : Decidable (Fits s cs) := by
  unfold Fits; infer_instance

/-- The style in which a text is written: the first that it fits in, else the one for its lines that has
escapes. -/
def styleOf (cs : List Char) : TextStyle :=
  (([.basic, .literal, .longBasic, .longLiteral] : List TextStyle).find? (Fits · cs)).getD
    (if hasLines cs then .longBasic else .basic)

/-- Four uppercase digits of a number. -/
def hexFour (n : Nat) : List Char :=
  [n / 4096 % 16, n / 256 % 16, n / 16 % 16, n % 16].map fun d => (Nat.digitChar d).toUpper

/-- A character as it is written where escapes are read. A tab is escaped too. -/
def escaped (long : Bool) (c : Char) : List Char :=
  if c = '\x08' then ['\\', 'b']
  else if c = '\t' then ['\\', 't']
  else if c = '\n' then if long then [c] else ['\\', 'n']
  else if c = '\x0c' then ['\\', 'f']
  else if c = '\r' then ['\\', 'r']
  else if c = '\\' then ['\\', '\\']
  else if isPlain c then [c]
  else '\\' :: 'u' :: hexFour c.toNat

/-- A text as it is written where escapes are read. In a long text two double quotes in a row stand as
they are; `run` of them have just been written. -/
def escapedText (long : Bool) (run : Nat) : List Char → List Char
  | [] => []
  | c :: rest =>
    if c = '\x22' then
      if run < (if long then 2 else 0) then c :: escapedText long (run + 1) rest
      else '\\' :: c :: escapedText long 0 rest
    else escaped long c ++ escapedText long 0 rest

/-- A text between the quotes of a style. -/
def contentIn (s : TextStyle) (cs : List Char) : List Char :=
  if s.escapes then escapedText s.long 0 cs else cs

/-- A text with the quotes of a style. One with ends of lines begins on a line of its own. -/
def writeIn (s : TextStyle) (cs : List Char) : List Char :=
  s.marks ++ (if s.long && hasLines cs then ['\n'] else []) ++ contentIn s cs ++ s.marks

/-- A text as it is written. -/
def write (text : String) : List Char := writeIn (styleOf text.toList) text.toList

end BlockDag.Toml.Text
