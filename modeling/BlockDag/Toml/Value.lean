/-
Keys and values in a TOML document. A key has fewer than eighty parts, and values lie within each
other less than eighty deep.
-/
import BlockDag.Toml.Item
import BlockDag.Toml.Moment
import BlockDag.Toml.Number
import BlockDag.Toml.Text.Reader

namespace BlockDag.Toml

/-! ## Keys -/

/-- Whether a character may stand in a key without quotes. -/
def isBareKey (c : Char) : Bool := c.isAlphanum || c = '-' || c = '_'

/-- Reads one part of a key. -/
def readKeyPart : Reader String := fun cs =>
  match cs.takeWhile isBareKey with
  | [] => Text.readShort cs
  | part => some (String.ofList part, cs.dropWhile isBareKey)

/-- Reads a key of at most `limit` parts, with dots between them, and the blanks around each. -/
def readKeyWithin : (limit : Nat) → Reader (List String)
  | 0, _ => none
  | limit + 1, cs => do
    let (part, cs) ← readKeyPart (skipBlanks cs)
    match skipBlanks cs with
    | '.' :: cs => do
      let (parts, cs) ← readKeyWithin limit cs
      return (part :: parts, cs)
    | cs => return ([part], cs)

/-- Reads a key. -/
def readKey : Reader (List String) := readKeyWithin 79

/-! ## Words -/

/-- Whether a character may stand in a word: a number, a date, `true` and the like. -/
def isWord (c : Char) : Bool :=
  c.isAlphanum || c = '+' || c = '-' || c = '_' || c = '.' || c = ':'

/-- The value of a word. -/
def wordItem? (word : List Char) : Option Item :=
  if word = "true".toList then some (.boolean true)
  else if word = "false".toList then some (.boolean false)
  else
    match Number.integer? word with
    | some n => some (.integer n)
    | none =>
      if Number.isFloat word then some .float
      else if Moment.isMoment word then some .datetime
      else none

/-- Leaves the time of day aside that may follow a date and a blank. -/
def skipTimeOfDay : List Char → List Char
  | ' ' :: rest => if Moment.isTimeOfDay (rest.takeWhile isWord) then rest.dropWhile isWord else ' ' :: rest
  | cs => cs

/-- Reads the value of a word. -/
def readWord : Reader Item := fun cs => do
  let word := cs.takeWhile isWord
  let rest := cs.dropWhile isWord
  let item ← wordItem? word
  return (item, if Moment.isDate word then skipTimeOfDay rest else rest)

/-! ## Values -/

/-- Reads the values of an array and its closing bracket, at most one value for each character of
`fuel`. A comma may stand before the bracket. -/
def readItems (value : Reader Item) : (fuel : List Char) → Reader (List Item)
  | [], _ => none
  | _ :: fuel, cs => do
    match ← skipSpace false cs with
    | ']' :: cs => return ([], cs)
    | cs => do
      let (item, cs) ← value cs
      match ← skipSpace false cs with
      | ',' :: cs => do
        let (items, cs) ← readItems value fuel cs
        return (item :: items, cs)
      | ']' :: cs => return ([item], cs)
      | _ => none

/-- Reads a key, the sign after it and its value. -/
def readPair (value : Reader Item) : Reader (List String × Item) := fun cs => do
  let (key, cs) ← readKey cs
  let cs ← expect '=' cs
  let (item, cs) ← value (skipBlanks cs)
  return ((key, item), cs)

/-- Reads pairs with commas between them and the closing brace, at most one pair for each character of
`fuel`. -/
def readPairs (value : Reader Item) : (fuel : List Char) → Reader (List (List String × Item))
  | [], _ => none
  | _ :: fuel, cs => do
    let (pair, cs) ← readPair value cs
    match skipBlanks cs with
    | ',' :: cs => do
      let (pairs, cs) ← readPairs value fuel cs
      return (pair :: pairs, cs)
    | '\x7d' :: cs => return ([pair], cs)
    | _ => none

/-- Reads what stands between two braces, which is one line. -/
def readBraces (value : Reader Item) : Reader (List (List String × Item)) := fun cs =>
  match skipBlanks cs with
  | '\x7d' :: cs => some ([], cs)
  | cs => readPairs value cs cs

/-- Reads a value that may hold others up to `depth` deep. -/
def readValueWithin : (depth : Nat) → Reader Item
  | depth, '[' :: cs =>
    match depth with
    | 0 => none
    | depth + 1 => do
      let (items, cs) ← readItems (readValueWithin depth) cs cs
      return (.array items, cs)
  | depth, '\x7b' :: cs =>
    match depth with
    | 0 => none
    | depth + 1 => do
      let (pairs, cs) ← readBraces (readValueWithin depth) cs
      let item ← Item.braces pairs
      return (item, cs)
  | _, cs =>
    match Text.read cs with
    | some (text, cs) => some (.string text, cs)
    | none => readWord cs

/-- Reads a value. -/
def readValue : Reader Item := readValueWithin 79

end BlockDag.Toml
