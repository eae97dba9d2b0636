/-
TOML documents. A document is a list of statements, each of which has lines of its own: a header,
which opens a table, or a pair of a key and a value, which goes into the table that was opened last.
-/
import BlockDag.Toml.Value

namespace BlockDag.Toml

/-- What the lines of a document say. -/
inductive Statement where
  /-- `[key]` opens the table that the key names. -/
  | header (key : List String)
  /-- `[[key]]` opens one more of the tables that the key names. -/
  | nextHeader (key : List String)
  /-- `key = value` in the table that was opened last. -/
  | assign (key : List String) (value : Item)

/-! ## Reading statements -/

namespace Statement

/-- Reads a header after its first bracket. -/
def readHeader : Reader Statement
  | '[' :: cs => do
    let (key, cs) ← readKey cs
    let cs ← expect ']' cs
    let cs ← expect ']' cs
    return (.nextHeader key, cs)
  | cs => do
    let (key, cs) ← readKey cs
    let cs ← expect ']' cs
    return (.header key, cs)

/-- Reads a statement up to the end of its line. -/
def read : Reader Statement
  | '[' :: cs => do
    let (s, cs) ← readHeader cs
    let cs ← lineEnd false cs
    return (s, cs)
  | cs => do
    let ((key, value), cs) ← readPair readValue cs
    let cs ← lineEnd false cs
    return (.assign key value, cs)

/-- Reads statements to the end. -/
def readAll : (fuel : Nat) → List Char → Option (List Statement)
  | 0, _ => none
  | fuel + 1, cs => do
    match ← skipSpace false cs with
    | [] => return []
    | cs => do
      let (s, cs) ← read cs
      let more ← readAll fuel cs
      return s :: more

end Statement

/-! ## Carrying them out -/

/-- A document as far as its statements were carried out: its table, and the key of the table that was
opened last. -/
structure Draft where
  root : OpenTable
  opened : List String

namespace Draft

/-- Before the first statement the document's own table is open. -/
def empty : Draft := ⟨.new .header, []⟩

/-- Opens the table that `key` names, in the way of `enter`. -/
def openWith (enter : String → OpenTable → Option OpenTable) (key : List String) (d : Draft) :
    Option Draft :=
  match key.getLast? with
  | none => none
  | some name => do
    let root ← d.root.update false (enter name) key.dropLast
    return ⟨root, key⟩

/-- Carries out one statement. -/
def carryOut (d : Draft) : Statement → Option Draft
  | .header key => d.openWith OpenTable.openAt key
  | .nextHeader key => d.openWith OpenTable.openNext key
  | .assign key value => do
    let root ← d.root.update false (OpenTable.assign key value) d.opened
    return { d with root }

end Draft

/-- The mark that may stand before a document. -/
def byteOrderMark : Char := '\ufeff'

/-- Reads a document; `none` if it is not one. -/
def parse (text : String) : Option Entries := do
  let cs := match text.toList with
    | c :: rest => if c = byteOrderMark then rest else c :: rest
    | [] => []
  let statements ← Statement.readAll (cs.length + 1) cs
  let draft ← statements.foldlM Draft.carryOut Draft.empty
  return draft.root.entries

end BlockDag.Toml
