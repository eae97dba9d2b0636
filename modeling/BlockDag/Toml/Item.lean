/-
What a TOML document holds: values, and tables under their keys. A table knows how it came about,
because that decides what may still be added to it.
-/
import BlockDag.Table

namespace BlockDag.Toml

/-- How a table came about. -/
inductive Origin where
  /-- It is a value, written in braces, and complete. -/
  | closed
  /-- A header of its own opened it. -/
  | header
  /-- A header of a table inside it named it on the way. -/
  | implied
  /-- A key with dots named it on the way. -/
  | dotted
deriving DecidableEq

/-- What stands under a key. Of a float, a date or a time it is only known that there is one. -/
inductive Item where
  | string (text : String)
  | integer (value : Int)
  | float
  | boolean (value : Bool)
  | datetime
  | array (items : List Item)
  | table (origin : Origin) (entries : List (String × Item))
  /-- Tables under one key, each opened by a header in double brackets. -/
  | tables (elements : List (List (String × Item)))

/-- The entries of a table. -/
abbrev Entries := Table String Item

/-- A table as it is being put together. -/
structure OpenTable where
  origin : Origin
  entries : Entries

namespace OpenTable

/-- A table without entries. -/
def new (origin : Origin) : OpenTable := ⟨origin, []⟩

/-- The table as an item. -/
def item (t : OpenTable) : Item := .table t.origin t.entries

/-- Puts `item` under `key`. -/
def set (t : OpenTable) (key : String) (item : Item) : OpenTable :=
  { t with entries := t.entries.insert key item }

/-- Whether the keys of a path may lead through a table. A value is complete, and dots in a key lead
only through tables that no header has opened. -/
def Passable (dots : Bool) (origin : Origin) : Prop :=
  origin ≠ .closed ∧ (dots = true → origin ≠ .header)

instance (dots : Bool) (origin : Origin) : Decidable (Passable dots origin) :=
  inferInstanceAs (Decidable (origin ≠ .closed ∧ (dots = true → origin ≠ .header)))

/-- Changes the table that a path leads to. Tables that are not there yet come into being; of tables
under one key the path leads through the last. -/
def update (dots : Bool) (change : OpenTable → Option OpenTable) :
    List String → OpenTable → Option OpenTable
  | [], t => change t
  | key :: path, t =>
    match t.entries.get? key with
    | none => do
      let inner ← update dots change path (new (if dots then .dotted else .implied))
      return t.set key inner.item
    | some (.table origin entries) =>
      if Passable dots origin then do
        let inner ← update dots change path ⟨origin, entries⟩
        return t.set key inner.item
      else none
    | some (.tables elements) =>
      match elements.getLast? with
      | some entries => do
        let inner ← update dots change path ⟨.header, entries⟩
        return t.set key (.tables (elements.dropLast ++ [inner.entries]))
      | none => none
    | some _ => none

/-- Puts a value under a key that is not taken. -/
def add (key : String) (value : Item) (t : OpenTable) : Option OpenTable :=
  match t.entries.get? key with
  | none => some (t.set key value)
  | some _ => none

/-- Puts a value under a key with dots, given by its parts. Its last part belongs to a table that
dots named, and a key without dots to one that they did not. -/
def assign (parts : List String) (value : Item) (t : OpenTable) : Option OpenTable :=
  match parts.getLast? with
  | none => none
  | some key =>
    let path := parts.dropLast
    update true (fun t => if t.origin = .dotted ↔ path ≠ [] then t.add key value else none) path t

/-- Opens the table under `key`, which no header may have opened before. -/
def openAt (key : String) (t : OpenTable) : Option OpenTable :=
  match t.entries.get? key with
  | none => some (t.set key (new .header).item)
  | some (.table .implied entries) => some (t.set key (.table .header entries))
  | some _ => none

/-- Opens one more table under `key`, after those that headers like this one have opened. -/
def openNext (key : String) (t : OpenTable) : Option OpenTable :=
  match t.entries.get? key with
  | none => some (t.set key (.tables [[]]))
  | some (.tables elements) => some (t.set key (.tables (elements ++ [[]])))
  | some _ => none

end OpenTable

namespace Item

/-- The value that the assignments between two braces make. -/
def braces (pairs : List (List String × Item)) : Option Item := do
  let t ← pairs.foldlM (fun t (parts, value) => t.assign parts value) (OpenTable.new .closed)
  return t.item

end Item

end BlockDag.Toml
