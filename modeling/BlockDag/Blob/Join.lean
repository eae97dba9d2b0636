/-
Joining the blocks of a blob, looked up by id, into its payload. Every block is checked against the
schema of the root's header, so wrong blocks give an error and never a wrong payload.

A lookup is asked for an id and knows which ids were asked for before; so one that forgets, changes
its answers or answers with the wrong bytes is covered too.
-/
import BlockDag.Format.Block
import BlockDag.Format.Header
import BlockDag.Schema

namespace BlockDag

/-- Why joining failed. -/
inductive JoinError where
  | missing (id : BlockId)
  | format (error : FormatError)
deriving DecidableEq

/-- The wording. -/
def JoinError.message : JoinError → String
  | missing id => s!"block {id} is missing"
  | format error => error.message

/-- A payload and its kind. -/
structure Resource where
  tag : DataTag
  payload : Bytes
deriving DecidableEq

namespace Join

/-- Answers for an id, given the ids asked for before, the latest first. -/
abbrev Lookup := (asked : List BlockId) → BlockId → Option Bytes

/-- One lookup that was made. -/
structure Asked where
  id : BlockId
  answer : Option Bytes

/-- A joining as it went: the lookups in order, the positions whose blocks passed their check in
order, and what came out. -/
structure Run (α : Type) where
  lookups : List Asked
  checked : List Nat
  result : Except JoinError α

/-- A run that stops here. -/
def Run.stop (result : Except JoinError α) : Run α := ⟨[], [], result⟩

/-- Puts a lookup in front of a run. -/
def Run.afterLookup (id : BlockId) (answer : Option Bytes) (run : Run α) : Run α :=
  { run with lookups := ⟨id, answer⟩ :: run.lookups }

/-- Takes a block apart and checks it against position `ix`. -/
def openBlock (s : Schema) (ix : Nat) (raw : Bytes) : Except FormatError Block := do
  let block ← Block.decode raw
  s.check ix raw.length block.links.length
  return block

/-- The positions and ids that a block's links lead to. -/
def linked (s : Schema) (ix : Nat) (links : List BlockId) : List (Nat × BlockId) :=
  (List.range' (s.layout.firstChild ix) links.length).zip links

/-- Reads the blocks on `stack`, each followed by its subtree, and joins their data. `fuel` bounds
the lookups; a tree has no more blocks than its schema says, so running out shows as missing
data. -/
def read (s : Schema) (lookup : Lookup) :
    (fuel : Nat) → (asked : List BlockId) → (stack : List (Nat × BlockId)) → Run Bytes
  | _, _, [] => .stop (.ok [])
  | 0, _, _ :: _ => .stop (.ok [])
  | fuel + 1, asked, (ix, id) :: stack =>
    let answer := lookup asked id
    Run.afterLookup id answer <|
      match answer with
      | none => .stop (.error (.missing id))
      | some raw =>
        match openBlock s ix raw with
        | .error e => .stop (.error (.format e))
        | .ok block =>
          let run := read s lookup fuel (id :: asked) (linked s ix block.links ++ stack)
          { run with checked := ix :: run.checked, result := run.result.map (block.data ++ ·) }

/-- Splits the joined data into tag and payload. -/
def unframe (declared : Nat) (stream : Bytes) : Except FormatError Resource :=
  let body := stream.drop lengthHeaderSize
  if body.length ≠ declared then .error (.lengthMismatch declared body.length)
  else
    match body with
    | [] => .error .missingTag
    | byte :: payload =>
      match DataTag.ofByte? byte with
      | none => .error (.unknownTag byte)
      | some tag => .ok ⟨tag, payload⟩

/-- The length that a root block declares. -/
def declaredLength (raw : Bytes) : Except FormatError Nat := do
  let block ← Block.decode raw
  let (declared, _) ← Header.decode block.data
  return declared

/-- Joins the tree below a root whose bytes are `raw`. -/
def runFrom (size : BlockSize) (root : BlockId) (lookup : Lookup) (raw : Bytes) : Run Resource :=
  match declaredLength raw with
  | .error e => .stop (.error (.format e))
  | .ok declared =>
    let s := Schema.ofDeclared size declared
    match openBlock s 0 raw with
    | .error e => .stop (.error (.format e))
    | .ok block =>
      let below := read s lookup (s.totalBlocks - 1) [root] (linked s 0 block.links)
      { lookups := below.lookups
        checked := 0 :: below.checked
        result := do
          let stream ← below.result
          match unframe declared (block.data ++ stream) with
          | .error e => .error (.format e)
          | .ok resource => .ok resource }

/-- Joins the tree below `root`, block by block through `lookup`. -/
def run (size : BlockSize) (root : BlockId) (lookup : Lookup) : Run Resource :=
  let answer := lookup [] root
  Run.afterLookup root answer <|
    match answer with
    | none => .stop (.error (.missing root))
    | some raw => runFrom size root lookup raw

end Join

/-- The blob below `root`, its blocks given by `lookup`. -/
def join (size : BlockSize) (root : BlockId) (lookup : BlockId → Option Bytes) :
    Except JoinError Resource :=
  (Join.run size root fun _ => lookup).result

end BlockDag
