/-
Judging one block for every root that awaits it. Each root is judged on its own, by its state, the
positions it awaits the block at, and the block; what becomes of the others plays no part.
-/
import BlockDag.Download.Pending
import BlockDag.Download.State
import BlockDag.Format.Block
import BlockDag.Format.Header

namespace BlockDag

/-- What is accepted of one kind of payload. -/
structure TagLimits where
  /-- The largest payload, in bytes. -/
  maxSize : Nat
  /-- How long a download may take, in milliseconds. -/
  timeout : Nat
deriving DecidableEq

/-- The fixed rules of a downloader. -/
structure Rules where
  size : BlockSize
  limits : DataTag → Option TagLimits

/-- The numbering of positions under these rules. -/
def Rules.layout (rules : Rules) : Layout := Layout.ofBlockSize rules.size

/-- A position that a checked block leads to, and the block that belongs there. -/
structure Child where
  root : RootId
  id : BlockId
  position : Nat
deriving DecidableEq

/-- What a block means for one root. -/
inductive Judgement where
  /-- The root has no download. -/
  | rootUnknown
  /-- The block is awaited below the root, but the shape of the tree is not known. -/
  | schemaUnknown (positions : List Nat)
  | malformed (error : FormatError)
  /-- The block fits every position; `fresh` is the shape it gives the tree if it is the root. -/
  | valid (fresh : Option Schema) (children : List Child)
deriving DecidableEq

namespace Judgement

/-- Reads and checks the header of a root block with the data `data`, and lays out what it
declares. -/
def rootSchema (rules : Rules) (tag : DataTag) (data : Bytes) : Except FormatError Schema := do
  let (declared, rest) ← Header.decode data
  match rest with
  | [] => .error .missingTag
  | byte :: _ =>
    if byte ≠ tag.byte then .error (.tagMismatch tag.byte byte)
    else
      match rules.limits tag with
      | none => .error (.unsupportedTag tag)
      | some limits =>
        if declared = 0 then .error .missingTag
        else if limits.maxSize < declared - 1 then .error (.payloadTooLarge (declared - 1) limits.maxSize)
        else .ok (Schema.ofDeclared rules.size declared)

/-- The positions that the links of a block at `ix` lead to, in link order. -/
def childrenAt (rules : Rules) (root : RootId) (links : List BlockId) (ix : Nat) : List Child :=
  links.zipIdx.map fun (id, i) => ⟨root, id, rules.layout.firstChild ix + i⟩

/-- Checks a block of `size` bytes and `links` links at every position, up to the first it does not
fit. -/
def checkAll (s : Schema) (size links : Nat) : List Nat → Except FormatError Unit
  | [] => .ok ()
  | ix :: rest => do
    s.check ix size links
    checkAll s size links rest

/-- Judges a block that came apart by a known shape. -/
def bySchema (rules : Rules) (root : RootId) (size : Nat) (block : Block) (positions : List Nat)
    (fresh : Option Schema) (s : Schema) : Judgement :=
  match checkAll s size block.links.length positions with
  | .error e => .malformed e
  | .ok () => .valid fresh (positions.flatMap (childrenAt rules root block.links))

/-- Judges a block of `size` bytes for one root. A block that does not come apart is malformed for
whoever awaits it; where position 0 is awaited, the block itself gives the shape. -/
def ofBlock (rules : Rules) (size : Nat) (block : Except FormatError Block) (root : RootId)
    (state : Option Download) (positions : List Nat) : Judgement :=
  match block with
  | .error e => .malformed e
  | .ok block =>
    match state with
    | none => .rootUnknown
    | some d =>
      if 0 ∈ positions then
        match rootSchema rules d.tag block.data with
        | .error e => .malformed e
        | .ok s => bySchema rules root size block positions (some s) s
      else
        match d.schema? with
        | none => .schemaUnknown positions
        | some s => bySchema rules root size block positions none s

end Judgement

/-- The judgements of one block, one for each root that awaits it. -/
structure Verdict where
  judgements : List (RootId × Judgement)

namespace Verdict

/-- Judges the block `raw` for every root of `awaiting`. -/
def ofBlock (rules : Rules) (raw : Bytes) (awaiting : Awaiting) (roots : Table RootId Download) :
    Verdict :=
  let block := Block.decode raw
  ⟨awaiting.map fun (root, positions) =>
    (root, Judgement.ofBlock rules raw.length block root (roots.get? root) positions)⟩

/-- The children of the roots for which the block is valid. -/
def children (v : Verdict) : List Child :=
  v.judgements.flatMap fun (_, j) =>
    match j with
    | .valid _ children => children
    | _ => []

/-- The shapes that the block gives to trees of which it is the root. -/
def schemas (v : Verdict) : List (RootId × Schema) :=
  v.judgements.filterMap fun (root, j) =>
    match j with
    | .valid (some schema) _ => some (root, schema)
    | _ => none

/-- The roots whose trees the block proves malformed. -/
def malformed (v : Verdict) : List (RootId × FormatError) :=
  v.judgements.filterMap fun (root, j) =>
    match j with
    | .malformed e => some (root, e)
    | _ => none

/-- The roots for which the block is valid. -/
def validated (v : Verdict) : List RootId :=
  v.judgements.filterMap fun (root, j) =>
    match j with
    | .valid .. => some root
    | _ => none

/-- Roots that could not be judged. -/
def log (v : Verdict) : List LogEntry :=
  v.judgements.filterMap fun (root, j) =>
    match j with
    | .rootUnknown => some (.rootUnknown root)
    | .schemaUnknown positions => some (.schemaUnknown root positions)
    | _ => none

end Verdict

end BlockDag
