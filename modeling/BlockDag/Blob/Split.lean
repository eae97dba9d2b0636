/-
Splitting a payload into blocks. The payload is framed by the length header and its tag; the frame
is handed out to the positions in preorder, so the root starts with the header. Children have
higher positions than their parent, so going through the positions from the last to the first
meets every child's id before its parent needs it.
-/
import BlockDag.Blob.Preorder
import BlockDag.Format.Block
import BlockDag.Format.Header

namespace BlockDag

/-- A block with its name. -/
abbrev NamedBlock := BlockId × Bytes

/-- A blob as blocks in the order of their positions, the root first. -/
structure EncodedBlob where
  root : BlockId
  blocks : List NamedBlock

namespace EncodedBlob

/-- The header, the tag and the payload in one string. -/
def frame (tag : DataTag) (payload : Bytes) : Except FormatError Bytes := do
  let header ← Header.encode (payload.length + 1)
  return header ++ tag.byte :: payload

/-- The blocks of the last `n` positions, where `data` gives every position its data. -/
def build (s : Schema) (data : Nat → Bytes) : (n : Nat) → Except FormatError (List NamedBlock)
  | 0 => .ok []
  | n + 1 => do
    let below ← build s data n
    let ix := s.totalBlocks - (n + 1)
    let links := ((below.drop (s.layout.firstChild ix - (ix + 1))).take (s.linkCount ix)).map (·.1)
    let raw ← Block.encode ⟨links, data ix⟩
    return (BlockId.of raw, raw) :: below

/-- The data of every position, from the shares that the cut gave out. -/
def dataAt (shares : Array Bytes) (ix : Nat) : Bytes := shares.getD ix []

/-- Files every share under its position. -/
def fileShares (total : Nat) (shares : List (Nat × Bytes)) : Array Bytes :=
  shares.foldl (fun filed share => filed.setIfInBounds share.1 share.2) (Array.replicate total [])

/-- The blocks of `payload` under `tag`, at most `size` bytes each. -/
def split (size : BlockSize) (tag : DataTag) (payload : Bytes) : Except FormatError EncodedBlob := do
  let stream ← frame tag payload
  let s := Schema.ofDeclared size (payload.length + 1)
  let shares := fileShares s.totalBlocks (s.cut s.preorder stream)
  match ← build s (dataAt shares) s.totalBlocks with
  | [] => .error .missingTag
  | root :: rest => return ⟨root.1, root :: rest⟩

end EncodedBlob

end BlockDag
