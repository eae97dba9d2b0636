/-
The bytes of a block: a two-byte link count, that many 32-byte links, then data. A byte string
reads as at most one block, and writing that block gives the byte string back.
-/
import BlockDag.BlockId
import BlockDag.BlockSize
import BlockDag.Format.Error

namespace BlockDag

/-- A block taken apart. -/
structure Block where
  links : List BlockId
  data : Bytes
deriving DecidableEq

namespace Block

/-- Reads `n` links off the front. -/
def takeLinks? : (n : Nat) → Bytes → Option (List BlockId × Bytes)
  | 0, bytes => some ([], bytes)
  | n + 1, bytes => do
    let link ← BlockId.ofBytes? (bytes.take linkSize)
    let (links, rest) ← takeLinks? n (bytes.drop linkSize)
    return (link :: links, rest)

/-- Takes the bytes of a block apart. -/
def decode (raw : Bytes) : Except FormatError Block :=
  if raw.length < linkCountSize then
    .error (.blockTooShort raw.length)
  else
    let count := Bytes.toNat (raw.take linkCountSize)
    match takeLinks? count (raw.drop linkCountSize) with
    | some (links, data) => .ok ⟨links, data⟩
    | none => .error (.linksOverflow count raw.length)

/-- The bytes of a block, if the link count can say how many links there are. -/
def encode (block : Block) : Except FormatError Bytes :=
  if block.links.length < 0x10000 then
    .ok (Bytes.ofNat linkCountSize block.links.length ++ (block.links.flatMap (·.bytes) ++ block.data))
  else
    .error (.tooManyLinks block.links.length)

end Block

end BlockDag
