/-
Schemas: the shape that the length of a blob gives to every block of its tree. All blocks but the
last are full; links are packed into the lowest positions, so the first `fullLinkBlocks` carry as
many as fit, the next one carries the rest, and everything after it is a leaf. A block can
therefore be checked by its position alone, before the rest of the tree is known.
-/
import BlockDag.Format.Error
import BlockDag.Layout

namespace BlockDag

/-- `length` bytes of data laid out in blocks of at most `size`. -/
structure Schema where
  size : BlockSize
  length : Nat
deriving DecidableEq

namespace Schema

/-- The schema of a blob whose header declares `declared` bytes of tag and payload. The header is
laid out too. -/
def ofDeclared (size : BlockSize) (declared : Nat) : Schema :=
  ⟨size, Word.satAdd declared lengthHeaderSize⟩

/-- The numbering of the tree's positions. -/
def layout (s : Schema) : Layout := Layout.ofBlockSize s.size

/-- Bytes of data that a further block adds: its room, less the link its parent spends on it. -/
def extraRoom (s : Schema) : Nat := s.size.room - linkSize

/-- How many blocks there are. -/
def totalBlocks (s : Schema) : Nat :=
  if s.length ≤ s.size.room then 1
  else 1 + (s.length - s.size.room + s.extraRoom - 1) / s.extraRoom

/-- Every block but the root has one link to it. -/
def totalLinks (s : Schema) : Nat := s.totalBlocks - 1

/-- How many positions are full of links. -/
def fullLinkBlocks (s : Schema) : Nat := s.totalLinks / s.size.linksPerBlock

/-- Depth of the last position, which is the deepest. -/
def depth (s : Schema) : Nat := s.layout.depth (s.totalBlocks - 1)

/-- How many links the block at `ix` has. -/
def linkCount (s : Schema) (ix : Nat) : Nat :=
  if ix < s.fullLinkBlocks then s.size.linksPerBlock
  else if ix = s.fullLinkBlocks ∧ ix < s.totalBlocks then s.totalLinks % s.size.linksPerBlock
  else 0

/-- How many bytes of data the block at `ix` has. -/
def dataSize (s : Schema) (ix : Nat) : Nat :=
  if s.totalBlocks ≤ ix then 0
  else if ix = s.totalBlocks - 1 then s.length - s.totalLinks * s.extraRoom
  else s.size.room - s.linkCount ix * linkSize

/-- How many bytes the block at `ix` has. Outside the tree that is 0, which no block matches. -/
def blockSize (s : Schema) (ix : Nat) : Nat :=
  if s.totalBlocks ≤ ix then 0
  else linkCountSize + s.linkCount ix * linkSize + s.dataSize ix

/-- The children of `ix`. -/
def children (s : Schema) (ix : Nat) : List Nat :=
  List.range' (s.layout.firstChild ix) (s.linkCount ix)

/-- Checks a block of `size` bytes with `links` links against position `ix`. -/
def check (s : Schema) (ix : Nat) (size links : Nat) : Except FormatError Unit :=
  if size ≠ s.blockSize ix then .error (.unexpectedSize ix size (s.blockSize ix))
  else if links ≠ s.linkCount ix then .error (.unexpectedLinkCount ix links (s.linkCount ix))
  else .ok ()

end Schema

end BlockDag
