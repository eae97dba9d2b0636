/-
Block sizes that can hold a blob. A block starts with a two-byte link count; a root that is full
of links has to keep at least five bytes of data, for the length header and the tag.
-/
namespace BlockDag

/-- Bytes of the link count that starts every block. -/
def linkCountSize : Nat := 2

/-- Bytes of one link. -/
def linkSize : Nat := 32

/-- Bytes of the length header that starts the root's data. -/
def lengthHeaderSize : Nat := 4

/-- The largest physical size of a block, if blocks of that size can hold a blob. -/
structure BlockSize where
  bytes : Nat
  fits : bytes < 0x10000000000000000
  holds_link : 39 ≤ bytes
  holds_header : 5 ≤ (bytes - linkCountSize) % linkSize
deriving DecidableEq

namespace BlockSize

/-- Whether blocks of `bytes` bytes can hold a blob. -/
def Usable (bytes : Nat) : Prop := 39 ≤ bytes ∧ 5 ≤ (bytes - linkCountSize) % linkSize

instance (bytes : Nat) : Decidable (Usable bytes) :=
  inferInstanceAs (Decidable (39 ≤ bytes ∧ 5 ≤ (bytes - linkCountSize) % linkSize))

/-- The size, if it is usable. Sizes are 64-bit numbers. -/
def ofNat? (bytes : Nat) : Option BlockSize :=
  if h : bytes < 0x10000000000000000 ∧ Usable bytes then some ⟨bytes, h.1, h.2.1, h.2.2⟩ else none

/-- Bytes left for links and data. -/
def room (m : BlockSize) : Nat := m.bytes - linkCountSize

/-- Links in a block with no room left for another one. -/
def linksPerBlock (m : BlockSize) : Nat := m.room / linkSize

theorem linksPerBlock_pos (m : BlockSize) : 0 < m.linksPerBlock := by
  have := m.holds_link
  simp only [linksPerBlock, room, linkCountSize, linkSize]
  omega

end BlockSize

end BlockDag
