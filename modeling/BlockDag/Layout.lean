/-
Breadth-first numbering of the positions of a complete tree: level by level, left to right, the
root at 0. The children of a position are a contiguous run, so the i-th link of a block at `ix`
leads to `firstChild ix + i`. A position is its number.
-/
import BlockDag.BlockSize
import BlockDag.Word

namespace BlockDag

/-- The shape of complete trees whose inner positions have `width` children. -/
structure Layout where
  width : Nat
  width_pos : 0 < width
deriving DecidableEq

namespace Layout

/-- Trees of `width` children; a width of 0 counts as 1. -/
def ofWidth (width : Nat) : Layout := ⟨max width 1, by omega⟩

/-- Trees of blocks of at most `m` bytes. -/
def ofBlockSize (m : BlockSize) : Layout := ofWidth m.linksPerBlock

/-- A level: its depth, its first position, and how many positions it has. -/
structure Level where
  depth : Nat
  start : Nat
  width : Nat
deriving DecidableEq

/-- The root's level. -/
def Level.top : Level := ⟨0, 0, 1⟩

/-- The level below, in trees of `width` children. -/
def Level.below (width : Nat) (l : Level) : Level :=
  ⟨l.depth + 1, l.start + l.width, Word.satMul l.width width⟩

/-- Goes down from `l` to the level that holds `ix`. Every level starts at least one position
further, so `fuel = ix` is enough from the top. -/
def Level.seek (width : Nat) (ix : Nat) : (fuel : Nat) → Level → Level
  | 0, l => l
  | fuel + 1, l => if ix - l.start < l.width then l else seek width ix fuel (l.below width)

/-- The level of `ix`. A tree of width 1 is a chain with one position on every level. -/
def levelOf (t : Layout) (ix : Nat) : Level :=
  if t.width = 1 then ⟨ix, ix, 1⟩ else Level.seek t.width ix ix Level.top

/-- How many steps `ix` is below the root. -/
def depth (t : Layout) (ix : Nat) : Nat := (t.levelOf ix).depth

/-- The first child of `ix`, or the largest 64-bit number where that is smaller. -/
def firstChild (t : Layout) (ix : Nat) : Nat :=
  let l := t.levelOf ix
  Word.satAdd (Word.satAdd l.start l.width) (Word.satMul (ix - l.start) t.width)

end Layout

end BlockDag
