/-
The pending index: which roots wait for which blocks, and at which positions. One block may sit at
several positions of one tree and in several trees at once. No entry is empty.
-/
import BlockDag.BlockId
import BlockDag.Layout
import BlockDag.Table

namespace BlockDag

/-- The positions at which each root waits for one block. -/
abbrev Awaiting := Table RootId (List Nat)

/-- Who waits for each block. -/
structure PendingIndex where
  entries : BlockMap Awaiting
deriving DecidableEq

/-- Adds a position for `root`, after those it has. -/
def Awaiting.add (awaiting : Awaiting) (root : RootId) (ix : Nat) : Awaiting :=
  Table.insert root ((Table.get? root awaiting).getD [] ++ [ix]) awaiting

namespace PendingIndex

/-- The index in which nobody waits. -/
def empty : PendingIndex := ⟨∅⟩

/-- Who waits for `id`. -/
def get? (p : PendingIndex) (id : BlockId) : Option Awaiting := p.entries[id]?

/-- Whether some root waits for `id`. -/
def Has (p : PendingIndex) (id : BlockId) : Prop := id ∈ p.entries

instance (p : PendingIndex) (id : BlockId) : Decidable (p.Has id) :=
  inferInstanceAs (Decidable (id ∈ p.entries))

/-- How many blocks are waited for. -/
def size (p : PendingIndex) : Nat := p.entries.size

/-- Lets `root` wait for `id` at position `ix`. -/
def insert (p : PendingIndex) (id : BlockId) (root : RootId) (ix : Nat) : PendingIndex :=
  ⟨p.entries.insert id (((p.get? id).getD []).add root ix)⟩

/-- Takes out everything that waits for `id`. -/
def take (p : PendingIndex) (id : BlockId) : Option Awaiting × PendingIndex :=
  match p.get? id with
  | some awaiting => (some awaiting, ⟨p.entries.erase id⟩)
  | none => (none, p)

/-- Lets `root` no longer wait for `id`; an entry that nobody is left in goes too. -/
def withdraw (root : RootId) (p : PendingIndex) (id : BlockId) : PendingIndex :=
  match p.get? id with
  | none => p
  | some awaiting =>
    if (awaiting.erase root).isEmpty then ⟨p.entries.erase id⟩
    else ⟨p.entries.insert id (awaiting.erase root)⟩

/-- Lets `root` no longer wait for any of `ids`. -/
def removeRoot (p : PendingIndex) (root : RootId) (ids : List BlockId) : PendingIndex :=
  ids.foldl (withdraw root) p

end PendingIndex

end BlockDag
