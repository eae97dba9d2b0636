/-
The store that is held in memory. It never fails but for a missing block or a status that cannot
move, and the first bytes put under an id stay.
-/
import BlockDag.Store.Basic
import BlockDag.Table

namespace BlockDag

/-- Blocks by id, and statuses by root. -/
structure MemoryStore where
  blocks : BlockMap Bytes
  statuses : Table RootId RootStatus

namespace MemoryStore

/-- The store with nothing in it. -/
def empty : MemoryStore := ⟨∅, []⟩

/-- How many blocks there are. -/
def size (s : MemoryStore) : Nat := s.blocks.size

/-- Whether the block `id` is there. -/
def Holds (s : MemoryStore) (id : BlockId) : Prop := id ∈ s.blocks

instance (s : MemoryStore) (id : BlockId) : Decidable (s.Holds id) :=
  inferInstanceAs (Decidable (id ∈ s.blocks))

def view (s : MemoryStore) (id : BlockId) : Except StoreError Bytes :=
  match s.blocks[id]? with
  | some raw => .ok raw
  | none => .error (.notFound id)

def put (s : MemoryStore) (id : BlockId) (raw : Bytes) : MemoryStore :=
  { s with blocks := s.blocks.insertIfNew id raw }

/-- The status of `root`, if it has one. -/
def status (s : MemoryStore) (root : RootId) : Option RootStatus := s.statuses.get? root

def setStatus (s : MemoryStore) (root : RootId) (goal : RootStatus) :
    Except StoreError Unit × MemoryStore :=
  if RootStatus.CanMove (s.status root) goal then
    (.ok (), { s with statuses := s.statuses.insert root goal })
  else
    (.error (.statusConflict root (s.status root) goal), s)

/-- The store's operations. -/
def operations : BlockStore MemoryStore where
  view := view
  put s id raw := (.ok (), s.put id raw)
  setStatus := setStatus
  getStatus s root := .ok (s.status root)

/-- The store's operations, with its count. -/
def counted : CountedStore MemoryStore where
  toBlockStore := operations
  size := size
  holds s id := decide (s.Holds id)

end MemoryStore

end BlockDag
