/-
What a block store answers, and when it refuses. A store is given by its four operations on its
contents; reading changes nothing, and a write that is refused says what the contents are then.
-/
import BlockDag.BlockId
import BlockDag.Store.Status

namespace BlockDag

/-- Why a store refused. -/
inductive StoreError where
  | notFound (id : BlockId)
  | statusConflict (root : RootId) (start : Option RootStatus) (goal : RootStatus)
  /-- The storage below failed; the causes, outermost first. -/
  | backend (causes : List String)
deriving DecidableEq

/-- The wording. -/
def StoreError.message : StoreError → String
  | notFound id => s!"block {id} not found"
  | statusConflict root start goal =>
    s!"status of {root} cannot move from {RootStatus.showOption start} to {goal.label}"
  | backend causes => "storage backend failure: " ++ String.intercalate ": " causes

/-- The operations of a store with contents `σ`. -/
structure BlockStore (σ : Type) where
  /-- The bytes of a block. -/
  view : σ → BlockId → Except StoreError Bytes
  /-- Stores a block; a block that is there stays as it is. -/
  put : σ → BlockId → Bytes → Except StoreError Unit × σ
  /-- Moves a root to a status, if it can move there. -/
  setStatus : σ → RootId → RootStatus → Except StoreError Unit × σ
  getStatus : σ → RootId → Except StoreError (Option RootStatus)

/-- A store whose contents can be counted. -/
structure CountedStore (σ : Type) extends BlockStore σ where
  /-- How many blocks there are. -/
  size : σ → Nat
  /-- Whether a block is there. -/
  holds : σ → BlockId → Bool

end BlockDag
