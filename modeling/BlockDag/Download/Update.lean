/-
What the outside is told about finished downloads.
-/
import BlockDag.BlockId

namespace BlockDag

/-- How a download ended for the outside. -/
inductive UpdateKind where
  /-- Every block is stored and the root is full. -/
  | added
  /-- The tree is malformed; the download was given up. -/
  | broken
deriving DecidableEq

/-- The kind's word. -/
def UpdateKind.word : UpdateKind → String
  | .added => "added"
  | .broken => "broken"

/-- News about a root. -/
structure Update where
  kind : UpdateKind
  root : RootId
deriving DecidableEq

namespace Update

def added (root : RootId) : Update := ⟨.added, root⟩

def broken (root : RootId) : Update := ⟨.broken, root⟩

/-- The kind's word and the root. -/
def text (u : Update) : String := u.kind.word ++ " " ++ u.root.toHex

end Update

end BlockDag
