/-
The positions of a schema's tree in depth-first preorder, and the data of a blob cut along them.
-/
import BlockDag.Bytes
import BlockDag.Schema

namespace BlockDag.Schema

/-- Visits the positions on `stack`, each followed by its subtree; `fuel` bounds the visits. -/
def visit (s : Schema) : (fuel : Nat) → (stack : List Nat) → List Nat
  | 0, _ => []
  | _ + 1, [] => []
  | fuel + 1, ix :: stack => ix :: visit s fuel (s.children ix ++ stack)

/-- All positions, every one before its subtree and the subtrees of siblings in order. -/
def preorder (s : Schema) : List Nat := s.visit s.totalBlocks [0]

/-- Cuts `stream` along `order`: each position takes its share of what is left. -/
def cut (s : Schema) : (order : List Nat) → (stream : Bytes) → List (Nat × Bytes)
  | [], _ => []
  | ix :: order, stream =>
    let (share, rest) := stream.splitAt (s.dataSize ix)
    (ix, share) :: cut s order rest

end BlockDag.Schema
