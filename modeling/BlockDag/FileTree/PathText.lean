/-
Paths as text, with slashes between the names.
-/
import BlockDag.FileTree.Basic

namespace BlockDag.PathText

/-- The names between the slashes. -/
def splitSlashes (chars : List Char) : List (List Char) :=
  chars.foldr (fun c names =>
    if c = '/' then [] :: names
    else
      match names with
      | [] => [[c]]
      | name :: rest => (c :: name) :: rest) [[]]

/-- The names of a path. Slashes that follow one another count as one; a slash at the start leads
to the root of all paths, and one at the end leaves an empty last name. -/
def toPath (text : String) : Path :=
  match (splitSlashes text.toList).map String.ofList with
  | [] | [""] => []
  | first :: rest => first :: rest.dropLast.filter (· ≠ "") ++ rest.getLast?.toList

/-- The text of a path. -/
def ofPath (p : Path) : String := String.intercalate "/" p

/-- The path `rest` seen from `base`. A path from the root stays as it is, and no slash is doubled. -/
def join (base rest : String) : String :=
  if rest.startsWith "/" || base = "" then rest
  else if base.endsWith "/" then base ++ rest
  else base ++ "/" ++ rest

end BlockDag.PathText
