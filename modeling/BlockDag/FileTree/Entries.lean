/-
What is in a directory, and in the directories under it: files, links, and directories again. A node is put
in a place, or taken out of it.
-/
import BlockDag.Bytes
import BlockDag.Table

namespace BlockDag

/-- The names of a path, from the top. An empty first name stands for the root of all paths, an
empty last name after others for a slash at the end, the name `.` for the directory itself and `..`
for the one above. -/
abbrev Path := List String

/-- What has a name in a directory. -/
inductive FileNode where
  /-- A file that has no other name. -/
  | file (content : Bytes)
  /-- A file that may have other names, here and elsewhere. What is in it is kept under its number. -/
  | shared (number : Nat)
  /-- A symbolic link, which stands for what its path leads to. -/
  | link (target : Path)
  | directory (entries : List (String × FileNode))

/-- The nodes in a directory by name. -/
abbrev Entries := Table String FileNode

/-- Where a node is: the names of the directories on the way down to it, and then its own. -/
abbrev Place := List String

namespace Entries

/-- What is at a place; without names that is the directory itself. -/
def at? : Entries → Place → Option FileNode
  | entries, [] => some (.directory entries)
  | entries, name :: place =>
    match entries.get? name with
    | some (.directory inner) => at? inner place
    | some node => if place = [] then some node else none
    | none => none

/-- Puts `node` at a place. The directories on the way have to be there. -/
def put (node : FileNode) : Place → Entries → Entries
  | [], entries => entries
  | [name], entries => entries.insert name node
  | name :: next :: place, entries =>
    match entries.get? name with
    | some (.directory inner) => entries.insert name (.directory (put node (next :: place) inner))
    | _ => entries

/-- Takes out what is at a place. -/
def remove : Place → Entries → Entries
  | [], entries => entries
  | [name], entries => entries.erase name
  | name :: next :: place, entries =>
    match entries.get? name with
    | some (.directory inner) => entries.insert name (.directory (remove (next :: place) inner))
    | _ => entries

theorem at?_of_get?_eq {entries others : Entries} {name : String}
    (h : entries.get? name = others.get? name) (place : Place) :
    entries.at? (name :: place) = others.at? (name :: place) := by
  simp only [at?, h]

theorem at?_of_get? {entries : Entries} {name : String} {node : FileNode}
    (h : entries.get? name = some node) : entries.at? [name] = some node := by
  cases node <;> simp [at?, h]

end Entries

end BlockDag
