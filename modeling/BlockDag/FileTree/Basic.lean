/-
A tree of files, links and directories, and the calls on it that a program makes. Paths are lists of names; a
call follows a path from directory to directory, and on from where a link leads, and fails where it cannot.
-/
import BlockDag.FileTree.Entries

namespace BlockDag

/-- Why a call on the file tree failed. -/
inductive FileError where
  | notFound
  | alreadyExists
  /-- The kind of file cannot be mapped. -/
  | noDevice
  | notDirectory
  | isDirectory
  /-- A name on the path is longer than any name there can be. -/
  | nameTooLong
  /-- More links were met on the way than are followed for one path. -/
  | tooManyLinks
  /-- The file was to be read as text and is not UTF-8. -/
  | notText
  /-- The system had a reason that the tree does not show. -/
  | refused (reason : String)
deriving DecidableEq

/-- The wording. -/
def FileError.message : FileError → String
  | notFound => "No such file or directory (os error 2)"
  | alreadyExists => "File exists (os error 17)"
  | noDevice => "No such device (os error 19)"
  | notDirectory => "Not a directory (os error 20)"
  | isDirectory => "Is a directory (os error 21)"
  | nameTooLong => "File name too long (os error 36)"
  | tooManyLinks => "Too many levels of symbolic links (os error 40)"
  | notText => "stream did not contain valid UTF-8"
  | refused reason => reason

/-- Whether a name has more than 255 bytes, which no file has. -/
def NameTooLong (name : String) : Prop := 255 < name.utf8ByteSize

instance (name : String) : Decidable (NameTooLong name) :=
  inferInstanceAs (Decidable (255 < name.utf8ByteSize))

/-- Whether a path is written with more than 4095 bytes, which no call takes. -/
def PathTooLong (p : Path) : Prop :=
  4095 < p.foldl (fun size name => size + name.utf8ByteSize) (p.length - 1)

instance (p : Path) : Decidable (PathTooLong p) :=
  inferInstanceAs (Decidable (4095 < p.foldl (fun size name => size + name.utf8ByteSize) (p.length - 1)))

/-- Whether a path ends in a slash. -/
def EndsInSlash (p : Path) : Prop := 1 < p.length ∧ p.getLast? = some ""

instance (p : Path) : Decidable (EndsInSlash p) :=
  inferInstanceAs (Decidable (1 < p.length ∧ p.getLast? = some ""))

/-- The path without the slash at its end. -/
def dropSlash (p : Path) : Path := if EndsInSlash p then p.dropLast else p

/-- The names by which a path is followed. A slash at its end asks for a directory, as the name `.` does. -/
def steps (p : Path) : List String := if EndsInSlash p then p.dropLast ++ ["."] else p

/-- The place above, for the name `..`; there is none above the start and the root of all paths. -/
def Place.above (place : Place) : Place := if place = [""] then place else place.dropLast

/-! ## Ways -/

/-- A directory, and the way to it: the directories passed since the directory in which the way began,
the innermost first. -/
structure Way where
  start : Entries
  passed : List (String × Entries)

namespace Way

/-- What is in the directory. -/
def entries (way : Way) : Entries :=
  match way.passed with
  | [] => way.start
  | (_, entries) :: _ => entries

/-- Where the directory is. -/
def place (way : Way) : Place := (way.passed.map (·.1)).reverse

/-- The way on to a directory in this one. -/
def down (way : Way) (name : String) (entries : Entries) : Way :=
  { way with passed := (name, entries) :: way.passed }

/-- The way to the directory above; there is none above the start and the root of all paths. -/
def above (way : Way) : Way :=
  if way.place = [""] then way else { way with passed := way.passed.tail }

/-- Where the path of a link in this directory begins: here, or at the start. -/
def turn (way : Way) (target : Path) : Way :=
  if target.head? = some "" then { way with passed := [] } else way

/-- Follows names to a place. All names but the last have to lead to directories; under the last there may be
anything or nothing. From a link the way goes on by `jump`. -/
def followBy (jump : Way → List String → Except FileError Place) : Way → List String → Except FileError Place
  | way, [] => .ok way.place
  | way, name :: rest =>
    if name = "." then followBy jump way rest
    else if name = ".." then followBy jump way.above rest
    else if NameTooLong name then .error .nameTooLong
    else
      match way.entries.get? name with
      | some (.directory entries) => followBy jump (way.down name entries) rest
      | some (.link target) => jump (way.turn target) (BlockDag.steps target ++ rest)
      | some _ => if rest = [] then .ok (way.place ++ [name]) else .error .notDirectory
      | none => if rest = [] then .ok (way.place ++ [name]) else .error .notFound

/-- Follows names, and no more than `links` links. -/
def follow : (links : Nat) → Way → List String → Except FileError Place
  | 0 => followBy fun _ _ => .error .tooManyLinks
  | links + 1 => followBy (follow links)

end Way

/-- How many links are followed for one path. -/
def maxLinks : Nat := 40

/-! ## Trees -/

/-- The tree of all files: what is in the top directory, in which paths begin, and what is in the files with
several names, by their numbers. An entry without a name is the root of all paths. -/
structure FileTree where
  entries : Entries
  shared : Table Nat Bytes

/-- Whether a node and what may be in another place are names of one file. -/
def FileNode.Shares : FileNode → Option FileNode → Prop
  | .shared number, some (.shared other) => number = other
  | _, _ => False

instance : (node : FileNode) → (other : Option FileNode) → Decidable (node.Shares other)
  | .shared number, some (.shared other) => inferInstanceAs (Decidable (number = other))
  | .file _, _ | .link _, _ | .directory _, _ => .isFalse id
  | .shared _, none | .shared _, some (.file _) | .shared _, some (.link _) | .shared _, some (.directory _) =>
    .isFalse id

/-- What a path leads to in the end. -/
inductive Found where
  | file (content : Bytes)
  | directory (entries : Entries)

namespace FileTree

/-- The tree in which only the top directory and the root of all paths exist. -/
def empty : FileTree := ⟨[("", .directory [])], []⟩

/-- What is at a place. -/
def node? (t : FileTree) (place : Place) : Option FileNode := t.entries.at? place

/-- What is in the file of that number. -/
def content (t : FileTree) (number : Nat) : Bytes := (t.shared.get? number).getD []

/-- What a node is to those who come to it; nobody stops at a link. -/
def found? (t : FileTree) : FileNode → Option Found
  | .file content => some (.file content)
  | .shared number => some (.file (t.content number))
  | .directory entries => some (.directory entries)
  | .link _ => none

/-- The directory that the first names of the path `p` lead to. -/
def enter (t : FileTree) (p : Path) (names : List String) : Except FileError Place :=
  if PathTooLong p then .error .nameTooLong else Way.follow maxLinks ⟨t.entries, []⟩ (names ++ ["."])

/-- The place that `p` names. All names but the last have to lead to directories; at the last there
may be anything or nothing, and if it is a link that is not followed. A path without names leads nowhere. -/
def resolve (t : FileTree) (p : Path) : Except FileError Place := do
  let place ← t.enter p p.dropLast
  match p.getLast? with
  | none => .error .notFound
  | some name =>
    if name = "." ∨ EndsInSlash p then return place
    else if name = ".." then return place.above
    else if NameTooLong name then .error .nameTooLong
    else return place ++ [name]

/-- The place that `p` leads to, with every link followed. -/
def locate (t : FileTree) (p : Path) : Except FileError Place :=
  if p = [] then .error .notFound
  else if PathTooLong p then .error .nameTooLong
  else Way.follow maxLinks ⟨t.entries, []⟩ (steps p)

/-- What `p` leads to. -/
def look (t : FileTree) (p : Path) : Except FileError Found := do
  let place ← t.locate p
  match (t.node? place).bind t.found? with
  | some found => return found
  | none => .error .notFound

/-- Whether `p` leads to anything. -/
def Exists (t : FileTree) (p : Path) : Prop := (t.look p).isOk = true

instance (t : FileTree) (p : Path) : Decidable (t.Exists p) :=
  inferInstanceAs (Decidable ((t.look p).isOk = true))

/-- The content of the file at `p`. -/
def bytes (t : FileTree) (p : Path) : Except FileError Bytes := do
  match ← t.look p with
  | .file content => return content
  | .directory _ => .error .isDirectory

/-- The file at `p` as text. -/
def readText (t : FileTree) (p : Path) : Except FileError String := do
  let content ← t.bytes p
  match Bytes.toString? content with
  | some text => return text
  | none => .error .notText

/-- The content of the file at `p`, mapped into memory. A directory can be opened, but not mapped. -/
def mapped (t : FileTree) (p : Path) : Except FileError Bytes := do
  match ← t.look p with
  | .file content => return content
  | .directory _ => .error .noDevice

/-- The names in the directory `p`; none if it is not one. -/
def names (t : FileTree) (p : Path) : List String :=
  match t.look p with
  | .ok (.directory entries) => entries.map (·.1)
  | _ => []

/-! ## Changes -/

/-- Fills the file at a place. If it has other names, that shows under all of them. -/
def fill (t : FileTree) (place : Place) (content : Bytes) : FileTree :=
  match t.node? place with
  | some (.shared number) => { t with shared := t.shared.insert number content }
  | _ => { t with entries := t.entries.put (.file content) place }

/-- Opens the file at `p` for writing, and tells its place: it is made, or what was in it is gone. A path with
a slash at its end is no place for a file, whatever it leads to. -/
def create (t : FileTree) (p : Path) : Except FileError (Place × FileTree) :=
  if EndsInSlash p then do
    let _ ← t.enter p p.dropLast.dropLast
    .error .isDirectory
  else do
    let place ← t.locate p
    match t.node? place with
    | some (.directory _) => .error .isDirectory
    | _ => return (place, t.fill place [])

/-- Writes the file at `p`, over what may be in it. -/
def write (t : FileTree) (p : Path) (content : Bytes) : Except FileError FileTree := do
  let (place, t) ← t.create p
  return t.fill place content

/-- Moves the file or link at `start` to `goal`, over the one that may be there. Two names of one file stay
what they are. -/
def rename (t : FileTree) (start goal : Path) : Except FileError FileTree := do
  let start ← t.resolve start
  let goal ← t.resolve goal
  match t.node? start, t.node? goal with
  | none, _ => .error .notFound
  | some (.directory _), _ | _, some (.directory _) => .error .isDirectory
  | some node, other =>
    if node.Shares other then return t
    else return { t with entries := (t.entries.remove start).put node goal }

end FileTree

end BlockDag
