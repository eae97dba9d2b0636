/-
The store that is kept in a directory. A block is the file `blocks/ab/abcd…`, under the first two
digits of its name and then its name; a status is the file `status/abcd…`, which holds the status's
word. Files are written beside their place and then moved there, so that a write is seen whole or
not at all.
-/
import BlockDag.FileTree.MakeDirs
import BlockDag.FileTree.PathText
import BlockDag.Store.Basic
import BlockDag.Text.Blank
import BlockDag.Text.Quoted

namespace BlockDag

/-- A store in the directory `root` of a file tree. -/
structure DirectoryStore where
  tree : FileTree
  root : Path

namespace DirectoryStore

/-- The path `names` further down from the directory `root`; a slash at its end is not doubled. -/
def under (root : Path) (names : List String) : Path := dropSlash root ++ names

/-- The name of the directory that `id` lies in. -/
def shard (id : BlockId) : String := Bytes.hex (id.bytes.take 1)

/-- Where all blocks are. -/
def blocksPath (root : Path) : Path := under root ["blocks"]

/-- Where the block `id` is. -/
def blockPath (root : Path) (id : BlockId) : Path := under root ["blocks", shard id, id.toHex]

/-- Where all statuses are. -/
def statusesPath (root : Path) : Path := under root ["status"]

/-- Where the status of `id` is. -/
def statusPath (root : Path) (id : RootId) : Path := under root ["status", id.toHex]

/-- The failure of a call, with what was being done. -/
def failure (doing : String) (e : FileError) : StoreError := .backend [doing, e.message]

/-- What was being done with a path. -/
def doing (what : String) (p : Path) : String := what ++ ": " ++ PathText.ofPath p

/-- Puts what was being done in front of a failed call. -/
def during {α : Type} (what : String) (p : Path) : Except FileError α → Except StoreError α
  | .ok a => .ok a
  | .error e => .error (failure (doing what p) e)

/-! ## Opening -/

/-- Makes the store's two directories. -/
def openAt (tree : FileTree) (root : Path) : Except StoreError Unit × DirectoryStore :=
  match tree.makeDirs (blocksPath root) with
  | (.error e, tree) => (during "failed to create store dir" (blocksPath root) (.error e), ⟨tree, root⟩)
  | (.ok (), tree) =>
    let (outcome, tree) := tree.makeDirs (statusesPath root)
    (during "failed to create store dir" (statusesPath root) outcome, ⟨tree, root⟩)

/-! ## Writing whole files -/

/-- Writes `content` to the file `name` of the directory `dir`, through the file `name.tmp`. Where it fails the
draft may stay, with no more than a part of the content in it. -/
def writeWhole (tree : FileTree) (r : Refusals) (dir : Path) (name : String) (content : Bytes) :
    Except StoreError Unit × FileTree :=
  let goal := dir ++ [name]
  let draft := dir ++ [name ++ ".tmp"]
  match tree.makeDirsWithin r dir with
  | (.error e, tree) => (during "failed to create dir" dir (.error e), tree)
  | (.ok (), tree) =>
    match unlessRefused r.create (tree.create draft) with
    | .error e => (during "failed to create temp file" draft (.error e), tree)
    | .ok (place, tree) =>
      let tree := tree.fill place (r.written content)
      match r.write, r.sync with
      | some (_, e), _ => (.error (failure "failed to write data" e), tree)
      | none, some e => (.error (failure "failed to sync to disk" e), tree)
      | none, none =>
        match unlessRefused r.rename (tree.rename draft goal) with
        | .error e =>
          (.error (failure ("failed to rename " ++ PathText.ofPath draft ++ " to " ++
            PathText.ofPath goal) e), tree)
        | .ok tree => (.ok (), tree)

/-! ## The four operations -/

/-- Whether there is anything in the block's place. -/
def Holds (s : DirectoryStore) (id : BlockId) : Prop := s.tree.Exists (blockPath s.root id)

instance (s : DirectoryStore) (id : BlockId) : Decidable (s.Holds id) :=
  inferInstanceAs (Decidable (s.tree.Exists (blockPath s.root id)))

def view (s : DirectoryStore) (id : BlockId) : Except StoreError Bytes :=
  let p := blockPath s.root id
  if s.Holds id then during "failed to mmap block" p (s.tree.mapped p)
  else .error (.notFound id)

def put (s : DirectoryStore) (r : Refusals) (id : BlockId) (raw : Bytes) :
    Except StoreError Unit × DirectoryStore :=
  if s.Holds id then (.ok (), s)
  else
    let (outcome, tree) := writeWhole s.tree r (blocksPath s.root ++ [shard id]) id.toHex raw
    (outcome, { s with tree })

/-- Reads a status file's text, white space around the word left aside. -/
def parseStatus (p : Path) (text : String) : Except StoreError RootStatus :=
  match RootStatus.ofWord? (Text.trim text) with
  | some status => .ok status
  | none =>
    .error (.backend ["unknown status " ++ Text.quote (Text.trim text) ++ " in " ++ PathText.ofPath p])

def getStatus (s : DirectoryStore) (root : RootId) : Except StoreError (Option RootStatus) :=
  let p := statusPath s.root root
  if s.tree.Exists p then do
    let text ← during "failed to read status" p (s.tree.readText p)
    let status ← parseStatus p text
    return some status
  else .ok none

def setStatus (s : DirectoryStore) (r : Refusals) (root : RootId) (goal : RootStatus) :
    Except StoreError Unit × DirectoryStore :=
  match s.getStatus root with
  | .error e => (.error e, s)
  | .ok start =>
    if RootStatus.CanMove start goal then
      let (outcome, tree) := writeWhole s.tree r (statusesPath s.root) root.toHex (Bytes.ofString goal.word)
      (outcome, { s with tree })
    else
      (.error (.statusConflict root start goal), s)

/-- How many entries the directories below `blocks` have. -/
def count (s : DirectoryStore) : Nat :=
  ((s.tree.names (blocksPath s.root)).flatMap fun name =>
    s.tree.names (blocksPath s.root ++ [name])).length

/-- The store's operations, where the system refuses nothing. -/
def operations : BlockStore DirectoryStore where
  view := view
  put s := s.put .none
  setStatus s := s.setStatus .none
  getStatus := getStatus

/-- The store's operations, with its count. -/
def counted : CountedStore DirectoryStore where
  toBlockStore := operations
  size := count
  holds s id := decide (s.Holds id)

end DirectoryStore

end BlockDag
