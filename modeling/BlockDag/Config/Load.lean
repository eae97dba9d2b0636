/-
Loading a node's settings from its file, and writing that file where there is none.
-/
import BlockDag.Config.Environment
import BlockDag.Config.Record
import BlockDag.Config.Written
import BlockDag.FileTree.MakeDirs
import BlockDag.Toml.Document

namespace BlockDag.Settings

/-- Reads settings from a document. -/
def parse (default : Settings) (text : String) : Option Settings := do
  let entries ← Toml.parse text
  ofItem? default (.table .header entries)

/-- The settings that the file gives, or the defaults if there is none. -/
def read (env : Environment) (tree : FileTree) : Except ConfigError Settings :=
  let path := env.filePath
  let p := PathText.toPath path
  if tree.Exists p then
    match tree.readText p with
    | .error e => .error (.readFailed path e.message)
    | .ok text =>
      match parse env.defaults text with
      | some s => .ok s
      | none => .error (.parseFailed path)
  else .ok env.defaults

/-- Loads settings. Variables take precedence over the file, and settings that make no sense are
refused. -/
def load (env : Environment) (tree : FileTree) : Except ConfigError Settings := do
  let s ← read env tree
  let s := env.override s
  s.downloader.validate
  return s

/-! ## Writing the defaults -/

/-- Why the defaults could not be written: `ε` is what a printer may say. -/
inductive WriteError (ε : Type) where
  | config (e : ConfigError)
  | serializeFailed (cause : ε)

/-- The wording, with that of the printer. -/
def WriteError.message {ε : Type} (wording : ε → String) : WriteError ε → String
  | config e => e.message
  | serializeFailed cause => "failed to serialize: " ++ wording cause

/-- Writes the defaults to the settings' file as `print` puts them, unless there is a file. -/
def writeDefaultBy {ε : Type} (print : Settings → Except ε String) (r : Refusals) (env : Environment)
    (tree : FileTree) : Except (WriteError ε) Unit × FileTree :=
  let path := env.filePath
  let p := PathText.toPath path
  let failed (e : FileError) : WriteError ε := .config (.writeFailed path e.message)
  if tree.Exists p then (.ok (), tree)
  else
    match tree.makeDirsWithin r ((parent? p).getD []) with
    | (.error e, tree) => (.error (failed e), tree)
    | (.ok (), tree) =>
      match print env.defaults with
      | .error cause => (.error (.serializeFailed cause), tree)
      | .ok text =>
        match unlessRefused r.create (tree.create p) with
        | .error e => (.error (failed e), tree)
        | .ok (place, tree) =>
          let tree := tree.fill place (r.written (Bytes.ofString text))
          match r.write with
          | some (_, e) => (.error (failed e), tree)
          | none => (.ok (), tree)

/-- Writes the defaults as a document, where the system refuses nothing. -/
def writeDefault (env : Environment) (tree : FileTree) : Except ConfigError Unit × FileTree :=
  let print (s : Settings) : Except Empty String := .ok s.document
  match writeDefaultBy print .none env tree with
  | (.ok (), tree) => (.ok (), tree)
  | (.error (.config e), tree) => (.error e, tree)
  | (.error (.serializeFailed cause), _) => cause.elim

end BlockDag.Settings
