/-
Settings from a TOML document. Tables and fields that are not there have their defaults, but a tag's
limits have to be given in full; names that mean nothing here are left aside.
-/
import BlockDag.Config.Settings
import BlockDag.Toml.Item

namespace BlockDag

open Toml (Item)

namespace Toml.Item

/-- The fields of a record with these names, in the order of the names. A record is a table with the
fields under their names, or an array with the fields in order; a date or a time has fields, but none
with a name. -/
def fields? (names : List String) : Item → Option (List (Option Item))
  | .table _ entries => some (names.map fun name => Table.get? name entries)
  | .array items => some (names.mapIdx fun i _ => items[i]?)
  | .tables elements => some (names.mapIdx fun i _ => (elements[i]?).map (Item.table .header))
  | .datetime => some (names.map fun _ => none)
  | _ => none

/-- The items of a list. -/
def items? : Item → Option (List Item)
  | .array items => some items
  | .tables elements => some (elements.map (Item.table .header))
  | _ => none

/-- A text. -/
def text? : Item → Option String
  | .string text => some text
  | _ => none

/-- A number that is not negative. -/
def natural? : Item → Option Nat
  | .integer (.ofNat n) => some n
  | _ => none

/-- Whether an item is a table or an array with nothing in it. -/
def IsVoid : Item → Prop
  | .table _ entries => entries = []
  | .array items => items = []
  | _ => False

instance : (item : Item) → Decidable item.IsVoid
  | .table _ [] => .isTrue rfl
  | .table _ (_ :: _) => .isFalse (by simp [IsVoid])
  | .array [] => .isTrue rfl
  | .array (_ :: _) => .isFalse (by simp [IsVoid])
  | .string _ | .integer _ | .float | .boolean _ | .datetime | .tables _ =>
    .isFalse (by simp [IsVoid])

/-- A tag: its name, or a table in which nothing stands under the name. -/
def tag? : Item → Option DataTag
  | .string name => DataTag.ofName? name
  | .table _ [(name, item)] => if item.IsVoid then DataTag.ofName? name else none
  | _ => none

end Toml.Item

/-- What a field says, or what it is if it is not there. -/
def orDefault {α : Type} (default : α) (read : Item → Option α) : Option Item → Option α
  | some item => read item
  | none => some default

namespace TagSettings

/-- Reads the limits of a tag. -/
def ofItem? (item : Item) : Option TagSettings := do
  match ← item.fields? ["tag", "max_size", "download_timeout_secs"] with
  | [some tag, some maxSize, some timeoutSecs] =>
    return ⟨← tag.tag?, ← maxSize.natural?, ← timeoutSecs.natural?⟩
  | _ => none

end TagSettings

namespace DownloaderSettings

/-- Reads the limits of all tags. -/
def tagsOfItem? (item : Item) : Option (List TagSettings) := do
  (← item.items?).mapM TagSettings.ofItem?

/-- Reads the settings of a downloader. -/
def ofItem? (item : Item) : Option DownloaderSettings := do
  match ← item.fields? ["max_block_size", "tags"] with
  | [maxBlockSize, tags] =>
    return ⟨← orDefault default.maxBlockSize Item.natural? maxBlockSize,
      ← orDefault default.tags tagsOfItem? tags⟩
  | _ => none

end DownloaderSettings

namespace Settings

/-- Reads the directory of the store. -/
def blockPathOfItem? (default : String) (item : Item) : Option String := do
  match ← item.fields? ["block_path"] with
  | [blockPath] => orDefault default Item.text? blockPath
  | _ => none

/-- Reads settings, with those of `default` where there are none. -/
def ofItem? (default : Settings) (item : Item) : Option Settings := do
  match ← item.fields? ["storage", "downloader"] with
  | [storage, downloader] =>
    return ⟨← orDefault default.blockPath (blockPathOfItem? default.blockPath) storage,
      ← orDefault default.downloader DownloaderSettings.ofItem? downloader⟩
  | _ => none

end Settings

end BlockDag
