/-
Settings as a TOML document.
-/
import BlockDag.Config.Settings
import BlockDag.Toml.Text.Printer

namespace BlockDag

/-- Lines of text, each with its end. -/
def linesText (lines : List String) : String := String.join (lines.map (· ++ "\n"))

/-- A pair of a key and a text. -/
def textLine (key text : String) : String := key ++ " = " ++ String.ofList (Toml.Text.write text)

/-- A pair of a key and a number. -/
def numberLine (key : String) (n : Nat) : String := key ++ " = " ++ toString n

/-- The limits of a tag as lines. -/
def TagSettings.lines (t : TagSettings) : List String :=
  ["", "[[downloader.tags]]", textLine "tag" t.tag.name, numberLine "max_size" t.maxSize,
    numberLine "download_timeout_secs" t.timeoutSecs]

/-- The settings of a downloader as lines. Where there is no tag the list of them is written as such. -/
def DownloaderSettings.lines (s : DownloaderSettings) : List String :=
  ["[downloader]", numberLine "max_block_size" s.maxBlockSize] ++
    (if s.tags = [] then ["tags = []"] else s.tags.flatMap TagSettings.lines)

/-- Settings as lines. -/
def Settings.lines (s : Settings) : List String :=
  ["[storage]", textLine "block_path" s.blockPath, ""] ++ s.downloader.lines

/-- Settings as a document. -/
def Settings.document (s : Settings) : String := linesText s.lines

end BlockDag
