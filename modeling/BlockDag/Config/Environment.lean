/-
The variables that a node is started with, and the places and the defaults that they give.
-/
import BlockDag.Config.Settings
import BlockDag.FileTree.PathText

namespace BlockDag

/-- The variables that matter, where they are set. -/
structure Environment where
  /-- The settings' file. -/
  configFile : Option String
  /-- The directory of the block store. -/
  blockPath : Option String
  /-- The largest block. -/
  maxBlockSize : Option String
  /-- Where programs keep their settings. -/
  configHome : Option String
  /-- Where programs keep their data. -/
  dataHome : Option String
  /-- The user's own directory. -/
  home : Option String
deriving DecidableEq

namespace Environment

/-- The variables by their names. -/
def ofVariables (value? : String → Option String) : Environment where
  configFile := value? "CANOPY_CONFIG"
  blockPath := value? "CANOPY_STORAGE__BLOCK_PATH"
  maxBlockSize := value? "CANOPY_DOWNLOADER__MAX_BLOCK_SIZE"
  configHome := value? "XDG_CONFIG_HOME"
  dataHome := value? "XDG_DATA_HOME"
  home := value? "HOME"

/-- The user's own directory. -/
def homeDir (env : Environment) : String := env.home.getD "/tmp"

/-- The directory of a node's settings. -/
def configDir (env : Environment) : String :=
  PathText.join (env.configHome.getD (PathText.join env.homeDir ".config")) "canopy"

/-- The directory of a node's data. -/
def dataDir (env : Environment) : String :=
  PathText.join
    (env.dataHome.getD (PathText.join (PathText.join env.homeDir ".local") "share")) "canopy"

/-- The settings' file. -/
def filePath (env : Environment) : String :=
  env.configFile.getD (PathText.join env.configDir "config.toml")

/-- The settings of a node that has no file for them. -/
def defaults (env : Environment) : Settings := ⟨PathText.join env.dataDir "blocks", .default⟩

/-- A whole number of at most 64 bits, in decimal digits and with a plus in front or not. Larger ones
count as the first that is too large. -/
def number? (text : String) : Option Nat :=
  let digits := match text.toList with
    | '+' :: rest => rest
    | cs => cs
  if digits ≠ [] ∧ digits.all Char.isDigit then
    let n := digits.foldl (fun n c => min (10 * n + (c.toNat - '0'.toNat)) 0x10000000000000000) 0
    if n < 0x10000000000000000 then some n else none
  else none

/-- Settings with the variables that take precedence. A size that is not a number changes nothing. -/
def override (env : Environment) (s : Settings) : Settings where
  blockPath := env.blockPath.getD s.blockPath
  downloader :=
    { s.downloader with
      maxBlockSize := (env.maxBlockSize.bind number?).getD s.downloader.maxBlockSize }

end Environment

end BlockDag
