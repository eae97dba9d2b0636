/-
The settings of a node, what can be wrong with them, and the rules of a downloader that they give.
-/
import BlockDag.Download.Verdict
import BlockDag.Table

namespace BlockDag

/-- Why settings could not be had. -/
inductive ConfigError where
  | readFailed (path cause : String)
  | parseFailed (path : String)
  | writeFailed (path cause : String)
  | invalidMaxBlockSize (bytes : Nat)
  | duplicateTag (tag : DataTag)
deriving DecidableEq

/-- The wording. -/
def ConfigError.message : ConfigError → String
  | readFailed path cause => s!"failed to read {path}: {cause}"
  | parseFailed path => s!"failed to parse {path}"
  | writeFailed path cause => s!"failed to write {path}: {cause}"
  | invalidMaxBlockSize bytes =>
    s!"invalid max block size {bytes}: need at least 39 bytes and (size - 2) % 32 >= 5"
  | duplicateTag tag => s!"tag {tag} is configured more than once"

/-- The limits of one kind of payload, as they are set. -/
structure TagSettings where
  tag : DataTag
  /-- The largest payload, in bytes. -/
  maxSize : Nat
  /-- How long a download may take, in seconds. -/
  timeoutSecs : Nat
deriving DecidableEq

/-- What a downloader is set up with. -/
structure DownloaderSettings where
  /-- The largest block, in bytes. -/
  maxBlockSize : Nat
  tags : List TagSettings
deriving DecidableEq

/-- Everything that can be set. -/
structure Settings where
  /-- The directory of the block store. -/
  blockPath : String
  downloader : DownloaderSettings
deriving DecidableEq

namespace TagSettings

def limits (t : TagSettings) : TagLimits := ⟨t.maxSize, 1000 * t.timeoutSecs⟩

end TagSettings

namespace DownloaderSettings

/-- Blocks of 256 KiB, and payloads of up to 64 MiB that may take five minutes. -/
def default : DownloaderSettings := ⟨262144, [⟨.blockBody, 64 * 1024 * 1024, 300⟩]⟩

/-- The block size, if it can hold a blob. -/
def blockSize (s : DownloaderSettings) : Except ConfigError BlockSize :=
  match BlockSize.ofNat? s.maxBlockSize with
  | some size => .ok size
  | none => .error (.invalidMaxBlockSize s.maxBlockSize)

/-- The settings of each tag after those of `known`; a tag comes at most once. -/
def addTags (known : Table DataTag TagSettings) :
    List TagSettings → Except ConfigError (Table DataTag TagSettings)
  | [] => .ok known
  | t :: rest =>
    if known.Has t.tag then .error (.duplicateTag t.tag) else addTags (known.insert t.tag t) rest

/-- The settings of each tag. -/
def tagTable (s : DownloaderSettings) : Except ConfigError (Table DataTag TagSettings) :=
  addTags [] s.tags

/-- The rules that the settings give. The block size is looked at first. -/
def rules (s : DownloaderSettings) : Except ConfigError Rules := do
  let size ← s.blockSize
  let tags ← s.tagTable
  return ⟨size, fun tag => (tags.get? tag).map TagSettings.limits⟩

/-- Whether the settings make sense. -/
def validate (s : DownloaderSettings) : Except ConfigError Unit := do
  let _ ← s.blockSize
  let _ ← s.tagTable
  return ()

end DownloaderSettings

end BlockDag
