/-
What the downloader reports while it works. An entry is a cause with its figures; its line is
written in one place.
-/
import BlockDag.Download.Session
import BlockDag.Format.Error
import BlockDag.Layout
import BlockDag.Store.Basic

namespace BlockDag

/-- How grave an entry is. -/
inductive LogLevel where
  | info
  | warn
  | error
deriving DecidableEq

/-- The level's word. -/
def LogLevel.word : LogLevel → String
  | .info => "INFO"
  | .warn => "WARN"
  | .error => "ERROR"

/-- One report. -/
inductive LogEntry where
  | started (root : RootId) (tag : DataTag)
  | completed (root : RootId)
  | timedOut (root : RootId) (outstanding : Nat)
  | shuttingDown (inFlight : Nat)
  | statusUnreadable (root : RootId) (error : StoreError)
  | lookupFailed (id : BlockId) (error : StoreError)
  /-- The `size` bytes delivered as `id` have another name. -/
  | misnamed (id : BlockId) (size : Nat)
  | notStored (id : BlockId) (error : StoreError)
  | malformed (root : RootId) (id : BlockId) (error : FormatError)
  | notMarkedFull (root : RootId) (error : StoreError)
  | noLimits (root : RootId) (tag : DataTag)
  /-- A fetch of `blocks` blocks failed that `roots` roots were waiting for. -/
  | fetchFailed (blocks roots : Nat) (error : FetchError)
  | nobodyToFetchFor (blocks : Nat)
  | rootUnknown (root : RootId)
  | schemaUnknown (root : RootId) (positions : List Nat)
  | overResolved (root : RootId) (positions outstanding : Nat)
  | schemaKept (root : RootId) (current ignored : Nat)
deriving DecidableEq

namespace LogEntry

def level : LogEntry → LogLevel
  | started .. | completed .. | timedOut .. | shuttingDown .. => .info
  | statusUnreadable .. | lookupFailed .. | misnamed .. | notStored .. | malformed ..
  | notMarkedFull .. | schemaKept .. => .warn
  | noLimits .. | fetchFailed .. | nobodyToFetchFor .. | rootUnknown .. | schemaUnknown ..
  | overResolved .. => .error

/-- What happened, and the figures to it. -/
def text : LogEntry → String
  | started root tag => s!"download started root={root} tag={tag}"
  | completed root => s!"download complete root={root}"
  | timedOut root outstanding => s!"download timed out root={root} outstanding={outstanding}"
  | shuttingDown inFlight => s!"downloader shutting down in_flight={inFlight}"
  | statusUnreadable root error => s!"failed to read root status root={root} error={error.message}"
  | lookupFailed id error => s!"block store lookup failed block={id} error={error.message}"
  | misnamed id size => s!"delivered block does not match its id, discarding block={id} len={size}"
  | notStored id error => s!"failed to store block block={id} error={error.message}"
  | malformed root id error =>
    s!"malformed block, abandoning download root={root} block={id} error={error.message}"
  | notMarkedFull root error => s!"failed to mark root full root={root} error={error.message}"
  | noLimits root tag => s!"no limits configured for tag root={root} tag={tag}"
  | fetchFailed blocks roots error =>
    s!"fetch failed, abandoning downloads blocks={blocks} roots={roots} error={error.message}"
  | nobodyToFetchFor blocks => s!"no in-flight root to fetch blocks for blocks={blocks}"
  | rootUnknown root => s!"block awaited by a root with no download state root={root}"
  | schemaUnknown root positions =>
    s!"non-root position awaited before the schema is known root={root} positions=[" ++
      String.intercalate ", " (positions.map toString) ++ "]"
  | overResolved root positions outstanding =>
    s!"resolved more positions than outstanding root={root} positions={positions} " ++
      s!"outstanding={outstanding}"
  | schemaKept root current ignored =>
    s!"schema already assigned, keeping the first root={root} current={current} ignored={ignored}"

/-- The whole line. -/
def line (e : LogEntry) : String := e.level.word ++ " " ++ e.text

end LogEntry

end BlockDag
