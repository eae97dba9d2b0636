/-
The events that a downloader handles, one at a time.
-/
import BlockDag.Downloader.Pass

namespace BlockDag.Downloader

variable {ω : Type}

/-- An input of the downloader. -/
inductive Event where
  /-- Download `root`, expecting a payload of kind `tag`. -/
  | kickoff (root : RootId) (tag : DataTag)
  /-- The network delivered `raw` as the block `id`. -/
  | delivered (id : BlockId) (raw : Bytes)
  /-- The time of `root`'s download under `session` is over. -/
  | deadline (root : RootId) (session : SessionId)

/-- Takes the root's block out of the store, or asks for it. -/
def request (W : World ω) (rules : Rules) (root : RootId) (r : Run ω) : Run ω :=
  match r.call (W.view root) with
  | (.ok raw, r) => process W rules ⟨root, raw, false⟩ r
  | (.error (.notFound _), r) => fetch W [root] r
  | (.error e, r) => fetch W [root] (r.log (.lookupFailed root e))

/-- How long a download of this kind may take. A kind without limits has no time at all. -/
def timeLimit (rules : Rules) (root : RootId) (tag : DataTag) : List LogEntry × Nat :=
  match rules.limits tag with
  | some limits => ([], limits.timeout)
  | none => ([.noLimits root tag], 0)

/-- Puts `root` in flight under a new session. The network opens it, but has no choice of its number: that is
the next one, as for every session. -/
def launch (root : RootId) (tag : DataTag) (timeout : Nat) (r : Run ω) : Run ω :=
  let session := r.state.opened + 1
  let state := { r.state with
    opened := session
    roots := r.state.roots.insert root (.start root tag session)
    pending := r.state.pending.insert root root 0 }
  let r := { r with state }.emit (.opened session root timeout)
  (r.emit (.awaited root root 0)).log (.started root tag)

/-- What a root that cannot be marked partial means: one that is full is there already. -/
def decline (W : World ω) (root : RootId) (r : Run ω) : Run ω :=
  match r.call (W.getStatus root) with
  | (.ok (some .full), r) => r.notify (.added root)
  | (.ok _, r) => r
  | (.error e, r) => r.log (.statusUnreadable root e)

/-- Starts the download of a root that is not in flight. -/
def kickoff (W : World ω) (rules : Rules) (root : RootId) (tag : DataTag) (r : Run ω) : Run ω :=
  if r.state.InFlight root then r
  else
    let (entries, timeout) := timeLimit rules root tag
    match (r.logAll entries).call (W.setStatus root .part) with
    | (.error _, r) => decline W root r
    | (.ok (), r) =>
      let waited := decide (r.state.pending.Has root)
      let r := launch root tag timeout r
      if waited then r else request W rules root r

/-- Handles a block from the network; bytes of another name are dropped. -/
def deliver (W : World ω) (rules : Rules) (id : BlockId) (raw : Bytes) (r : Run ω) : Run ω :=
  if id.Names raw then process W rules ⟨id, raw, true⟩ r else r.log (.misnamed id raw.length)

/-- Gives up the download of `root` if it still runs under `session`. -/
def expire (W : World ω) (root : RootId) (session : SessionId) (r : Run ω) : Run ω :=
  match r.state.roots.get? root with
  | none => r
  | some d =>
    if d.session = session then (free W root (r.log (.timedOut root d.outstanding))).2 else r

/-- Handles one event. -/
def handle (W : World ω) (rules : Rules) (event : Event) (r : Run ω) : Run ω :=
  match event with
  | .kickoff root tag => kickoff W rules root tag r
  | .delivered id raw => deliver W rules id raw r
  | .deadline root session => expire W root session r

/-- Handles one event on its own: the trace holds what this event did. -/
def step (W : World ω) (rules : Rules) (event : Event) (world : ω) (state : State) : Run ω :=
  handle W rules event ⟨world, state, []⟩

/-- Handles events one after the other. -/
def play (W : World ω) (rules : Rules) (events : List Event) (r : Run ω) : Run ω :=
  events.foldl (fun r event => handle W rules event r) r

/-- All that a new downloader does in `world` over the events. -/
def history (W : World ω) (rules : Rules) (events : List Event) (world : ω) : Run ω :=
  play W rules events ⟨world, .initial, []⟩

/-- What a downloader is told: to handle an event, or to give up everything. -/
inductive Command where
  | event (event : Event)
  | shutdown

/-- Obeys one command. -/
def obey (W : World ω) (rules : Rules) (command : Command) (r : Run ω) : Run ω :=
  match command with
  | .event event => handle W rules event r
  | .shutdown => { r with state := r.state.shutdown }

/-- Obeys commands one after the other. -/
def obeyAll (W : World ω) (rules : Rules) (commands : List Command) (r : Run ω) : Run ω :=
  commands.foldl (fun r command => obey W rules command r) r

/-- All that a new downloader does in `world` over the commands. -/
def lifetime (W : World ω) (rules : Rules) (commands : List Command) (world : ω) : Run ω :=
  obeyAll W rules commands ⟨world, .initial, []⟩

end BlockDag.Downloader
