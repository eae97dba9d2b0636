/-
The state of a downloader, what it does to the outside while it handles an event, and the two of
them together as a run over a world.
-/
import BlockDag.Download.Pending
import BlockDag.Download.Update
import BlockDag.Download.Verdict
import BlockDag.Downloader.World

namespace BlockDag.Downloader

/-- The downloads in flight, what they wait for, and the sessions they were given. -/
structure State where
  roots : Table RootId Download
  pending : PendingIndex
  /-- How many sessions were opened. -/
  opened : Nat
  /-- The sessions that were cancelled one by one. -/
  cancelled : List SessionId
  /-- After the end, every session is cancelled from the start. -/
  stopped : Bool

namespace State

/-- A new downloader. -/
def initial : State := ⟨[], .empty, 0, [], false⟩

/-- Whether a session is cancelled. -/
def Cancelled (s : State) (session : SessionId) : Prop := s.stopped ∨ session ∈ s.cancelled

instance (s : State) (session : SessionId) : Decidable (s.Cancelled session) :=
  inferInstanceAs (Decidable (s.stopped ∨ session ∈ s.cancelled))

/-- Whether `root` is being downloaded. -/
def InFlight (s : State) (root : RootId) : Prop := s.roots.Has root

instance (s : State) (root : RootId) : Decidable (s.InFlight root) :=
  inferInstanceAs (Decidable (s.roots.Has root))

/-- How many positions are outstanding, over all downloads. -/
def outstanding (s : State) : Nat := s.roots.foldr (fun e n => e.2.outstanding + n) 0

/-- Gives up everything: all sessions are cancelled, nothing is in flight or waited for. -/
def shutdown (s : State) : State := { s with roots := [], pending := .empty, stopped := true }

end State

/-- A call for blocks. -/
structure FetchCall where
  session : SessionId
  blocks : List BlockId
  outcome : Except FetchError Unit

/-- One thing that a downloader did. -/
inductive Effect where
  | logged (entry : LogEntry)
  | notified (update : Update)
  /-- A session was opened for a download, to be given up after `timeout` milliseconds. -/
  | opened (session : SessionId) (root : RootId) (timeout : Nat)
  /-- The download of `root` ended, and its session was cancelled. -/
  | released (session : SessionId) (root : RootId)
  /-- The store was told that `root` is full. -/
  | marked (root : RootId) (outcome : Except StoreError Unit)
  /-- `root` started to wait for the block `id` at `position`. -/
  | awaited (root : RootId) (id : BlockId) (position : Nat)
  /-- A block was judged for those that awaited it. -/
  | judged (id : BlockId) (awaiting : Awaiting) (verdict : Verdict)
  | fetched (call : FetchCall)

/-- An effect, with the world and the state at the time. -/
structure Moment (ω : Type) where
  effect : Effect
  world : ω
  state : State

/-- A downloader at work: the world, its state, and what it did so far, the latest first. -/
structure Run (ω : Type) where
  world : ω
  state : State
  trace : List (Moment ω)

namespace Run

variable {ω : Type}

/-- Adds an effect. -/
def emit (r : Run ω) (e : Effect) : Run ω := { r with trace := ⟨e, r.world, r.state⟩ :: r.trace }

def log (r : Run ω) (entry : LogEntry) : Run ω := r.emit (.logged entry)

def logAll (r : Run ω) (entries : List LogEntry) : Run ω := entries.foldl log r

def notify (r : Run ω) (update : Update) : Run ω := r.emit (.notified update)

/-- Makes one call on the world. -/
def call {α : Type} (r : Run ω) (f : ω → α × ω) : α × Run ω :=
  let (a, w) := f r.world
  (a, { r with world := w })

/-- Sets the state of a download. -/
def setDownload (r : Run ω) (root : RootId) (d : Download) : Run ω :=
  { r with state := { r.state with roots := r.state.roots.insert root d } }

/-- Sets who waits for what. -/
def setPending (r : Run ω) (pending : PendingIndex) : Run ω :=
  { r with state := { r.state with pending } }

/-- Asks the network for `blocks`. -/
def fetch (W : World ω) (session : SessionId) (blocks : List BlockId) (r : Run ω) :
    Except FetchError Unit × Run ω :=
  let live := !decide (r.state.Cancelled session)
  let (outcome, w) := W.fetch session live blocks r.world
  (outcome, { r.emit (.fetched ⟨session, blocks, outcome⟩) with world := w })

end Run

end BlockDag.Downloader
