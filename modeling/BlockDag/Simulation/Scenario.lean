/-
A downloader over a store with faults and a network that only takes notes. A scenario is a list of
steps; every step tells what it did. The network answers nothing by itself: blocks are delivered by
the steps.
-/
import BlockDag.Simulation.Report
import BlockDag.Simulation.Timer
import BlockDag.Store.Faulty
import BlockDag.Store.Resource

namespace BlockDag.Simulation

/-- Which calls the network refuses. -/
structure Refusals where
  /-- Every call. -/
  all : Bool
  /-- Calls that ask for one of these. -/
  blocks : List BlockId
  /-- Calls under a cancelled session. -/
  strict : Bool

namespace Refusals

/-- The network's answer to a call. -/
def answer (r : Refusals) (session : SessionId) (live : Bool) (blocks : List BlockId) :
    Except FetchError Unit :=
  if r.all ∨ ∃ id ∈ blocks, id ∈ r.blocks then .error (.transport "link down")
  else if r.strict ∧ !live then .error (.cancelled session)
  else .ok ()

/-- The network that answers so, and goes through sets in the order given. -/
def outside : Outside Refusals where
  fetch session live blocks r := (r.answer session live blocks, r)
  arrange xs r := (xs, r)
  arrange_perm _ _ := .refl _

end Refusals

/-- One step. -/
inductive Step where
  /-- Hands an event to the downloader. -/
  | event (event : Downloader.Event)
  /-- Answers the calls not yet answered, as far as `blocks` go. -/
  | pump (blocks : BlockMap Bytes)
  | put (id : BlockId) (raw : Bytes)
  | putAll (blocks : List NamedBlock)
  | setStatus (root : RootId) (goal : RootStatus)
  /-- Moves the clock. -/
  | advance (ms : Nat)
  /-- Replaces what the network refuses. -/
  | refuse (all : Bool) (blocks : List BlockId)
  | fault (call : StoreCall) (id : BlockId) (on : Bool)
  /-- Nobody hears the news from here on. -/
  | dropUpdates
  | shutdown
  | read (root : RootId)
  | status (root : RootId)
  | query (ids : List BlockId)

/-- What a step answers by itself. -/
inductive Answer where
  | nothing
  | written (outcome : Except StoreError Unit)
  | resource (outcome : Except ResourceError Resource)
  | status (outcome : Except StoreError (Option RootStatus))
  /-- For every id, whether it is in flight, waited for, and in the store. -/
  | facts (facts : List (Bool × Bool × Bool))

/-- How things stand in a scenario. -/
structure Scenario (σ : Type) where
  store : σ
  faults : Faults
  refusals : Refusals
  state : Downloader.State
  now : Nat
  /-- The timers that did not go off yet, in the order of their sessions. -/
  timers : List Timer
  /-- The calls that no pump has taken yet, oldest first. -/
  waiting : List Request
  /-- Whether anybody hears the news. -/
  heard : Bool

/-- What a step shows. -/
structure StepReport where
  answer : Answer
  requests : List Request
  updates : List Update
  inFlight : Nat
  pending : Nat
  outstanding : List (RootId × Nat)
  sessions : Nat
  cancelled : List SessionId
  stored : Nat
  log : List String

namespace Scenario

variable {σ : Type}

/-- The start, over a given store. -/
def start (store : σ) (strict : Bool) : Scenario σ :=
  ⟨store, [], ⟨false, [], strict⟩, .initial, 0, [], [], true⟩

/-- What the downloader of a scenario deals with. -/
def world (S : CountedStore σ) : World ((σ × Faults) × Refusals) :=
  World.over S.toBlockStore.withFaults Refusals.outside

/-- What happened in a scenario, the latest first. -/
abbrev Trace (σ : Type) := List (Downloader.Moment ((σ × Faults) × Refusals))

/-- Lets the downloader handle one event. -/
def handle (S : CountedStore σ) (rules : Rules) (event : Downloader.Event) (c : Scenario σ) :
    Trace σ × Scenario σ :=
  let r := Downloader.step (world S) rules event ((c.store, c.faults), c.refusals) c.state
  (r.trace, { c with
    store := r.world.1.1
    state := r.state
    timers := c.timers ++ Timer.ofTrace c.now r.trace
    waiting := c.waiting ++ requests r.trace })

/-- Lets the downloader handle events one after the other. -/
def handleAll (S : CountedStore σ) (rules : Rules) :
    List Downloader.Event → Scenario σ → Trace σ × Scenario σ
  | [], c => ([], c)
  | event :: events, c =>
    let (trace, c) := handle S rules event c
    let (rest, c) := handleAll S rules events c
    (rest ++ trace, c)

/-- Lets the timers that are due go off. -/
def ring (S : CountedStore σ) (rules : Rules) (c : Scenario σ) : Trace σ × Scenario σ :=
  let live := c.timers.filter fun t => !decide (c.state.Cancelled t.session)
  let (due, later) := live.partition fun t => decide (t.Due c.now)
  handleAll S rules (due.map Timer.event) { c with timers := later }

/-- The deliveries that answer a call: the blocks that are given, in the order asked for or in
ascending order. -/
def deliveries (ordered : Bool) (blocks : BlockMap Bytes) (request : Request) :
    List Downloader.Event :=
  (if ordered then request.blocks else BlockId.sort request.blocks).filterMap fun id =>
    blocks[id]?.map fun raw => .delivered id raw

/-- Answers the calls that wait, and those made meanwhile, at most `fuel`. A call whose session is
cancelled by then is passed over. -/
def pump (S : CountedStore σ) (rules : Rules) (ordered : Bool) (blocks : BlockMap Bytes) :
    (fuel : Nat) → Scenario σ → Trace σ → Trace σ × Scenario σ
  | 0, c, trace => (trace, c)
  | fuel + 1, c, trace =>
    match c.waiting with
    | [] => (trace, c)
    | request :: waiting =>
      let c := { c with waiting }
      if c.state.Cancelled request.session then pump S rules ordered blocks fuel c trace
      else
        let (more, c) := handleAll S rules (deliveries ordered blocks request) c
        pump S rules ordered blocks fuel c (more ++ trace)

/-- More calls than the downloads in flight can lead to: every call asks for a block that a root
was made to wait for, or follows the end of a download. -/
def pumpBound (c : Scenario σ) : Nat :=
  c.waiting.length + (c.state.roots.length + 1) * (c.state.roots.length + 1) * Downloader.Pass.treeBound

/-- What is so about a block. -/
def facts (S : CountedStore σ) (c : Scenario σ) (id : BlockId) : Bool × Bool × Bool :=
  (decide (c.state.InFlight id), decide (c.state.pending.Has id), S.holds c.store id)

/-- Does a step, before any timer goes off. Puts, reads and statuses go past the faults. -/
def act (S : CountedStore σ) (rules : Rules) (ordered : Bool) (step : Step) (c : Scenario σ) :
    Answer × Trace σ × Scenario σ :=
  match step with
  | .event event =>
    let (trace, c) := handle S rules event c
    (.nothing, trace, c)
  | .pump blocks =>
    let (trace, c) := pump S rules ordered blocks c.pumpBound c []
    (.nothing, trace, c)
  | .put id raw =>
    let (outcome, store) := S.put c.store id raw
    (.written outcome, [], { c with store })
  | .putAll blocks => (.nothing, [], { c with store := (S.putAll blocks c.store).2 })
  | .setStatus root goal =>
    let (outcome, store) := S.setStatus c.store root goal
    (.written outcome, [], { c with store })
  | .advance ms => (.nothing, [], { c with now := c.now + ms })
  | .refuse all blocks => (.nothing, [], { c with refusals := ⟨all, blocks, c.refusals.strict⟩ })
  | .fault call id on => (.nothing, [], { c with faults := c.faults.set call id on })
  | .dropUpdates => (.nothing, [], { c with heard := false })
  | .shutdown => (.nothing, [], { c with state := c.state.shutdown })
  | .read root => (.resource (S.readResource rules.size root c.store), [], c)
  | .status root => (.status (S.getStatus c.store root), [], c)
  | .query ids => (.facts (ids.map (c.facts S)), [], c)

/-- Does a step, lets the timers go off that are due then, and reports. -/
def step (S : CountedStore σ) (rules : Rules) (ordered : Bool) (step : Step) (c : Scenario σ) :
    StepReport × Scenario σ :=
  let (answer, trace, c) := act S rules ordered step c
  let (rest, c) := ring S rules c
  let trace := rest ++ trace
  let sessions := List.range' 1 c.state.opened
  ({ answer
     requests := requests trace
     updates := if c.heard then news trace else []
     inFlight := c.state.roots.length
     pending := c.state.pending.size
     outstanding := c.state.roots.map fun (root, d) => (root, d.outstanding)
     sessions := c.state.opened
     cancelled := sessions.filter fun s => decide (c.state.Cancelled s)
     stored := S.size c.store
     log := logLines trace }, c)

/-- Does all steps. -/
def run (S : CountedStore σ) (rules : Rules) (ordered : Bool) : List Step → Scenario σ → List StepReport
  | [], _ => []
  | first :: rest, c =>
    let (report, c) := step S rules ordered first c
    report :: run S rules ordered rest c

end Scenario

end BlockDag.Simulation
