/-
A running node: a downloader over a memory store that takes events off one queue, and peers that
answer every call for blocks at once by queueing deliveries. Time passes only between the steps. What a
step queues is handled before the timers that are due when it is done, and a timer that is due when a
wait is over goes off in the next step.
-/
import BlockDag.Simulation.Report
import BlockDag.Simulation.Timer
import BlockDag.Store.Memory
import BlockDag.Store.Resource

namespace BlockDag.Simulation

/-- The other side of the network. -/
structure Peers where
  /-- The blocks they have. -/
  remote : BlockMap Bytes
  /-- Blocks they do not hand out. -/
  withheld : List BlockId
  /-- Bytes they hand out in place of a block. -/
  tampered : Table BlockId Bytes
  /-- Whether they refuse every call. -/
  refusing : Bool
  /-- All blocks they were asked for, latest call first. -/
  asked : List BlockId
  /-- The deliveries not yet handed on. -/
  sent : List Downloader.Event

namespace Peers

/-- Peers that have the blocks `remote`. -/
def having (remote : BlockMap Bytes) : Peers := ⟨remote, [], [], false, [], []⟩

/-- What they hand out for a block. -/
def bytesOf (p : Peers) (id : BlockId) : Option Bytes :=
  if id ∈ p.withheld then none
  else
    match p.tampered.get? id with
    | some raw => some raw
    | none => p.remote[id]?

/-- Answers a call by deliveries in ascending order. -/
def serve (p : Peers) (blocks : List BlockId) : Except FetchError Unit × Peers :=
  if p.refusing then (.error (.transport "peer refused the request"), p)
  else
    let deliveries := (BlockId.sort blocks).filterMap fun id =>
      (p.bytesOf id).map fun raw => Downloader.Event.delivered id raw
    (.ok (), { p with asked := blocks ++ p.asked, sent := p.sent ++ deliveries })

/-- The network made of peers; sets are gone through in the order given. -/
def outside : Outside Peers where
  fetch _ _ blocks p := p.serve blocks
  arrange xs p := (xs, p)
  arrange_perm _ _ := .refl _

end Peers

/-- One step. -/
inductive NodeStep where
  | download (root : RootId)
  | downloadAll (roots : List RootId)
  | deliver (id : BlockId) (raw : Bytes)
  | withhold (id : BlockId)
  | tamper (id : BlockId) (raw : Bytes)
  | refuse
  /-- Undoes what was withheld, tampered with and refused. -/
  | heal
  | sleep (ms : Nat)
  | read (root : RootId)
  | status (root : RootId)
  | requestsFor (id : BlockId)
  | stop

/-- What a step answers by itself. -/
inductive NodeAnswer where
  | nothing
  /-- Whether the queue took the event. -/
  | taken (taken : Bool)
  | takenAll (taken : List Bool)
  | resource (outcome : Except ResourceError Resource)
  | status (status : Option RootStatus)
  | count (n : Nat)

/-- How things stand in a node. -/
structure Node where
  store : MemoryStore
  peers : Peers
  state : Downloader.State
  now : Nat
  /-- The timers that did not go off yet, in the order of their sessions. -/
  timers : List Timer
  /-- Events to be handled, the next one first. -/
  queue : List Downloader.Event

/-- What a step shows. -/
structure NodeReport where
  answer : NodeAnswer
  updates : List Update
  requests : Nat
  stored : Nat
  log : List String

namespace Node

/-- A node with the blocks `localBlocks` and peers with the blocks `remote`. -/
def start (localBlocks remote : BlockMap Bytes) : Node :=
  ⟨⟨localBlocks, []⟩, .having remote, .initial, 0, [], []⟩

/-- What happened in a node, the latest first. -/
abbrev Trace := List (Downloader.Moment (MemoryStore × Peers))

/-- Takes one event off the queue. -/
def handle (rules : Rules) (event : Downloader.Event) (n : Node) : Trace × Node :=
  let W := World.over MemoryStore.operations Peers.outside
  let r := Downloader.step W rules event (n.store, n.peers) n.state
  let peers := r.world.2
  (r.trace, { n with
    store := r.world.1
    peers := { peers with sent := [] }
    state := r.state
    timers := n.timers ++ Timer.ofTrace n.now r.trace
    queue := n.queue ++ peers.sent })

/-- Takes events off the queue until it is empty, at most `count`. -/
def drain (rules : Rules) : (count : Nat) → Node → Trace → Trace × Node
  | 0, n, trace => (trace, n)
  | count + 1, n, trace =>
    match n.queue with
    | [] => (trace, n)
    | event :: queue =>
      let (more, n) := handle rules event { n with queue }
      drain rules count n (more ++ trace)

/-- Lets the timers go off that are due: their events are queued behind the others. A timer is void once
its session is cancelled. -/
def ring (n : Node) : Node :=
  let (due, timers) := n.timers.partition fun t => decide (t.Due n.now)
  let live := due.filter fun t => decide (¬ n.state.Cancelled t.session)
  { n with timers, queue := n.queue ++ live.map Timer.event }

/-- How many events are handled in a row before the timers get their turn. -/
def rowLength : Nat := 128

/-- Lets the timers and the queue take turns until nothing is left to do, at most `fuel` times. -/
def takeTurns (rules : Rules) : (fuel : Nat) → Node → Trace → Trace × Node
  | 0, n, trace => (trace, n)
  | fuel + 1, n, trace =>
    let n := n.ring
    match n.queue with
    | [] => (trace, n)
    | _ :: _ =>
      let (trace, n) := drain rules rowLength n trace
      takeTurns rules fuel n trace

/-- More turns than a queue can lead to: a delivery that leads to further calls resolves a position, and
a call ends a download or asks for blocks that are waited for. -/
def turnBound (n : Node) : Nat :=
  let roots := n.state.roots.length + n.queue.length + n.timers.length + 1
  roots * roots * Downloader.Pass.treeBound

/-- Does everything that is to be done now. -/
def settle (rules : Rules) (n : Node) : Trace × Node := takeTurns rules n.turnBound n []

/-- When the next timer goes off, if one does before the time `limit`. -/
def nextDue (n : Node) (limit : Nat) : Option Nat :=
  (n.timers.filterMap fun t => if t.due < limit then some t.due else none).min?

/-- Lets time pass until `limit`, with a stop wherever a timer goes off before. -/
def elapse (rules : Rules) (limit : Nat) : (fuel : Nat) → Node → Trace → Trace × Node
  | 0, n, trace => (trace, { n with now := limit })
  | fuel + 1, n, trace =>
    match n.nextDue limit with
    | none => (trace, { n with now := limit })
    | some due =>
      let (more, n) := settle rules { n with now := due }
      elapse rules limit fuel n (more ++ trace)

/-- Lets `ms` milliseconds pass, after what is to be done now. Nothing waits longer than a timer runs. -/
def pass (rules : Rules) (ms : Nat) (n : Node) : Trace × Node :=
  let (trace, n) := settle rules n
  elapse rules (n.now + min ms Timer.longest) n.timers.length n trace

/-- Queues an event, unless the node stopped. -/
def send (event : Downloader.Event) (n : Node) : Bool × Node :=
  if n.state.stopped then (false, n) else (true, { n with queue := n.queue ++ [event] })

/-- Queues the downloads of `roots`. -/
def sendAll : List RootId → Node → List Bool × Node
  | [], n => ([], n)
  | root :: roots, n =>
    let (taken, n) := send (.kickoff root .blockBody) n
    let (rest, n) := sendAll roots n
    (taken :: rest, n)

/-- Ends the event loop. A node that stopped before has nothing to end. -/
def stop (n : Node) : Trace × Node :=
  if n.state.stopped then ([], n)
  else
    ([⟨.logged (.shuttingDown n.state.roots.length), (n.store, n.peers), n.state⟩], { n with state := n.state.shutdown, queue := [] })

/-- Does a step, before anything that it queued is handled. -/
def act (rules : Rules) (step : NodeStep) (n : Node) : NodeAnswer × Trace × Node :=
  match step with
  | .download root =>
    let (taken, n) := n.send (.kickoff root .blockBody)
    (.taken taken, [], n)
  | .downloadAll roots =>
    let (taken, n) := n.sendAll roots
    (.takenAll taken, [], n)
  | .deliver id raw =>
    let (taken, n) := n.send (.delivered id raw)
    (.taken taken, [], n)
  | .withhold id => (.nothing, [], { n with peers := { n.peers with withheld := id :: n.peers.withheld } })
  | .tamper id raw =>
    (.nothing, [], { n with peers := { n.peers with tampered := n.peers.tampered.insert id raw } })
  | .refuse => (.nothing, [], { n with peers := { n.peers with refusing := true } })
  | .heal =>
    (.nothing, [], { n with peers := { n.peers with withheld := [], tampered := [], refusing := false } })
  | .sleep ms =>
    let (trace, n) := pass rules ms n
    (.nothing, trace, n)
  | .read root =>
    (.resource (MemoryStore.operations.readResource rules.size root n.store), [], n)
  | .status root => (.status (n.store.status root), [], n)
  | .requestsFor id => (.count (n.peers.asked.count id), [], n)
  | .stop =>
    let (trace, n) := n.stop
    (.nothing, trace, n)

/-- Does a step, lets a millisecond pass, and reports. -/
def step (rules : Rules) (step : NodeStep) (n : Node) : NodeReport × Node :=
  let (answer, trace, n) := act rules step n
  let (rest, n) := pass rules 1 n
  let trace := rest ++ trace
  ({ answer
     updates := news trace
     requests := n.peers.asked.length
     stored := n.store.size
     log := logLines trace }, n)

/-- Does all steps. -/
def run (rules : Rules) : List NodeStep → Node → List NodeReport
  | [], _ => []
  | first :: rest, n =>
    let (report, n) := step rules first n
    report :: run rules rest n

end Node

end BlockDag.Simulation
