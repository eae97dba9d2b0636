/-
One pass over a block that arrived. It resolves the positions that await the block, judges it for
their roots, and expands the children of those for which it is valid. Children that the store has
are handled in the same pass; the others are asked for together at its end, and roots with nothing
left to wait for are completed.
-/
import BlockDag.Downloader.Fetch

namespace BlockDag.Downloader

variable {ω : Type}

/-- A block to be handled. -/
structure Arrival where
  id : BlockId
  raw : Bytes
  /-- Whether it came from the network, and is to be stored if it is valid. -/
  received : Bool

/-- How far a pass is. -/
structure Pass where
  /-- Blocks still to be handled, the next one first. -/
  queue : List Arrival
  /-- Blocks to ask for. -/
  wanted : List BlockId
  /-- Roots that had positions resolved, each once. -/
  touched : List RootId

namespace Pass

/-- The pass over one block. -/
def start (a : Arrival) : Pass := ⟨[a], [], []⟩

/-- Notes that positions of `root` were resolved. -/
def touch (p : Pass) (root : RootId) : Pass :=
  if root ∈ p.touched then p else { p with touched := p.touched ++ [root] }

/-- Resolves the awaited positions of every root in flight. -/
def resolveAll : Awaiting → Pass → Run ω → Pass × Run ω
  | [], p, r => (p, r)
  | (root, positions) :: rest, p, r =>
    match r.state.roots.get? root with
    | none => resolveAll rest p r
    | some d =>
      let (entries, d) := d.resolve root positions.length
      resolveAll rest (p.touch root) ((r.logAll entries).setDownload root d)

/-- Stores a block from the network that is valid for somebody. -/
def store (W : World ω) (a : Arrival) (verdict : Verdict) (r : Run ω) : Run ω :=
  if a.received ∧ verdict.validated ≠ [] then
    match r.call (W.put a.id a.raw) with
    | (.ok (), r) => r
    | (.error e, r) => r.log (.notStored a.id e)
  else r

/-- Gives trees the shapes read off their roots. -/
def assignAll : List (RootId × Schema) → Run ω → Run ω
  | [], r => r
  | (root, schema) :: rest, r =>
    match r.state.roots.get? root with
    | none => assignAll rest r
    | some d =>
      let (entries, d) := d.assign root schema
      assignAll rest ((r.logAll entries).setDownload root d)

/-- Gives up the roots that the block `id` proves malformed. One that was given up already, while
blocks left by another were asked for again, is not reported. -/
def abandonAll (W : World ω) (id : BlockId) : List (RootId × FormatError) → Run ω → Run ω
  | [], r => r
  | (root, e) :: rest, r =>
    let (inFlight, r) := free W root (r.log (.malformed root id e))
    abandonAll W id rest (if inFlight then r.notify (.broken root) else r)

/-- Lets the root of a child, whose download is `d`, wait for it. -/
def await (child : Child) (d : Download) (r : Run ω) : Run ω :=
  let r := r.setPending (r.state.pending.insert child.id child.root child.position)
  let r := r.setDownload child.root (d.expect child.id)
  r.emit (.awaited child.root child.id child.position)

/-- Lets the root of a child wait for it. A child that nobody waited for is looked up: it is
handled in this pass if the store has it, and asked for if not. -/
def expand (W : World ω) (child : Child) (p : Pass) (r : Run ω) : Pass × Run ω :=
  match r.state.roots.get? child.root with
  | none => (p, r)
  | some d =>
    let waited := decide (r.state.pending.Has child.id)
    let r := await child d r
    if waited then (p, r)
    else
      match r.call (W.view child.id) with
      | (.ok raw, r) => ({ p with queue := p.queue ++ [⟨child.id, raw, false⟩] }, r)
      | (.error (.notFound _), r) => ({ p with wanted := p.wanted ++ [child.id] }, r)
      | (.error e, r) => ({ p with wanted := p.wanted ++ [child.id] }, r.log (.lookupFailed child.id e))

def expandAll (W : World ω) : List Child → Pass → Run ω → Pass × Run ω
  | [], p, r => (p, r)
  | child :: rest, p, r =>
    let (p, r) := expand W child p r
    expandAll W rest p r

/-- Judges one block for those that await it: resolves their positions, stores the block if it is
valid for somebody, and gives the trees of which it is the root their shapes. -/
def judge (W : World ω) (rules : Rules) (a : Arrival) (awaiting : Awaiting) (p : Pass) (r : Run ω) :
    Verdict × Pass × Run ω :=
  let (awaiting, r) := r.call (W.arrange awaiting)
  let (p, r) := resolveAll awaiting p r
  let verdict := Verdict.ofBlock rules a.raw awaiting r.state.roots
  let r := (r.emit (.judged a.id awaiting verdict)).logAll verdict.log
  (verdict, p, assignAll verdict.schemas (store W a verdict r))

/-- Handles one block for those that await it: judges it, then gives up the roots that it proves
malformed and lets the others wait for the children. -/
def handle (W : World ω) (rules : Rules) (a : Arrival) (awaiting : Awaiting) (p : Pass) (r : Run ω) :
    Pass × Run ω :=
  let (verdict, p, r) := judge W rules a awaiting p r
  let (malformed, r) := r.call (W.arrange verdict.malformed)
  let r := abandonAll W a.id malformed r
  expandAll W verdict.children p r

/-- One round: handles the next block, unless nobody awaits it. `none` if no block is left. -/
def next (W : World ω) (rules : Rules) (p : Pass) (r : Run ω) : Option (Pass × Run ω) :=
  match p.queue with
  | [] => none
  | a :: queue =>
    let p := { p with queue }
    match r.state.pending.take a.id with
    | (none, _) => some (p, r)
    | (some awaiting, pending) => some (handle W rules a awaiting p (r.setPending pending))

/-- Rounds until no block is left, at most `fuel`. -/
def rounds (W : World ω) (rules : Rules) : (fuel : Nat) → Pass → Run ω → Pass × Run ω
  | 0, p, r => (p, r)
  | fuel + 1, p, r =>
    match next W rules p r with
    | none => (p, r)
    | some (p, r) => rounds W rules fuel p r

/-- Completes those of `roots` that are in flight and wait for nothing. -/
def completeAll (W : World ω) : List RootId → Run ω → Run ω
  | [], r => r
  | root :: rest, r =>
    match r.state.roots.get? root with
    | none => completeAll W rest r
    | some d => completeAll W rest (if d.Complete then complete W root r else r)

/-- The end of a pass: asks for the blocks that are still waited for, then completes roots. -/
def finish (W : World ω) (p : Pass) (r : Run ω) : Run ω :=
  let wanted := p.wanted.filter fun id => r.state.pending.Has id
  let r := if wanted.isEmpty then r else fetch W wanted r
  let (touched, r) := r.call (W.arrange p.touched)
  completeAll W touched r

/-- More blocks than any tree has: a header declares less than 2^32 bytes, and every block but the
root adds at least five. -/
def treeBound : Nat := 0x100000000

/-- Every round after the first handles a block below a position that was outstanding at the start,
and there are no more blocks below a position than its tree has. -/
def roundBound (s : State) : Nat := 1 + treeBound * s.outstanding

end Pass

/-- Handles a block and everything the store has below it. -/
def process (W : World ω) (rules : Rules) (a : Arrival) (r : Run ω) : Run ω :=
  let (p, r) := (Pass.start a).rounds W rules (Pass.roundBound r.state) r
  p.finish W r

end BlockDag.Downloader
