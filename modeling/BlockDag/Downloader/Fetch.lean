/-
Asking for blocks and ending downloads. A fetch goes out under the session of one root that waits
for its blocks; where it fails, every root that waits for them is given up. A root that ends may
leave blocks that others wait for and whose only request went out under its session, so those are
asked for again.
-/
import BlockDag.Downloader.State

namespace BlockDag.Downloader

variable {ω : Type}

/-- The roots that wait for any of `blocks`, each once. -/
def interested (pending : PendingIndex) (blocks : List BlockId) : List RootId :=
  (blocks.flatMap fun id => ((pending.get? id).getD []).keys).eraseDups

/-- Takes `root` out, whose download is `d`: cancels its session and withdraws it from the index. -/
def dismiss (root : RootId) (d : Download) (r : Run ω) : Run ω :=
  let state := { r.state with
    roots := r.state.roots.erase root
    pending := r.state.pending.removeRoot root d.descendants.toList
    cancelled := r.state.cancelled ++ [d.session] }
  { r with state }.emit (.released d.session root)

/-- Ends the download of `root`. Answers its blocks that others still wait for, or nothing if it was
not in flight. -/
def release (W : World ω) (root : RootId) (r : Run ω) : Option (List BlockId) × Run ω :=
  match r.state.roots.get? root with
  | none => (none, r)
  | some d =>
    let (descendants, r) := (dismiss root d r).call (W.arrange d.descendants.toList)
    (some (descendants.filter fun id => r.state.pending.Has id), r)

/-- Ends the downloads of all `roots`, and answers the blocks each left behind. -/
def releaseAll (W : World ω) : List RootId → Run ω → List BlockId × Run ω
  | [], r => ([], r)
  | root :: roots, r =>
    let (left, r) := release W root r
    let (rest, r) := releaseAll W roots r
    (left.getD [] ++ rest, r)

/-- Asks for `blocks`; `fuel` bounds how often a failure can lead to another call. -/
def fetchWithin (W : World ω) : (fuel : Nat) → (blocks : List BlockId) → Run ω → Run ω
  | 0, _, r => r
  | fuel + 1, blocks, r =>
    let (roots, r) := r.call (W.arrange (interested r.state.pending blocks))
    match roots.findSome? fun root => r.state.roots.get? root with
    | none => r.log (.nobodyToFetchFor blocks.length)
    | some d =>
      match r.fetch W d.session blocks with
      | (.ok (), r) => r
      | (.error e, r) =>
        let r := r.log (.fetchFailed blocks.length roots.length e)
        let (left, r) := releaseAll W roots r
        let again := left.filter fun id => r.state.pending.Has id
        if again.isEmpty then r else fetchWithin W fuel again r

/-- Asks for `blocks`. A failed call gives up at least one download, so there are at most as many
calls as downloads in flight, and one more round that finds nobody. -/
def fetch (W : World ω) (blocks : List BlockId) (r : Run ω) : Run ω :=
  fetchWithin W (r.state.roots.length + 1) blocks r

/-- Asks again for those of `blocks` that somebody waits for. -/
def refetch (W : World ω) (blocks : List BlockId) (r : Run ω) : Run ω :=
  let again := blocks.filter fun id => r.state.pending.Has id
  if again.isEmpty then r else fetch W again r

/-- Ends the download of `root` and asks again for what it leaves behind. Answers whether it was
in flight. -/
def free (W : World ω) (root : RootId) (r : Run ω) : Bool × Run ω :=
  match release W root r with
  | (none, r) => (false, r)
  | (some left, r) => (true, refetch W left r)

/-- Tells the store that `root` is full. -/
def mark (W : World ω) (root : RootId) (r : Run ω) : Run ω :=
  let (outcome, r) := r.call (W.setStatus root .full)
  let r := r.emit (.marked root outcome)
  match outcome with
  | .ok () => r
  | .error e => r.log (.notMarkedFull root e)

/-- Ends the download of `root`, which has nothing left to wait for. -/
def complete (W : World ω) (root : RootId) (r : Run ω) : Run ω :=
  let (_, r) := free W root (mark W root r)
  (r.log (.completed root)).notify (.added root)

end BlockDag.Downloader
