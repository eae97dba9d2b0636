/-
A store some of whose calls fail on demand. A call that fails changes nothing.
-/
import BlockDag.Store.Basic

namespace BlockDag

/-- A call that can be made to fail. -/
inductive StoreCall where
  | view
  | put
  | getStatus
  | setPart
  | setFull
deriving DecidableEq

namespace StoreCall

/-- The call's word. -/
def word : StoreCall → String
  | view => "view"
  | put => "put"
  | getStatus => "get_status"
  | setPart => "partial"
  | setFull => "full"

def ofWord? (text : String) : Option StoreCall :=
  [view, put, getStatus, setPart, setFull].find? fun call => call.word = text

/-- The call that moves a root to `goal`. -/
def setting : RootStatus → StoreCall
  | .part => setPart
  | .full => setFull

end StoreCall

/-- The calls that fail, each for one id. -/
abbrev Faults := List (StoreCall × BlockId)

namespace Faults

/-- Lets a call on `id` fail, or no longer. -/
def set (faults : Faults) (call : StoreCall) (id : BlockId) (on : Bool) : Faults :=
  let others := faults.filter fun f => decide (f ≠ (call, id))
  if on then (call, id) :: others else others

/-- The failure of a call on `id`, if it fails. -/
def failure? (faults : Faults) (call : StoreCall) (id : BlockId) : Option StoreError :=
  if (call, id) ∈ faults then some (.backend [call.word ++ " fault"]) else none

end Faults

/-- The store `S` with faults in it. -/
def BlockStore.withFaults {σ : Type} (S : BlockStore σ) : BlockStore (σ × Faults) where
  view s id :=
    match s.2.failure? .view id with
    | some e => .error e
    | none => S.view s.1 id
  put s id raw :=
    match s.2.failure? .put id with
    | some e => (.error e, s)
    | none =>
      let (outcome, t) := S.put s.1 id raw
      (outcome, (t, s.2))
  setStatus s root goal :=
    match s.2.failure? (.setting goal) root with
    | some e => (.error e, s)
    | none =>
      let (outcome, t) := S.setStatus s.1 root goal
      (outcome, (t, s.2))
  getStatus s root :=
    match s.2.failure? .getStatus root with
    | some e => .error e
    | none => S.getStatus s.1 root

end BlockDag
