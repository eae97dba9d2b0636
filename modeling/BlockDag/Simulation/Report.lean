/-
What one step of a simulation shows of a trace, which has the latest effect first: the lines logged,
the news, and the calls for blocks that the network took.
-/
import BlockDag.Downloader.State

namespace BlockDag.Simulation

/-- A call for blocks that the network took. -/
structure Request where
  session : SessionId
  /-- Whether the session went on at the time. -/
  live : Bool
  blocks : List BlockId

/-- Texts in the order of their code points. -/
def sortTexts (texts : List String) : List String := texts.mergeSort fun a b => decide (a ≤ b)

variable {ω : Type}

/-- The lines that a trace logs, sorted. -/
def logLines (trace : List (Downloader.Moment ω)) : List String :=
  sortTexts <| trace.filterMap fun m =>
    match m.effect with
    | .logged entry => some entry.line
    | _ => none

/-- The news of a trace, the earliest first. -/
def news (trace : List (Downloader.Moment ω)) : List Update :=
  trace.reverse.filterMap fun m =>
    match m.effect with
    | .notified update => some update
    | _ => none

/-- The calls of a trace that the network took, the earliest first. -/
def requests (trace : List (Downloader.Moment ω)) : List Request :=
  trace.reverse.filterMap fun m =>
    match m.effect with
    | .fetched call =>
      match call.outcome with
      | .ok () => some ⟨call.session, !decide (m.state.Cancelled call.session), call.blocks⟩
      | .error _ => none
    | _ => none

end BlockDag.Simulation
