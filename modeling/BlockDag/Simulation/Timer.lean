/-
Timers on a clock that only moves when it is told to. A timer belongs to a session and is void once
the session is cancelled.
-/
import BlockDag.Downloader.Event

namespace BlockDag.Simulation

/-- The deadline of a download. -/
structure Timer where
  session : SessionId
  root : RootId
  /-- When the time is over, in milliseconds. -/
  due : Nat

namespace Timer

/-- The longest that a timer runs: thirty years. -/
def longest : Nat := 1000 * 86400 * 365 * 30

/-- The last time that a timer can be set for. -/
def lastTime : Nat := 0xFFFFFFFFFFFFFFFD

/-- The end of a `timeout` that starts now. -/
def dueAt (now timeout : Nat) : Nat := min (now + min timeout longest) lastTime

/-- The timers that a run set, in the order of their sessions; `trace` has the latest first. -/
def ofTrace {ω : Type} (now : Nat) (trace : List (Downloader.Moment ω)) : List Timer :=
  trace.reverse.filterMap fun m =>
    match m.effect with
    | .opened session root timeout => some ⟨session, root, dueAt now timeout⟩
    | _ => none

/-- Whether the timer goes off by the time `now`. -/
def Due (t : Timer) (now : Nat) : Prop := t.due ≤ now

instance (t : Timer) (now : Nat) : Decidable (t.Due now) := inferInstanceAs (Decidable (t.due ≤ now))

/-- The event of a timer that goes off. -/
def event (t : Timer) : Downloader.Event := .deadline t.root t.session

end Timer

end BlockDag.Simulation
