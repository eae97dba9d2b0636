/-
A downloader that was shut down is as good as new. Its tables are empty, so what is left of its past
are the sessions opened before, after which it goes on counting, and that every session is cancelled
from the start. It does what a new downloader does in a world that takes no session for a live one.
So what holds of every new downloader in every world holds after a shutdown too.
-/
import BlockDag.Proofs.Run
import Mathlib.Data.List.Induction

namespace BlockDag

/-- The world as it is for a downloader that was shut down after `n` sessions: the next ones have
later numbers, and none of them goes on. -/
def World.after {ω : Type} (W : World ω) (n : Nat) : World ω :=
  { W with fetch := fun session _ blocks w => W.fetch (n + session) false blocks w }

/-- The outside as it is then. -/
def Outside.after {ν : Type} (N : Outside ν) (n : Nat) : Outside ν :=
  { N with fetch := fun session _ blocks w => N.fetch (n + session) false blocks w }

/-- A shutdown is nothing to the store. -/
theorem World.over_after {σ ν : Type} (S : BlockStore σ) (N : Outside ν) (n : Nat) :
    (World.over S N).after n = World.over S (N.after n) := rfl

namespace Downloader

variable {ω : Type}

/-- What is left of a downloader that was shut down. -/
structure Past (ω : Type) where
  opened : Nat
  cancelled : List SessionId
  trace : List (Moment ω)

namespace Past

variable (past : Past ω)

/-! ## A new downloader's data as that of one with a past -/

/-- Sessions are numbered after those of the past. -/
def download (d : Download) : Download := { d with session := past.opened + d.session }

def state (s : State) : State where
  roots := s.roots.map fun e => (e.1, past.download e.2)
  pending := s.pending
  opened := past.opened + s.opened
  cancelled := past.cancelled ++ s.cancelled.map (past.opened + ·)
  stopped := true

def effect : Effect → Effect
  | .opened session root timeout => .opened (past.opened + session) root timeout
  | .released session root => .released (past.opened + session) root
  | .fetched call => .fetched { call with session := past.opened + call.session }
  | e => e

def moment (m : Moment ω) : Moment ω := ⟨past.effect m.effect, m.world, past.state m.state⟩

def run (r : Run ω) : Run ω := ⟨r.world, past.state r.state, r.trace.map past.moment ++ past.trace⟩

/-! ### Tables -/

theorem get?_map (t : Table RootId Download) (root : RootId) :
    Table.get? root (t.map fun e => (e.1, past.download e.2)) = (t.get? root).map past.download := by
  induction t with
  | nil => rfl
  | cons e t ih =>
    obtain ⟨other, d⟩ := e
    rw [List.map_cons, Table.get?, Table.get?]
    split
    · rfl
    · exact ih

theorem insert_map (t : Table RootId Download) (root : RootId) (d : Download) :
    Table.insert root (past.download d) (t.map fun e => (e.1, past.download e.2)) =
      (t.insert root d).map fun e => (e.1, past.download e.2) := by
  induction t with
  | nil => rfl
  | cons e t ih =>
    obtain ⟨other, d'⟩ := e
    rw [List.map_cons, Table.insert, Table.insert]
    split
    · rfl
    · rw [ih, List.map_cons]

theorem erase_map (t : Table RootId Download) (root : RootId) :
    Table.erase root (t.map fun e => (e.1, past.download e.2)) =
      (t.erase root).map fun e => (e.1, past.download e.2) := by
  unfold Table.erase
  rw [List.filter_map]
  rfl

theorem get?_run (r : Run ω) (root : RootId) :
    (past.run r).state.roots.get? root = (r.state.roots.get? root).map past.download :=
  past.get?_map r.state.roots root

theorem inFlight_iff (r : Run ω) (root : RootId) : (past.run r).state.InFlight root ↔ r.state.InFlight root := by
  rw [State.InFlight, State.InFlight, Table.has_iff_get?, Table.has_iff_get?, get?_run, Option.isSome_map]

theorem outstanding_eq (r : Run ω) : (past.run r).state.outstanding = r.state.outstanding :=
  List.foldr_map

/-! ### Small operations -/

@[simp] theorem run_world (r : Run ω) : (past.run r).world = r.world := rfl

@[simp] theorem run_pending (r : Run ω) : (past.run r).state.pending = r.state.pending := rfl

theorem log (r : Run ω) (entry : LogEntry) : (past.run r).log entry = past.run (r.log entry) := rfl

theorem logAll (r : Run ω) (entries : List LogEntry) : (past.run r).logAll entries = past.run (r.logAll entries) := by
  unfold Run.logAll
  induction entries generalizing r with
  | nil => rfl
  | cons e es ih => exact ih (r.log e)

theorem call {α : Type} (r : Run ω) (f : ω → α × ω) : (past.run r).call f = ((r.call f).1, past.run (r.call f).2) := rfl

theorem setDownload (r : Run ω) (root : RootId) (d : Download) :
    (past.run r).setDownload root (past.download d) = past.run (r.setDownload root d) := by
  unfold Run.setDownload run state
  simp only [insert_map]

theorem setPending (r : Run ω) (pending : PendingIndex) :
    (past.run r).setPending pending = past.run (r.setPending pending) := rfl

/-- No session goes on, so the network is asked as in the world after the shutdown. -/
theorem fetch_call (W : World ω) (session : SessionId) (blocks : List BlockId) (r : Run ω) :
    (past.run r).fetch W (past.opened + session) blocks =
      ((r.fetch (W.after past.opened) session blocks).1,
        past.run (r.fetch (W.after past.opened) session blocks).2) := by
  have hdead : (past.run r).state.Cancelled (past.opened + session) := .inl rfl
  unfold Run.fetch
  rw [decide_eq_true hdead]
  rfl

/-! ### Asking for blocks and ending downloads -/

section Fetch

variable (W : World ω)

theorem dismiss (root : RootId) (d : Download) (r : Run ω) :
    Downloader.dismiss root (past.download d) (past.run r) = past.run (Downloader.dismiss root d r) := by
  have hcancelled : past.cancelled ++ r.state.cancelled.map (past.opened + ·) ++ [(past.download d).session] =
      past.cancelled ++ (r.state.cancelled ++ [d.session]).map (past.opened + ·) := by
    rw [List.map_append, List.append_assoc]
    rfl
  unfold Downloader.dismiss run state
  simp only [erase_map, hcancelled]
  rfl

theorem release (root : RootId) (r : Run ω) :
    Downloader.release W root (past.run r) =
      ((Downloader.release (W.after past.opened) root r).1,
        past.run (Downloader.release (W.after past.opened) root r).2) := by
  unfold Downloader.release
  rw [past.get?_run r root]
  cases r.state.roots.get? root with
  | none => rfl
  | some d =>
    dsimp only [Option.map_some]
    rw [past.dismiss root d r]
    rfl

theorem releaseAll (roots : List RootId) (r : Run ω) :
    Downloader.releaseAll W roots (past.run r) =
      ((Downloader.releaseAll (W.after past.opened) roots r).1,
        past.run (Downloader.releaseAll (W.after past.opened) roots r).2) := by
  induction roots generalizing r with
  | nil => rfl
  | cons root roots ih =>
    unfold Downloader.releaseAll
    rw [past.release W root r]
    dsimp only
    rw [ih]

theorem fetchWithin (fuel : Nat) (blocks : List BlockId) (r : Run ω) :
    Downloader.fetchWithin W fuel blocks (past.run r) =
      past.run (Downloader.fetchWithin (W.after past.opened) fuel blocks r) := by
  induction fuel generalizing blocks r with
  | zero => rfl
  | succ fuel ih =>
    rw [Downloader.fetchWithin, Downloader.fetchWithin]
    have hcall := past.call r (W.arrange (interested r.state.pending blocks))
    rw [show (past.run r).state.pending = r.state.pending from rfl, hcall]
    rcases hc : r.call (W.arrange (interested r.state.pending blocks)) with ⟨roots, r₁⟩
    rw [show r.call ((W.after past.opened).arrange (interested r.state.pending blocks)) = (roots, r₁) from hc]
    dsimp only
    -- the same root is found, with the number of its session
    have hfound : (roots.findSome? fun root => (past.run r₁).state.roots.get? root) =
        (roots.findSome? fun root => r₁.state.roots.get? root).map past.download := by
      rw [List.map_findSome?]
      exact congrArg (List.findSome? · roots) (funext fun root => past.get?_run r₁ root)
    rw [hfound]
    cases roots.findSome? fun root => r₁.state.roots.get? root with
    | none => rfl
    | some d =>
      dsimp only [Option.map_some]
      rw [show (past.download d).session = past.opened + d.session from rfl, past.fetch_call W d.session blocks r₁]
      rcases r₁.fetch (W.after past.opened) d.session blocks with ⟨outcome, r₂⟩
      cases outcome with
      | ok _ => rfl
      | error e =>
        dsimp only
        rw [past.log, past.releaseAll W]
        dsimp only
        rw [run_pending]
        split
        · rfl
        · exact ih _ _

theorem fetch (blocks : List BlockId) (r : Run ω) :
    Downloader.fetch W blocks (past.run r) = past.run (Downloader.fetch (W.after past.opened) blocks r) := by
  have hlength : (past.run r).state.roots.length = r.state.roots.length := List.length_map _
  unfold Downloader.fetch
  rw [hlength, past.fetchWithin]

theorem refetch (blocks : List BlockId) (r : Run ω) :
    Downloader.refetch W blocks (past.run r) = past.run (Downloader.refetch (W.after past.opened) blocks r) := by
  unfold Downloader.refetch
  dsimp only
  rw [run_pending]
  split
  · rfl
  · exact past.fetch W _ r

theorem free (root : RootId) (r : Run ω) :
    Downloader.free W root (past.run r) =
      ((Downloader.free (W.after past.opened) root r).1,
        past.run (Downloader.free (W.after past.opened) root r).2) := by
  unfold Downloader.free
  rw [past.release W root r]
  rcases Downloader.release (W.after past.opened) root r with ⟨answer, r₁⟩
  cases answer with
  | none => rfl
  | some left =>
    dsimp only
    rw [past.refetch W left r₁]

theorem mark (root : RootId) (r : Run ω) :
    Downloader.mark W root (past.run r) = past.run (Downloader.mark (W.after past.opened) root r) := by
  unfold Downloader.mark
  rw [past.call r (W.setStatus root .full)]
  rcases hc : r.call (W.setStatus root .full) with ⟨outcome, r₁⟩
  rw [show r.call ((W.after past.opened).setStatus root .full) = (outcome, r₁) from hc]
  cases outcome <;> rfl

theorem complete (root : RootId) (r : Run ω) :
    Downloader.complete W root (past.run r) = past.run (Downloader.complete (W.after past.opened) root r) := by
  unfold Downloader.complete
  rw [past.mark W root r, past.free W root]
  rfl

end Fetch

/-! ### A pass -/

section Pass

variable (W : World ω) (rules : Rules)

theorem judgement (size : Nat) (block : Except FormatError Block) (root : RootId) (state : Option Download)
    (positions : List Nat) : Judgement.ofBlock rules size block root (state.map past.download) positions =
      Judgement.ofBlock rules size block root state positions := by
  cases state with
  | none => rfl
  | some d => rfl

theorem verdict (raw : Bytes) (awaiting : Awaiting) (r : Run ω) :
    Verdict.ofBlock rules raw awaiting (past.run r).state.roots = Verdict.ofBlock rules raw awaiting r.state.roots := by
  unfold Verdict.ofBlock
  dsimp only
  congr 1
  apply List.map_congr_left
  rintro ⟨root, positions⟩ -
  rw [past.get?_run, past.judgement]

theorem resolveAll (awaiting : Awaiting) (p : Pass) (r : Run ω) :
    Pass.resolveAll awaiting p (past.run r) =
      ((Pass.resolveAll awaiting p r).1, past.run (Pass.resolveAll awaiting p r).2) := by
  induction awaiting generalizing p r with
  | nil => rfl
  | cons e awaiting ih =>
    obtain ⟨root, positions⟩ := e
    rw [Pass.resolveAll, Pass.resolveAll]
    rw [past.get?_run r root]
    cases r.state.roots.get? root with
    | none => exact ih p r
    | some d =>
      have hresolved : (past.download d).resolve root positions.length =
          ((d.resolve root positions.length).1, past.download (d.resolve root positions.length).2) := rfl
      dsimp only [Option.map_some]
      rw [hresolved, past.logAll, past.setDownload, ih]

theorem store (a : Arrival) (verdict : Verdict) (r : Run ω) :
    Pass.store W a verdict (past.run r) = past.run (Pass.store (W.after past.opened) a verdict r) := by
  unfold Pass.store
  split
  · rw [past.call r (W.put a.id a.raw)]
    rcases hc : r.call (W.put a.id a.raw) with ⟨outcome, r₁⟩
    rw [show r.call ((W.after past.opened).put a.id a.raw) = (outcome, r₁) from hc]
    cases outcome <;> rfl
  · rfl

theorem assignAll (schemas : List (RootId × Schema)) (r : Run ω) :
    Pass.assignAll schemas (past.run r) = past.run (Pass.assignAll schemas r) := by
  induction schemas generalizing r with
  | nil => rfl
  | cons e schemas ih =>
    obtain ⟨root, schema⟩ := e
    rw [Pass.assignAll, Pass.assignAll]
    rw [past.get?_run r root]
    cases r.state.roots.get? root with
    | none => exact ih r
    | some d =>
      have hassigned : (past.download d).assign root schema =
          ((d.assign root schema).1, past.download (d.assign root schema).2) := by
        unfold Download.assign
        rw [show (past.download d).phase = d.phase from rfl]
        cases d.phase <;> rfl
      dsimp only [Option.map_some]
      rw [hassigned, past.logAll, past.setDownload, ih]

theorem abandonAll (id : BlockId) (doomed : List (RootId × FormatError)) (r : Run ω) :
    Pass.abandonAll W id doomed (past.run r) = past.run (Pass.abandonAll (W.after past.opened) id doomed r) := by
  induction doomed generalizing r with
  | nil => rfl
  | cons x doomed ih =>
    obtain ⟨root, e⟩ := x
    rw [Pass.abandonAll, Pass.abandonAll]
    rw [past.log, past.free W root]
    dsimp only
    rw [← ih]
    split <;> rfl

theorem await (child : Child) (d : Download) (r : Run ω) :
    Pass.await child (past.download d) (past.run r) = past.run (Pass.await child d r) := by
  unfold Pass.await
  dsimp only
  rw [run_pending, past.setPending, show (past.download d).expect child.id = past.download (d.expect child.id) from rfl,
    past.setDownload]
  rfl

theorem expand (child : Child) (p : Pass) (r : Run ω) :
    Pass.expand W child p (past.run r) =
      ((Pass.expand (W.after past.opened) child p r).1, past.run (Pass.expand (W.after past.opened) child p r).2) := by
  unfold Pass.expand
  rw [past.get?_run r child.root]
  cases r.state.roots.get? child.root with
  | none => rfl
  | some d =>
    dsimp only [Option.map_some]
    rw [past.await child d r, run_pending]
    split
    · rfl
    · rw [past.call _ (W.view child.id)]
      rcases hc : (Pass.await child d r).call (W.view child.id) with ⟨outcome, r₁⟩
      rw [show (Pass.await child d r).call ((W.after past.opened).view child.id) = (outcome, r₁) from hc]
      rcases outcome with (e | raw)
      · cases e <;> rfl
      · rfl

theorem expandAll (children : List Child) (p : Pass) (r : Run ω) :
    Pass.expandAll W children p (past.run r) =
      ((Pass.expandAll (W.after past.opened) children p r).1,
        past.run (Pass.expandAll (W.after past.opened) children p r).2) := by
  induction children generalizing p r with
  | nil => rfl
  | cons child children ih =>
    unfold Pass.expandAll
    rw [past.expand W child p r]
    exact ih _ _

theorem judge (a : Arrival) (awaiting : Awaiting) (p : Pass) (r : Run ω) :
    Pass.judge W rules a awaiting p (past.run r) =
      ((Pass.judge (W.after past.opened) rules a awaiting p r).1,
        (Pass.judge (W.after past.opened) rules a awaiting p r).2.1,
        past.run (Pass.judge (W.after past.opened) rules a awaiting p r).2.2) := by
  unfold Pass.judge
  rw [past.call r (W.arrange awaiting)]
  rcases hc : r.call (W.arrange awaiting) with ⟨arranged, r₁⟩
  rw [show r.call ((W.after past.opened).arrange awaiting) = (arranged, r₁) from hc]
  dsimp only
  rw [past.resolveAll arranged p r₁]
  rcases Pass.resolveAll arranged p r₁ with ⟨p₁, r₂⟩
  dsimp only
  rw [past.verdict rules a.raw arranged r₂]
  generalize Verdict.ofBlock rules a.raw arranged r₂.state.roots = v
  rw [show (past.run r₂).emit (.judged a.id arranged v) = past.run (r₂.emit (.judged a.id arranged v)) from rfl,
    past.logAll, past.store W, past.assignAll]

theorem handle_block (a : Arrival) (awaiting : Awaiting) (p : Pass) (r : Run ω) :
    Pass.handle W rules a awaiting p (past.run r) =
      ((Pass.handle (W.after past.opened) rules a awaiting p r).1,
        past.run (Pass.handle (W.after past.opened) rules a awaiting p r).2) := by
  unfold Pass.handle
  rw [past.judge W rules a awaiting p r]
  rcases Pass.judge (W.after past.opened) rules a awaiting p r with ⟨verdict, p₁, r₁⟩
  dsimp only
  rw [past.call r₁ (W.arrange verdict.malformed)]
  rcases hc : r₁.call (W.arrange verdict.malformed) with ⟨doomed, r₂⟩
  rw [show r₁.call ((W.after past.opened).arrange verdict.malformed) = (doomed, r₂) from hc]
  dsimp only
  rw [past.abandonAll W, past.expandAll W]

theorem next (p : Pass) (r : Run ω) :
    Pass.next W rules p (past.run r) =
      (Pass.next (W.after past.opened) rules p r).map fun (p, r) => (p, past.run r) := by
  unfold Pass.next
  rw [run_pending]
  split
  · rfl
  · dsimp only
    split
    · rfl
    · rw [past.setPending, past.handle_block W rules]
      rfl

theorem rounds (fuel : Nat) (p : Pass) (r : Run ω) :
    p.rounds W rules fuel (past.run r) =
      ((p.rounds (W.after past.opened) rules fuel r).1, past.run (p.rounds (W.after past.opened) rules fuel r).2) := by
  induction fuel generalizing p r with
  | zero => rfl
  | succ fuel ih =>
    rw [Pass.rounds, Pass.rounds, past.next W rules p r]
    cases Pass.next (W.after past.opened) rules p r with
    | none => rfl
    | some next => exact ih _ _

theorem completeAll (roots : List RootId) (r : Run ω) :
    Pass.completeAll W roots (past.run r) = past.run (Pass.completeAll (W.after past.opened) roots r) := by
  induction roots generalizing r with
  | nil => rfl
  | cons root roots ih =>
    rw [Pass.completeAll, Pass.completeAll]
    rw [past.get?_run r root]
    cases r.state.roots.get? root with
    | none => exact ih r
    | some d =>
      dsimp only [Option.map_some]
      rw [← ih, past.complete W root r]
      congr 1
      exact (apply_ite past.run _ _ _).symm

theorem finish (p : Pass) (r : Run ω) : p.finish W (past.run r) = past.run (p.finish (W.after past.opened) r) := by
  unfold Pass.finish
  dsimp only
  rw [run_pending, past.fetch W, ← apply_ite past.run, past.call _ (W.arrange p.touched)]
  exact past.completeAll W _ _

theorem process (a : Arrival) (r : Run ω) :
    Downloader.process W rules a (past.run r) = past.run (Downloader.process (W.after past.opened) rules a r) := by
  have hbound : Pass.roundBound (past.run r).state = Pass.roundBound r.state := by
    unfold Pass.roundBound
    rw [past.outstanding_eq]
  unfold Downloader.process
  rw [hbound, past.rounds W rules]
  exact past.finish W _ _

end Pass

/-! ### Events -/

section Events

variable (W : World ω) (rules : Rules)

theorem request (root : RootId) (r : Run ω) :
    Downloader.request W rules root (past.run r) =
      past.run (Downloader.request (W.after past.opened) rules root r) := by
  unfold Downloader.request
  rw [past.call r (W.view root)]
  rcases hc : r.call (W.view root) with ⟨outcome, r₁⟩
  rw [show r.call ((W.after past.opened).view root) = (outcome, r₁) from hc]
  rcases outcome with (e | raw)
  · cases e with
    | notFound id => exact past.fetch W [root] r₁
    | statusConflict | backend =>
      dsimp only
      rw [past.log, past.fetch W]
  · exact past.process W rules _ r₁

theorem launch (root : RootId) (tag : DataTag) (timeout : Nat) (r : Run ω) :
    Downloader.launch root tag timeout (past.run r) = past.run (Downloader.launch root tag timeout r) := by
  have hstart : Download.start root tag (past.opened + r.state.opened + 1) =
      past.download (.start root tag (r.state.opened + 1)) := rfl
  unfold Downloader.launch
  dsimp only
  rw [show (past.run r).state.opened = past.opened + r.state.opened from rfl, hstart,
    show (past.run r).state.roots = r.state.roots.map fun e => (e.1, past.download e.2) from rfl, past.insert_map]
  rfl

theorem decline (root : RootId) (r : Run ω) :
    Downloader.decline W root (past.run r) = past.run (Downloader.decline (W.after past.opened) root r) := by
  unfold Downloader.decline
  rw [past.call r (W.getStatus root)]
  rcases hc : r.call (W.getStatus root) with ⟨outcome, r₁⟩
  rw [show r.call ((W.after past.opened).getStatus root) = (outcome, r₁) from hc]
  rcases outcome with (e | _ | _ | _) <;> rfl

theorem kickoff (root : RootId) (tag : DataTag) (r : Run ω) :
    Downloader.kickoff W rules root tag (past.run r) =
      past.run (Downloader.kickoff (W.after past.opened) rules root tag r) := by
  unfold Downloader.kickoff
  by_cases hin : r.state.InFlight root
  · rw [if_pos hin, if_pos ((past.inFlight_iff r root).2 hin)]
  · rw [if_neg hin, if_neg fun h => hin ((past.inFlight_iff r root).1 h)]
    rcases timeLimit rules root tag with ⟨entries, timeout⟩
    dsimp only
    rw [past.logAll, past.call _ (W.setStatus root .part)]
    rcases hc : (r.logAll entries).call (W.setStatus root .part) with ⟨outcome, r₁⟩
    rw [show (r.logAll entries).call ((W.after past.opened).setStatus root .part) = (outcome, r₁) from hc]
    cases outcome with
    | error e => exact past.decline W root r₁
    | ok _ =>
      dsimp only
      rw [past.launch, run_pending, past.request W rules, ← apply_ite past.run]

theorem deliver (id : BlockId) (raw : Bytes) (r : Run ω) :
    Downloader.deliver W rules id raw (past.run r) =
      past.run (Downloader.deliver (W.after past.opened) rules id raw r) := by
  unfold Downloader.deliver
  split
  · exact past.process W rules _ r
  · rfl

theorem expire (root : RootId) (session : SessionId) (r : Run ω) :
    Downloader.expire W root (past.opened + session) (past.run r) =
      past.run (Downloader.expire (W.after past.opened) root session r) := by
  unfold Downloader.expire
  rw [past.get?_run r root]
  cases r.state.roots.get? root with
  | none => rfl
  | some d =>
    have hsame : (past.download d).session = past.opened + session ↔ d.session = session :=
      Nat.add_right_inj
    dsimp only [Option.map_some]
    by_cases hs : d.session = session
    · rw [if_pos hs, if_pos (hsame.2 hs), past.log, past.free W root]
      rfl
    · rw [if_neg hs, if_neg fun h => hs (hsame.1 h)]

/-- A deadline of a session before the shutdown does nothing. -/
theorem expire_before {session : SessionId} (h : session < past.opened) (root : RootId) (r : Run ω) :
    Downloader.expire W root session (past.run r) = past.run r := by
  unfold Downloader.expire
  rw [past.get?_run r root]
  cases r.state.roots.get? root with
  | none => rfl
  | some d =>
    have hne : (past.download d).session ≠ session :=
      Nat.ne_of_gt (Nat.lt_of_lt_of_le h (Nat.le_add_right past.opened d.session))
    dsimp only [Option.map_some]
    rw [if_neg hne]

/-- The event as a new downloader would see it, if at all. -/
def event? : Event → Option Event
  | .deadline root session =>
    if session < past.opened then none else some (.deadline root (session - past.opened))
  | event => some event

/-- A downloader with a past handles an event as a new one does. -/
theorem handle (event : Event) (r : Run ω) :
    Downloader.handle W rules event (past.run r) =
      past.run (play (W.after past.opened) rules (past.event? event).toList r) := by
  cases event with
  | kickoff root tag => exact past.kickoff W rules root tag r
  | delivered id raw => exact past.deliver W rules id raw r
  | deadline root session =>
    rw [event?]
    by_cases h : session < past.opened
    · rw [if_pos h]
      exact past.expire_before W h root r
    · rw [if_neg h]
      have hsession : past.opened + (session - past.opened) = session := Nat.add_sub_cancel' (Nat.le_of_not_lt h)
      have hexpire := past.expire W root (session - past.opened) r
      rw [hsession] at hexpire
      exact hexpire

end Events

/-! ### What is done -/

section Trace

variable {r r' : Run ω} {P : Moment ω → Prop}

theorem run_trace {new : List (Moment ω)} (hn : r'.trace = new ++ r.trace) :
    (past.run r').trace = new.map past.moment ++ (past.run r).trace := by
  simp only [run, hn, List.map_append, List.append_assoc]

theorem adds (h : Run.Adds (fun m => P (past.moment m)) r r') : Run.Adds P (past.run r) (past.run r') := by
  obtain ⟨new, hn, hp⟩ := h
  refine ⟨new.map past.moment, past.run_trace hn, ?_⟩
  intro m hm
  obtain ⟨m₀, hm₀, rfl⟩ := List.mem_map.1 hm
  exact hp m₀ hm₀

theorem adds_iff (hg : Run.Adds (fun _ => True) r r') :
    Run.Adds P (past.run r) (past.run r') ↔ Run.Adds (fun m => P (past.moment m)) r r' := by
  refine ⟨?_, past.adds⟩
  obtain ⟨new, hn, -⟩ := hg
  rintro ⟨new', hn', hp⟩
  obtain rfl : new' = new.map past.moment := List.append_cancel_right (hn'.symm.trans (past.run_trace hn))
  exact ⟨new, hn, fun m hm => hp _ (List.mem_map_of_mem hm)⟩

theorem shows_iff (hg : Run.Adds (fun _ => True) r r') :
    Run.Shows P (past.run r) (past.run r') ↔ Run.Shows (fun m => P (past.moment m)) r r' := by
  obtain ⟨new, hn, -⟩ := hg
  constructor
  · rintro ⟨new', hn', m, hm, hp⟩
    obtain rfl : new' = new.map past.moment := List.append_cancel_right (hn'.symm.trans (past.run_trace hn))
    obtain ⟨m₀, hm₀, rfl⟩ := List.mem_map.1 hm
    exact ⟨new, hn, m₀, hm₀, hp⟩
  · rintro ⟨new', hn', m, hm, hp⟩
    obtain rfl : new' = new := List.append_cancel_right (hn'.symm.trans hn)
    exact ⟨_, past.run_trace hn, _, List.mem_map_of_mem hm, hp⟩

end Trace

/-- What is left after a shutdown is a new downloader with a past. -/
theorem shutdown (r : Run ω) : ({ r with state := r.state.shutdown } : Run ω) =
    (Past.mk r.state.opened r.state.cancelled r.trace).run ⟨r.world, .initial, []⟩ := by
  unfold run state State.shutdown
  simp [State.initial]

end Past

/-! ## Lifetimes -/

variable {W : World ω} {rules : Rules}

theorem history_append (events more : List Event) (world : ω) :
    history W rules (events ++ more) world = play W rules more (history W rules events world) :=
  List.foldl_append

theorem lifetime_append (commands : List Command) (command : Command) (world : ω) :
    lifetime W rules (commands ++ [command]) world = obey W rules command (lifetime W rules commands world) :=
  List.foldl_append

/-- After any commands the downloader stands where a new one stands after some events, in the world as
it is at first or after a shutdown. -/
theorem lifetime_cases (W : World ω) (rules : Rules) (commands : List Command) (world : ω) :
    (∃ events, lifetime W rules commands world = history W rules events world) ∨
      ∃ (past : Past ω) (events : List Event) (world' : ω),
        lifetime W rules commands world = past.run (history (W.after past.opened) rules events world') := by
  induction commands using List.reverseRecOn with
  | nil => exact .inl ⟨[], rfl⟩
  | append_singleton commands command ih =>
    rw [lifetime_append]
    cases command with
    | shutdown => exact .inr ⟨_, [], _, Past.shutdown _⟩
    | event event =>
      rcases ih with ⟨events, heq⟩ | ⟨past, events, world', heq⟩
      · refine .inl ⟨events ++ [event], ?_⟩
        rw [heq, history_append]
        rfl
      · refine .inr ⟨past, events ++ (past.event? event).toList, world', ?_⟩
        rw [heq, obey, past.handle W rules, history_append]

/-- What every moment of a new downloader satisfies, whatever its sessions are numbered, every moment of
a lifetime satisfies. -/
theorem lifetime_trace {P : Moment ω → Prop}
    (hnew : ∀ (W : World ω) events world, ∀ m ∈ (history W rules events world).trace, P m)
    (hpast : ∀ (past : Past ω) m, P m → P (past.moment m)) (commands : List Command) (world : ω) :
    ∀ m ∈ (lifetime W rules commands world).trace, P m := by
  induction commands using List.reverseRecOn with
  | nil => simp [lifetime, obeyAll]
  | append_singleton commands command ih =>
    rw [lifetime_append]
    cases command with
    | shutdown => exact ih
    | event event =>
      rcases lifetime_cases W rules commands world with ⟨events, heq⟩ | ⟨past, events, world', heq⟩
      · have hall := hnew W (events ++ [event]) world
        rw [history_append] at hall
        rw [obey, heq]
        exact hall
      · rw [obey, heq, past.handle, ← history_append]
        intro m hm
        rcases List.mem_append.1 hm with hm | hm
        · obtain ⟨m₀, hm₀, rfl⟩ := List.mem_map.1 hm
          exact hpast past m₀ (hnew _ _ _ m₀ hm₀)
        · refine ih m ?_
          rw [heq]
          exact List.mem_append_right _ hm

end Downloader

end BlockDag
