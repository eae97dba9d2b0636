/-
The course of the downloader in single steps. A handler does its work one step at a time: it looks
up a block, judges one, lets a root wait, asks for blocks, ends a download. What it has still to do
stands in a stage, and between events nothing is left to do. Every fact about all states that a
downloader gets into is proved of the steps.
-/
import BlockDag.Proofs.Judging

namespace BlockDag

/-- A report of something wrong in the downloader itself, and not outside: a root that waits for a
block has no download or no shape, more positions are resolved than are outstanding, a tree is given
a second shape, or nobody waits for the blocks to be asked for. -/
def LogEntry.Alarm : LogEntry → Prop
  | .rootUnknown .. | .schemaUnknown .. | .overResolved .. | .schemaKept .. | .nobodyToFetchFor .. => True
  | _ => False

namespace Downloader

variable {ω : Type}

/-- What a handler has still to do. -/
structure Stage where
  /-- Blocks to be judged, the next one first. -/
  queue : List Arrival
  /-- Blocks that somebody was made to wait for, still to be looked up. -/
  unseen : List BlockId
  /-- Blocks to be asked for, where they are still waited for. -/
  wanted : List BlockId
  /-- Children that their roots are still to be made wait for. -/
  owed : List Child
  /-- Roots that the last block judged proves malformed. -/
  doomed : List (RootId × FormatError)

/-- Nothing is left to do. -/
def Stage.idle : Stage := ⟨[], [], [], [], []⟩

/-- The start of handling an event. `Delivers raw` says that the network may deliver `raw`. -/
inductive Opening (W : World ω) (Delivers : Bytes → Prop) : Run ω → Stage → Run ω → Prop
  /-- A root goes in flight; it is looked up unless somebody waits for it already. -/
  | launched {r : Run ω} (root : RootId) (tag : DataTag) (timeout : Nat) :
      ¬ r.state.InFlight root → (W.setStatus root .part r.world).1 = .ok () →
      Opening W Delivers r ⟨[], if r.state.pending.Has root then [] else [root], [], [], []⟩
        (launch root tag timeout (r.call (W.setStatus root .part)).2)
  /-- A block arrives under its name. -/
  | delivered {r : Run ω} (id : BlockId) (raw : Bytes) : id.Names raw → Delivers raw →
      Opening W Delivers r ⟨[⟨id, raw, true⟩], [], [], [], []⟩ r

/-- One step of a handler. -/
inductive Step (W : World ω) (rules : Rules) : Stage → Run ω → Stage → Run ω → Prop
  | logged {σ r} (entry : LogEntry) : ¬ entry.Alarm → Step W rules σ r σ (r.log entry)
  | arranged {σ r} {α : Type} (xs : List α) : Step W rules σ r σ (r.call (W.arrange xs)).2
  | asked {σ r} (root : RootId) : Step W rules σ r σ (r.call (W.getStatus root)).2
  /-- A root that is full already is reported. -/
  | announced {σ r} (root : RootId) : (W.getStatus root r.world).1 = .ok (some .full) →
      Step W rules σ r σ ((r.call (W.getStatus root)).2.notify (.added root))
  | refused {σ r} (root : RootId) (e : StoreError) : (W.setStatus root .part r.world).1 = .error e →
      Step W rules σ r σ (r.call (W.setStatus root .part)).2
  | found {q u w o m r} (id : BlockId) (raw : Bytes) : (W.view id r.world).1 = .ok raw →
      Step W rules ⟨q, id :: u, w, o, m⟩ r ⟨q ++ [⟨id, raw, false⟩], u, w, o, m⟩ (r.call (W.view id)).2
  | missed {q u w o m r} (id : BlockId) (e : StoreError) : (W.view id r.world).1 = .error e →
      Step W rules ⟨q, id :: u, w, o, m⟩ r ⟨q, u, w ++ [id], o, m⟩ (r.call (W.view id)).2
  | discarded {q u w o m r} (a : Arrival) : ¬ r.state.pending.Has a.id →
      Step W rules ⟨a :: q, u, w, o, m⟩ r ⟨q, u, w, o, m⟩ r
  | judged {q w r} (a : Arrival) (awaiting : Awaiting) (p : Pass) : r.state.pending.get? a.id = some awaiting →
      Step W rules ⟨a :: q, [], w, [], []⟩ r
        ⟨q, [], w, (Pass.take W rules a awaiting p r).1.children,
          (Pass.take W rules a awaiting p r).1.malformed⟩
        (Pass.take W rules a awaiting p r).2.2
  | expanded {q w o r} (child : Child) (d : Download) : r.state.roots.get? child.root = some d →
      Step W rules ⟨q, [], w, child :: o, []⟩ r
        ⟨q, if r.state.pending.Has child.id then [] else [child.id], w, o, []⟩ (Pass.await child d r)
  | orphaned {q u w o m r} (child : Child) : r.state.roots.get? child.root = none →
      Step W rules ⟨q, u, w, child :: o, m⟩ r ⟨q, u, w, o, m⟩ r
  /-- Blocks are asked for under the session of a root that waits for one of them. -/
  | fetched {q u w o m r} (root : RootId) (d : Download) (blocks left : List BlockId) :
      root ∈ interested r.state.pending blocks → r.state.roots.get? root = some d →
      (∀ id ∈ blocks, r.state.pending.Has id) →
      (∀ id ∈ w, id ∈ left ∨ id ∈ blocks ∧ (W.fetch d.session (!decide (r.state.Cancelled d.session)) blocks
        r.world).1 = .ok ()) →
      ((W.fetch d.session (!decide (r.state.Cancelled d.session)) blocks r.world).1 = .ok () →
        (blocks ++ left).Subperm w) →
      Step W rules ⟨q, u, w, o, m⟩ r ⟨q, u, left, o, m⟩ (r.fetch W d.session blocks).2
  /-- A block that nobody waits for need not be asked for. -/
  | settled {q u w o m r} (left : List BlockId) : (∀ id ∈ w, r.state.pending.Has id → id ∈ left) → left.Subperm w →
      Step W rules ⟨q, u, w, o, m⟩ r ⟨q, u, left, o, m⟩ r
  | released {q u w o m r} (root : RootId) (d : Download) : r.state.roots.get? root = some d →
      Step W rules ⟨q, u, w, o, m⟩ r ⟨q, u, w ++ d.descendants.toList, o, m⟩ (dismiss root d r)
  | broke {σ r} (root : RootId) (e : FormatError) : (root, e) ∈ σ.doomed →
      Step W rules σ r σ (r.notify (.broken root))
  | spared {q u w o m r} : (∀ x ∈ m, ¬ r.state.InFlight x.1) → Step W rules ⟨q, u, w, o, m⟩ r ⟨q, u, w, o, []⟩ r
  /-- A root that waits for nothing is marked full and goes out of flight. -/
  | completed {w r} (root : RootId) (d : Download) : r.state.roots.get? root = some d → d.Complete →
      Step W rules ⟨[], [], w, [], []⟩ r ⟨[], [], w ++ d.descendants.toList, [], []⟩ (dismiss root d (mark W root r))
  | finished {σ r} (root : RootId) : (∃ m ∈ r.trace, ∃ outcome, m.effect = .marked root outcome) →
      Step W rules σ r σ (r.notify (.added root))

/-- Any number of steps. -/
inductive Leads (W : World ω) (rules : Rules) (σ : Stage) (r : Run ω) : Stage → Run ω → Prop
  | refl : Leads W rules σ r σ r
  | tail {σ' r' σ'' r''} : Leads W rules σ r σ' r' → Step W rules σ' r' σ'' r'' → Leads W rules σ r σ'' r''

/-- What a new downloader gets into, in `world` and with a network that delivers such bytes. -/
inductive Reached (W : World ω) (rules : Rules) (Delivers : Bytes → Prop) (world : ω) : Stage → Run ω → Prop
  | start : Reached W rules Delivers world .idle ⟨world, .initial, []⟩
  | opened {r σ' r'} : Reached W rules Delivers world .idle r → Opening W Delivers r σ' r' →
      Reached W rules Delivers world σ' r'
  | step {σ r σ' r'} : Reached W rules Delivers world σ r → Step W rules σ r σ' r' →
      Reached W rules Delivers world σ' r'

/-- What a downloader gets into from `r` on, in handling one event: it takes steps, and is opened once at
most. -/
inductive Proceeds (W : World ω) (rules : Rules) (Delivers : Bytes → Prop) (r : Run ω) : Stage → Run ω → Prop
  | leads {σ' r'} : Leads W rules .idle r σ' r' → Proceeds W rules Delivers r σ' r'
  | opened {r₀ σ₁ r₁ σ' r'} : Leads W rules .idle r .idle r₀ → Opening W Delivers r₀ σ₁ r₁ →
      Leads W rules σ₁ r₁ σ' r' → Proceeds W rules Delivers r σ' r'

variable {W : World ω} {rules : Rules} {Delivers : Bytes → Prop} {world : ω}
variable {σ σ' σ'' : Stage} {r r' r'' : Run ω}

theorem Leads.single (h : Step W rules σ r σ' r') : Leads W rules σ r σ' r' := .tail .refl h

theorem Leads.trans (h : Leads W rules σ r σ' r') (h' : Leads W rules σ' r' σ'' r'') :
    Leads W rules σ r σ'' r'' := by
  induction h' with
  | refl => exact h
  | tail _ hs ih => exact .tail ih hs

theorem Leads.head (h : Step W rules σ r σ' r') (h' : Leads W rules σ' r' σ'' r'') : Leads W rules σ r σ'' r'' :=
  (Leads.single h).trans h'

theorem Reached.leads (h : Reached W rules Delivers world σ r) (hl : Leads W rules σ r σ' r') :
    Reached W rules Delivers world σ' r' := by
  induction hl with
  | refl => exact h
  | tail _ hs ih => exact .step ih hs

theorem Proceeds.more (h : Proceeds W rules Delivers r σ' r') (hl : Leads W rules σ' r' σ'' r'') :
    Proceeds W rules Delivers r σ'' r'' := by
  cases h with
  | leads h => exact .leads (h.trans hl)
  | opened h ho h' => exact .opened h ho (h'.trans hl)

theorem Proceeds.step (h : Proceeds W rules Delivers r σ' r') (hs : Step W rules σ' r' σ'' r'') :
    Proceeds W rules Delivers r σ'' r'' :=
  h.more (.single hs)

theorem Reached.proceeds (h : Reached W rules Delivers world .idle r) (hp : Proceeds W rules Delivers r σ' r') :
    Reached W rules Delivers world σ' r' := by
  cases hp with
  | leads hl => exact h.leads hl
  | opened hl ho hl' => exact ((h.leads hl).opened ho).leads hl'

theorem Leads.logAll (σ : Stage) (r : Run ω) {entries : List LogEntry} (h : ∀ entry ∈ entries, ¬ entry.Alarm) :
    Leads W rules σ r σ (r.logAll entries) := by
  unfold Run.logAll
  induction entries generalizing r with
  | nil => exact .refl
  | cons e es ih =>
    exact .head (.logged e (h e List.mem_cons_self)) (ih (r.log e) fun entry he => h entry (List.mem_cons_of_mem _ he))

end Downloader

end BlockDag
