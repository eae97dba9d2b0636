/-
How downloads go out of flight. Whatever ends a download, and asks again for what it leaves behind,
only takes downloads out and leaves the others as they are. A download that was not to be ended goes
only when a call for blocks was refused, or with the news that its root was added. So a download
that waits for nothing is never left over: between events every root in flight has positions to wait
at, and they are all in the index.
-/
import BlockDag.Proofs.Ledger

namespace BlockDag.Downloader

variable {ω : Type} {W : World ω} {rules : Rules} {Delivers : Bytes → Prop} {world : ω}
variable {r r' r'' : Run ω} {root : RootId}

/-! ## Downloads that are taken out -/

/-- The effect is no call for blocks that was refused. -/
def Effect.Accepted : Effect → Prop
  | .fetched call => call.outcome = .ok ()
  | _ => True

instance : (e : Effect) → Decidable e.Accepted
  | .fetched call => inferInstanceAs (Decidable (call.outcome = .ok ()))
  | .logged _ | .notified _ | .opened .. | .released .. | .marked .. | .awaited .. | .judged .. => .isTrue trivial

def Moment.Accepted (m : Moment ω) : Prop := m.effect.Accepted

instance (m : Moment ω) : Decidable m.Accepted := inferInstanceAs (Decidable m.effect.Accepted)

/-- The news that `root` was added. -/
def Moment.Announces (root : RootId) (m : Moment ω) : Prop := m.effect = .notified (.added root)

/-- A reason for any download, or for that of `root`, to go out of flight: a call was refused, or the
root was added. -/
def Moment.Excuses (root : RootId) (m : Moment ω) : Prop := ¬ m.Accepted ∨ m.Announces root

/-- Downloads are only taken out, and one that is to be kept is so but for a reason. -/
structure Sheds (kept : RootId → Prop) (r r' : Run ω) : Prop where
  grows : Run.Adds (fun _ => True) r r'
  fewer : ∀ {root d}, r'.state.roots.get? root = some d → r.state.roots.get? root = some d
  stays : ∀ {root d}, kept root → r.state.roots.get? root = some d →
    r'.state.roots.get? root = some d ∨ Run.Shows (Moment.Excuses root) r r'

namespace Sheds

variable {kept kept' : RootId → Prop}

theorem of_roots (hg : Run.Adds (fun _ => True) r r') (hr : r'.state.roots = r.state.roots) : Sheds kept r r' :=
  ⟨hg, fun hd => hr ▸ hd, fun _ hd => .inl (hr ▸ hd)⟩

theorem refl (r : Run ω) : Sheds kept r r := .of_roots (.refl rfl) rfl

theorem trans (h : Sheds kept r r') (h' : Sheds kept r' r'') : Sheds kept r r'' := by
  refine ⟨h.grows.trans h'.grows, fun hd => h.fewer (h'.fewer hd), ?_⟩
  intro root d hk hd
  rcases h.stays hk hd with hd' | hshows
  · exact (h'.stays hk hd').imp_right (.earlier h.grows)
  · exact .inr (hshows.later h'.grows)

theorem mono (hk : ∀ root, kept' root → kept root) (h : Sheds kept r r') : Sheds kept' r r' :=
  ⟨h.grows, h.fewer, fun hroot => h.stays (hk _ hroot)⟩

/-- Where there is a reason for everybody, it does not matter who is kept. -/
theorem of_shows (hg : Run.Adds (fun _ => True) r r')
    (hf : ∀ {root d}, r'.state.roots.get? root = some d → r.state.roots.get? root = some d)
    (hr : Run.Shows (¬ ·.Accepted) r r') : Sheds kept r r' :=
  ⟨hg, hf, fun _ _ => .inr (hr.mono fun _ => .inl)⟩

end Sheds

theorem dismiss_sheds (root : RootId) (d : Download) (r : Run ω) : Sheds (· ≠ root) r (dismiss root d r) := by
  refine ⟨dismiss_adds _ _ _ trivial, fun hd => (get?_of_dismiss hd).2, ?_⟩
  intro other e hne he
  exact .inl (Table.get?_erase_eq_some_iff.2 ⟨Ne.symm hne, he⟩)

theorem release_sheds (root : RootId) (r : Run ω) : Sheds (· ≠ root) r (release W root r).2 := by
  unfold release
  split
  · exact .refl r
  · next d _ => exact (dismiss_sheds root d r).trans (.of_roots (.refl rfl) rfl)

theorem releaseAll_sheds (roots : List RootId) (r : Run ω) : Sheds (· ∉ roots) r (releaseAll W roots r).2 := by
  induction roots generalizing r with
  | nil => exact .refl r
  | cons root roots ih =>
    refine ((release_sheds root r).mono ?_).trans ((ih (release W root r).2).mono ?_)
    · rintro other hother rfl
      exact hother List.mem_cons_self
    · intro other hother hm
      exact hother (List.mem_cons_of_mem _ hm)

theorem fetch_refused {session : SessionId} {blocks : List BlockId} {e : FetchError}
    (h : (r.fetch W session blocks).1 = .error e) : Run.Shows (¬ ·.Accepted) r (r.fetch W session blocks).2 := by
  refine ⟨[_], rfl, _, List.mem_singleton_self _, ?_⟩
  intro haccepted
  change (r.fetch W session blocks).1 = .ok () at haccepted
  rw [h] at haccepted
  cases haccepted

/-- Asking for blocks ends downloads only when it is refused. -/
theorem fetchWithin_sheds (fuel : Nat) (blocks : List BlockId) (r : Run ω) :
    Sheds (fun _ => True) r (fetchWithin W fuel blocks r) := by
  induction fuel generalizing blocks r with
  | zero => exact .refl r
  | succ fuel ih =>
    rw [fetchWithin]
    rcases hc₀ : r.call (W.arrange (interested r.state.pending blocks)) with ⟨roots, r₀⟩
    have h₀ : Sheds (fun _ => True) r r₀ := by
      have hcall : Sheds (fun _ => True) r (r.call (W.arrange (interested r.state.pending blocks))).2 :=
        .of_roots (.refl rfl) rfl
      rw [hc₀] at hcall
      exact hcall
    refine h₀.trans ?_
    dsimp only
    split
    · exact .of_roots (.emit trivial) rfl
    · next d _ =>
      have hasked : Run.Adds (fun _ => True) r₀ (r₀.fetch W d.session blocks).2 := .cons rfl trivial
      have hrefused : ∀ e, (r₀.fetch W d.session blocks).1 = .error e →
          Run.Shows (¬ ·.Accepted) r₀ (r₀.fetch W d.session blocks).2 := fun _ => fetch_refused
      have hroots : (r₀.fetch W d.session blocks).2.state.roots = r₀.state.roots := rfl
      rcases hc : r₀.fetch W d.session blocks with ⟨outcome, r₁⟩
      rw [hc] at hasked hrefused hroots
      dsimp only at hasked hrefused hroots ⊢
      cases outcome with
      | ok _ => exact .of_roots hasked hroots
      | error e =>
        have hlogged : Sheds (fun _ => True) r₁ (r₁.log (.fetchFailed blocks.length roots.length e)) :=
          .of_roots (.emit trivial) rfl
        have hrel := releaseAll_sheds (W := W) roots (r₁.log (.fetchFailed blocks.length roots.length e))
        dsimp only
        rcases hc₂ : releaseAll W roots (r₁.log (.fetchFailed blocks.length roots.length e)) with ⟨left, r₂⟩
        rw [hc₂] at hrel
        dsimp only at hrel ⊢
        have hrest : Sheds (fun _ => True) r₂ (if (left.filter fun id => decide (r₂.state.pending.Has id)).isEmpty
            then r₂ else fetchWithin W fuel (left.filter fun id => decide (r₂.state.pending.Has id)) r₂) := by
          split
          · exact .refl _
          · exact ih _ _
        have hgrows := hlogged.grows.trans (hrel.grows.trans hrest.grows)
        refine .of_shows (hasked.trans hgrows) ?_ ((hrefused e rfl).later hgrows)
        intro other d hd
        have := hlogged.fewer (hrel.fewer (hrest.fewer hd))
        rw [hroots] at this
        exact this

theorem fetch_sheds (blocks : List BlockId) (r : Run ω) : Sheds (fun _ => True) r (fetch W blocks r) :=
  fetchWithin_sheds _ blocks r

theorem refetch_sheds (blocks : List BlockId) (r : Run ω) : Sheds (fun _ => True) r (refetch W blocks r) := by
  unfold refetch
  dsimp only
  split
  · exact .refl r
  · exact fetch_sheds _ r

theorem free_sheds (root : RootId) (r : Run ω) : Sheds (· ≠ root) r (free W root r).2 := by
  have hrel := release_sheds (W := W) root r
  unfold free
  rcases hc : release W root r with ⟨answer, r₁⟩
  rw [hc] at hrel
  cases answer with
  | none => exact hrel
  | some left => exact hrel.trans ((refetch_sheds left r₁).mono fun _ _ => trivial)

/-- A download that was ended is out of flight. -/
theorem free_get? (root : RootId) (r : Run ω) : (free W root r).2.state.roots.get? root = none := by
  have hgone := (release_ended (W := W) root r).gone root (List.mem_singleton_self root)
  unfold free
  rcases hc : release W root r with ⟨answer, r₁⟩
  rw [hc] at hgone
  cases answer with
  | none => exact hgone
  | some left =>
    cases hd : (refetch W left r₁).state.roots.get? root with
    | none => rfl
    | some d =>
      have := (refetch_sheds left r₁).fewer hd
      rw [hgone] at this
      cases this

theorem mark_sheds (root : RootId) (r : Run ω) : Sheds (fun _ => True) r (mark W root r) :=
  .of_roots (mark_adds root r W trivial fun _ => trivial) (by rw [mark_state])

/-- Completing a download is news, and the reason for it to go. -/
theorem complete_sheds (root : RootId) (r : Run ω) : Sheds (fun _ => True) r (complete W root r) := by
  have hfree : Sheds (· ≠ root) r (free W root (mark W root r)).2 :=
    ((mark_sheds root r).mono fun _ _ => trivial).trans (free_sheds root (mark W root r))
  have hnews : Sheds (fun _ => True) (free W root (mark W root r)).2 (complete W root r) :=
    .of_roots ((Run.Adds.emit trivial).trans (.emit trivial)) rfl
  refine ⟨hfree.grows.trans hnews.grows, fun hd => hfree.fewer (hnews.fewer hd), ?_⟩
  intro other d _ hd
  by_cases hr : other = root
  · subst hr
    refine .inr (.earlier (hfree.grows.trans (.emit trivial)) (.emit (.inr rfl)))
  · exact (hfree.trans (hnews.mono fun _ _ => trivial)).stays hr hd

theorem complete_get? (root : RootId) (r : Run ω) : (complete W root r).state.roots.get? root = none :=
  free_get? root (mark W root r)

namespace Pass

theorem abandonAll_sheds (id : BlockId) (doomed : List (RootId × FormatError)) (r : Run ω) :
    Sheds (fun root => ∀ e, (root, e) ∉ doomed) r (abandonAll W id doomed r) := by
  induction doomed generalizing r with
  | nil => exact .refl r
  | cons x doomed ih =>
    obtain ⟨root, e⟩ := x
    rw [abandonAll]
    have hlog : Sheds (· ≠ root) r (r.log (.malformed root id e)) := .of_roots (.emit trivial) rfl
    have hfree := hlog.trans (free_sheds (W := W) root (r.log (.malformed root id e)))
    rcases hc : free W root (r.log (.malformed root id e)) with ⟨inFlight, r₁⟩
    rw [hc] at hfree
    dsimp only at hfree ⊢
    have hnews : Sheds (· ≠ root) r₁ (if inFlight then r₁.notify (.broken root) else r₁) := by
      split
      · exact .of_roots (.emit trivial) rfl
      · exact .refl r₁
    refine ((hfree.trans hnews).mono ?_).trans ((ih _).mono ?_)
    · rintro other hother rfl
      exact hother e List.mem_cons_self
    · intro other hother e hm
      exact hother e (List.mem_cons_of_mem _ hm)

theorem completeAll_sheds (roots : List RootId) (r : Run ω) : Sheds (fun _ => True) r (completeAll W roots r) := by
  induction roots generalizing r with
  | nil => exact .refl r
  | cons root roots ih =>
    rw [completeAll]
    split
    · exact ih r
    · refine Sheds.trans ?_ (ih _)
      split
      · exact complete_sheds root r
      · exact .refl r

theorem finish_sheds (p : Pass) (r : Run ω) : Sheds (fun _ => True) r (p.finish W r) := by
  have hcall : Sheds (fun _ => True) (refetch W p.wanted r) ((refetch W p.wanted r).call (W.arrange p.touched)).2 :=
    .of_roots (.refl rfl) rfl
  exact (refetch_sheds p.wanted r).trans (hcall.trans (completeAll_sheds _ _))

end Pass

/-! ## Nothing is left over -/

/-- Every root in flight has something to wait for. -/
def State.Busy (s : State) : Prop := ∀ root d, s.roots.get? root = some d → ¬ d.Complete

theorem Sheds.busy {kept : RootId → Prop} (h : Sheds kept r r') (hb : r.state.Busy) : r'.state.Busy :=
  fun root d hd => hb root d (h.fewer hd)

namespace Pass

/-- A root that has nothing left to wait for is one that the pass touched. -/
def Covers (p : Pass) (s : State) : Prop := ∀ root d, s.roots.get? root = some d → d.Complete → root ∈ p.touched

variable {p : Pass}

theorem Covers.sheds {kept : RootId → Prop} (h : Sheds kept r r') (hc : p.Covers r.state) : p.Covers r'.state :=
  fun root d hd => hc root d (h.fewer hd)

theorem mem_touch {other : RootId} : other ∈ (p.touch root).touched ↔ other = root ∨ other ∈ p.touched := by
  unfold touch
  split
  · next hm =>
    constructor
    · exact .inr
    · rintro (rfl | h)
      · exact hm
      · exact h
  · rw [List.mem_append, List.mem_singleton, or_comm]

theorem resolveAll_covers (awaiting : Awaiting) (p : Pass) (r : Run ω) (hc : p.Covers r.state) :
    (resolveAll awaiting p r).1.Covers (resolveAll awaiting p r).2.state := by
  induction awaiting generalizing p r with
  | nil => exact hc
  | cons e awaiting ih =>
    obtain ⟨root, positions⟩ := e
    rw [resolveAll]
    split
    · exact ih p r hc
    · refine ih _ _ ?_
      intro other d hd hcomplete
      rcases Table.get?_insert_eq_some_iff.1 hd with ⟨rfl, -⟩ | ⟨-, hd⟩
      · exact mem_touch.2 (.inl rfl)
      · rw [Run.logAll_state] at hd
        exact mem_touch.2 (.inr (hc other d hd hcomplete))

theorem assignAll_covers (schemas : List (RootId × Schema)) (r : Run ω) (hc : p.Covers r.state) :
    p.Covers (assignAll schemas r).state := by
  induction schemas generalizing r with
  | nil => exact hc
  | cons e schemas ih =>
    obtain ⟨root, schema⟩ := e
    rw [assignAll]
    split
    · exact ih r hc
    · next d hd =>
      refine ih _ ?_
      have houtstanding : (d.assign root schema).2.outstanding = d.outstanding := by
        unfold Download.assign
        split <;> rfl
      intro other d' hd' hcomplete
      rcases Table.get?_insert_eq_some_iff.1 hd' with ⟨rfl, rfl⟩ | ⟨-, hd'⟩
      · exact hc root d hd (houtstanding.symm.trans hcomplete)
      · rw [Run.logAll_state] at hd'
        exact hc other d' hd' hcomplete

theorem judge_covers (rules : Rules) (a : Arrival) (awaiting : Awaiting) (p : Pass) (r : Run ω)
    (hc : p.Covers r.state) : (judge W rules a awaiting p r).2.1.Covers (judge W rules a awaiting p r).2.2.state := by
  have hres := resolveAll_covers (W.arrange awaiting r.world).1 p (r.call (W.arrange awaiting)).2 hc
  refine assignAll_covers _ _ ?_
  rw [store_state, Run.logAll_state, Run.emit_state]
  exact hres

theorem expand_covers (child : Child) (p : Pass) (r : Run ω) (hc : p.Covers r.state) :
    (expand W child p r).1.Covers (expand W child p r).2.state := by
  unfold expand
  split
  · exact hc
  · next d hd =>
    have hawait : p.Covers (await child d r).state := by
      intro root d' hd' hcomplete
      rcases Table.get?_insert_eq_some_iff.1 hd' with ⟨-, rfl⟩ | ⟨-, hd'⟩
      · exact absurd hcomplete (Nat.succ_ne_zero _)
      · exact hc root d' hd' hcomplete
    dsimp only
    split
    · exact hawait
    · have hstate := Run.call_state (await child d r) (W.view child.id)
      rcases hcall : (await child d r).call (W.view child.id) with ⟨outcome, r₁⟩
      rw [hcall] at hstate
      dsimp only at hstate
      rw [← hstate] at hawait
      rcases outcome with (e | raw)
      · cases e <;> exact hawait
      · exact hawait

theorem expandAll_covers (children : List Child) (p : Pass) (r : Run ω) (hc : p.Covers r.state) :
    (expandAll W children p r).1.Covers (expandAll W children p r).2.state := by
  induction children generalizing p r with
  | nil => exact hc
  | cons child children ih => exact ih _ _ (expand_covers child p r hc)

theorem handle_covers (rules : Rules) (a : Arrival) (awaiting : Awaiting) (p : Pass) (r : Run ω)
    (hc : p.Covers r.state) :
    (handle W rules a awaiting p r).1.Covers (handle W rules a awaiting p r).2.state := by
  exact expandAll_covers _ _ _ (Covers.sheds (abandonAll_sheds _ _ _) (judge_covers (W := W) rules a awaiting p r hc))

/-- What one round keeps, the rounds keep. -/
theorem rounds_next {C : Pass → Run ω → Prop}
    (hnext : ∀ {p r p' r'}, C p r → next W rules p r = some (p', r') → C p' r') (fuel : Nat) {p : Pass} {r : Run ω}
    (h : C p r) : C (p.rounds W rules fuel r).1 (p.rounds W rules fuel r).2 := by
  induction fuel generalizing p r with
  | zero => exact h
  | succ fuel ih =>
    rw [rounds]
    cases hn : next W rules p r with
    | none => exact h
    | some next => exact ih (hnext h hn)

/-- What the handling of a block keeps, whatever is queued, the rounds keep. -/
theorem rounds_keep {C : Pass → Run ω → Prop} (hqueue : ∀ {p : Pass} {r : Run ω} (queue : List Arrival), C p r →
      C { p with queue } r)
    (hhandle : ∀ {p : Pass} {r : Run ω} (a : Arrival) (awaiting : Awaiting) (pending : PendingIndex), C p r →
      C (handle W rules a awaiting p (r.setPending pending)).1 (handle W rules a awaiting p (r.setPending pending)).2)
    (fuel : Nat) {p : Pass} {r : Run ω} (h : C p r) :
    C (p.rounds W rules fuel r).1 (p.rounds W rules fuel r).2 := by
  refine rounds_next ?_ fuel h
  intro p r p' r' h hn
  obtain ⟨a, queue, -, ⟨-, rfl, rfl⟩ | ⟨awaiting, -, hh⟩⟩ := next_cases hn
  · exact hqueue queue h
  · have := hhandle a awaiting (r.state.pending.without a.id) (hqueue queue h)
    rw [hh] at this
    exact this

theorem rounds_covers (rules : Rules) (fuel : Nat) (hc : p.Covers r.state) :
    (p.rounds W rules fuel r).1.Covers (p.rounds W rules fuel r).2.state := by
  refine rounds_keep (C := fun p r => p.Covers r.state) ?_ ?_ fuel hc
  · intro p r queue hc
    exact hc
  · intro p r a awaiting pending hc
    exact handle_covers rules a awaiting p (r.setPending pending) hc

/-- All that have nothing left to wait for are completed. -/
theorem completeAll_busy (roots : List RootId) (r : Run ω)
    (hc : ∀ root d, r.state.roots.get? root = some d → d.Complete → root ∈ roots) :
    (completeAll W roots r).state.Busy := by
  induction roots generalizing r with
  | nil =>
    intro root d hd hcomplete
    cases hc root d hd hcomplete
  | cons root roots ih =>
    rw [completeAll]
    cases hd : r.state.roots.get? root with
    | none =>
      refine ih r ?_
      intro other d ho hcomplete
      rcases List.mem_cons.1 (hc other d ho hcomplete) with rfl | hm
      · rw [hd] at ho
        cases ho
      · exact hm
    | some d =>
      refine ih _ ?_
      intro other d' ho hcomplete
      split at ho
      · next hdone =>
        rcases List.mem_cons.1 (hc other d' ((complete_sheds root r).fewer ho) hcomplete) with rfl | hm
        · rw [complete_get?] at ho
          cases ho
        · exact hm
      · next hmore =>
        rcases List.mem_cons.1 (hc other d' ho hcomplete) with rfl | hm
        · rw [hd] at ho
          cases ho
          exact absurd hcomplete hmore
        · exact hm

theorem finish_busy (p : Pass) (r : Run ω) (hc : p.Covers r.state) : (p.finish W r).state.Busy := by
  refine completeAll_busy _ _ ?_
  intro root d hd hcomplete
  exact (W.arrange_perm p.touched _).mem_iff.2 (Covers.sheds (refetch_sheds p.wanted r) hc root d hd hcomplete)

end Pass

theorem process_busy (rules : Rules) (a : Arrival) (hb : r.state.Busy) : (process W rules a r).state.Busy :=
  Pass.finish_busy _ _ (Pass.rounds_covers rules _ fun root d hd hcomplete => absurd hcomplete (hb root d hd))

section Events

theorem request_busy (rules : Rules) (root : RootId) (hb : r.state.Busy) : (request W rules root r).state.Busy := by
  have hstate := Run.call_state r (W.view root)
  unfold request
  rcases hc : r.call (W.view root) with ⟨outcome, r₁⟩
  rw [hc] at hstate
  dsimp only at hstate
  rw [← hstate] at hb
  rcases outcome with (e | raw)
  · cases e with
    | notFound id => exact (fetch_sheds [root] r₁).busy hb
    | statusConflict | backend => exact (fetch_sheds [root] (r₁.log _)).busy hb
  · exact process_busy rules _ hb

theorem decline_state (root : RootId) (r : Run ω) : (decline W root r).state = r.state := by
  have hstate := Run.call_state r (W.getStatus root)
  unfold decline
  rcases hc : r.call (W.getStatus root) with ⟨outcome, r₁⟩
  rw [hc] at hstate
  rcases outcome with (e | _ | _ | _)
  all_goals exact hstate

/-- A root that was just put in flight waits for its root block. -/
theorem launch_busy (root : RootId) (tag : DataTag) (timeout : Nat) (hb : r.state.Busy) :
    (launch root tag timeout r).state.Busy := by
  intro other d hd
  rcases Table.get?_insert_eq_some_iff.1 hd with ⟨-, rfl⟩ | ⟨-, hd⟩
  · exact Nat.one_ne_zero
  · exact hb other d hd

theorem kickoff_busy (rules : Rules) (root : RootId) (tag : DataTag) (hb : r.state.Busy) :
    (kickoff W rules root tag r).state.Busy := by
  unfold kickoff
  split
  · exact hb
  · rcases timeLimit rules root tag with ⟨entries, timeout⟩
    have hstate := Run.call_state (r.logAll entries) (W.setStatus root .part)
    dsimp only
    rcases hc : (r.logAll entries).call (W.setStatus root .part) with ⟨outcome, r₁⟩
    rw [hc, Run.logAll_state] at hstate
    dsimp only at hstate ⊢
    rw [← hstate] at hb
    cases outcome with
    | error e =>
      dsimp only
      rw [decline_state]
      exact hb
    | ok _ =>
      have hlaunch : (launch root tag timeout r₁).state.Busy := launch_busy root tag timeout hb
      dsimp only
      split
      · exact hlaunch
      · exact request_busy rules root hlaunch

theorem handle_busy (rules : Rules) (event : Event) (hb : r.state.Busy) : (handle W rules event r).state.Busy := by
  cases event with
  | kickoff root tag => exact kickoff_busy rules root tag hb
  | delivered id raw =>
    rw [handle, deliver]
    split
    · exact process_busy rules _ hb
    · exact hb
  | deadline root session =>
    rw [handle, expire]
    split
    · exact hb
    · next d _ =>
      split
      · exact (free_sheds root (r.log (.timedOut root d.outstanding))).busy hb
      · exact hb

theorem play_busy (rules : Rules) (events : List Event) (hb : r.state.Busy) : (play W rules events r).state.Busy := by
  induction events generalizing r with
  | nil => exact hb
  | cons event events ih => exact ih (handle_busy rules event hb)

/-- Between events no root in flight is left with nothing to wait for. -/
theorem history_busy (W : World ω) (rules : Rules) (events : List Event) (world : ω) :
    (history W rules events world).state.Busy :=
  play_busy rules events (by simp [State.Busy, State.initial, Table.get?])

end Events

/-! ## The books between events -/

/-- The counts, the blocks asked for and the pending index agree, and nothing in them is empty. -/
structure State.Balanced (s : State) : Prop where
  counted : ∀ root d, s.roots.get? root = some d →
    d.outstanding = (s.pending.waits root).length ∧ (s.pending.waits root).Nodup
  busy : ∀ root d, s.roots.get? root = some d → 1 ≤ d.outstanding
  asked : ∀ root d, s.roots.get? root = some d → ∀ id ix, (id, ix) ∈ s.pending.waits root → id ∈ d.descendants
  requested : ∀ root d, s.roots.get? root = some d → (d.phase = .requested ↔ s.pending.waits root = [(root, 0)])
  entries : ∀ id awaiting, s.pending.get? id = some awaiting →
    awaiting ≠ [] ∧ ∀ root positions, (root, positions) ∈ awaiting → positions ≠ [] ∧ s.InFlight root

/-- No root waits twice for one block at one position. -/
theorem Reached.nodup_waits (h : Reached W rules Delivers world .idle r) {d : Download}
    (hd : r.state.roots.get? root = some d) : (r.state.pending.waits root).Nodup :=
  h.ledger.nodup_waits h.books hd

/-- A root whose shape is unknown waits for its root block, and a root that does so and waits for
nothing else has no shape. -/
theorem Reached.requested_iff (h : Reached W rules Delivers world .idle r) {d : Download}
    (hd : r.state.roots.get? root = some d) : d.phase = .requested ↔ r.state.pending.waits root = [(root, 0)] := by
  have htiled := h.ledger.tiled root d hd (by simp [Stage.idle])
  have hopen : ∀ {id ix}, r.state.pending.waits root = [(id, ix)] → Open [] r.state root id ix := by
    intro id ix hwaits
    left
    rw [← PendingIndex.mem_waits, hwaits]
    exact List.mem_singleton_self _
  constructor
  · intro hphase
    rw [hphase] at htiled
    cases htiled with
    | requested _ _ hw _ =>
      obtain ⟨⟨id, ix⟩, hwaits, rfl⟩ := List.map_eq_singleton_iff.1 hw
      obtain ⟨rfl, -⟩ := h.books.requested hd hphase (hopen hwaits)
      exact hwaits
  · intro hwaits
    cases hphase : d.phase with
    | requested => rfl
    | expanding t =>
      -- a root whose shape is known does not wait for its root block
      have hpos := (h.books.expanding hd hphase).2.2 (hopen hwaits)
      exact absurd hpos.1 (Nat.lt_irrefl 0)

/-- After every event the books are balanced, whatever the store and the network do. -/
theorem history_balanced (W : World ω) (rules : Rules) (events : List Event) (world : ω) :
    (history W rules events world).state.Balanced := by
  have hr := history_reached W rules events world
  have hb := hr.books
  have hbusy := history_busy W rules events world
  constructor
  · intro root d hd
    exact ⟨hb.account hd, hr.nodup_waits hd⟩
  · intro root d hd
    exact Nat.pos_of_ne_zero (hbusy root d hd)
  · intro root d hd id ix hm
    obtain ⟨d', hd', hid⟩ := hb.waiter (List.ne_nil_of_mem (PendingIndex.mem_waits.1 hm))
    obtain rfl : d = d' := Option.some.inj (hd.symm.trans hd')
    exact hid
  · intro root d hd
    exact hr.requested_iff hd
  · intro id awaiting ha
    constructor
    · exact (hb.pending _ _ ha).nonempty
    · intro root positions hm
      obtain ⟨hne, -, d, hd⟩ := hb.of_mem_awaiting ha hm
      refine ⟨hne, ?_⟩
      rw [State.InFlight, Table.has_iff_get?, hd]
      rfl

end BlockDag.Downloader
