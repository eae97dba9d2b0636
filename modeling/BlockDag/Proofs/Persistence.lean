/-
Downloads that go on. Through every event but its own deadline a download stays in flight under its
session, unless a call for blocks is refused, a block proves its tree malformed, or it ends with the
news that its root was added.
-/
import BlockDag.Proofs.Departures

namespace BlockDag.Downloader

variable {ω : Type} {W : World ω} {rules : Rules} {r r' r'' : Run ω} {root : RootId} {session : SessionId}

/-! ## Downloads that go on -/

/-- A block was judged that proves the tree of `root` malformed. -/
def Moment.Condemns (root : RootId) (m : Moment ω) : Prop :=
  ∃ id awaiting verdict e, m.effect = .judged id awaiting verdict ∧ (root, e) ∈ verdict.malformed

/-- Why the download of `root` ends, where its time is not over. -/
def Moment.Ends (root : RootId) (m : Moment ω) : Prop := m.Excuses root ∨ m.Condemns root

/-- The download of `root` goes on but for a reason. -/
structure Lasts (root : RootId) (r r' : Run ω) : Prop where
  grows : Run.Adds (fun _ => True) r r'
  stays : ∀ {session}, r.state.Runs root session →
    r'.state.Runs root session ∨ Run.Shows (Moment.Ends root) r r'

namespace Lasts

theorem of_runs (hg : Run.Adds (fun _ => True) r r')
    (hr : ∀ {session}, r.state.Runs root session → r'.state.Runs root session) : Lasts root r r' :=
  ⟨hg, fun h => .inl (hr h)⟩

theorem of_roots (hg : Run.Adds (fun _ => True) r r') (hr : r'.state.roots = r.state.roots) : Lasts root r r' :=
  .of_runs hg fun h => by rw [State.Runs, hr]; exact h

theorem refl (root : RootId) (r : Run ω) : Lasts root r r := .of_roots (.refl rfl) rfl

theorem trans (h : Lasts root r r') (h' : Lasts root r' r'') : Lasts root r r'' := by
  refine ⟨h.grows.trans h'.grows, ?_⟩
  intro session hruns
  rcases h.stays hruns with hruns' | hshows
  · exact (h'.stays hruns').imp_right (.earlier h.grows)
  · exact .inr (hshows.later h'.grows)

end Lasts

theorem Sheds.lasts {kept : RootId → Prop} (h : Sheds kept r r') (hk : kept root) : Lasts root r r' := by
  refine ⟨h.grows, ?_⟩
  intro session hruns
  obtain ⟨d, hd, hs⟩ := State.runs_iff.1 hruns
  rcases h.stays hk hd with hd' | hshows
  · exact .inl (State.runs_iff.2 ⟨d, hd', hs⟩)
  · exact .inr (hshows.mono fun _ => .inl)

theorem State.Tuned.runs {s s' : State} (h : Tuned s s') (hruns : s.Runs root session) : s'.Runs root session := by
  obtain ⟨d, hd, rfl⟩ := State.runs_iff.1 hruns
  have hmem : root ∈ s'.roots.keys := h.keys ▸ Table.mem_keys_of_get? hd
  obtain ⟨d', hd'⟩ := mem_keys_iff_get?.1 hmem
  obtain ⟨d₀, hd₀, -, hs, -⟩ := h.downloads hd'
  obtain rfl : d = d₀ := Option.some.inj (hd.symm.trans hd₀)
  exact State.runs_iff.2 ⟨d', hd', hs⟩

namespace Pass

/-- The verdict is in the trace. -/
theorem judge_shows (W : World ω) (rules : Rules) (a : Arrival) (awaiting : Awaiting) (p : Pass) (r : Run ω) :
    Run.Shows (fun m => ∃ awaiting', m.effect = .judged a.id awaiting' (judge W rules a awaiting p r).1) r
      (judge W rules a awaiting p r).2.2 := by
  have hcalled : Run.Adds (fun _ => True) r (r.call (W.arrange awaiting)).2 := .refl rfl
  have hresolved := (resolveAll_adds (r.call (W.arrange awaiting)).1 p (r.call (W.arrange awaiting)).2).mono
    (Q := fun _ => True) fun _ _ => trivial
  unfold judge
  dsimp only
  rcases hc₀ : r.call (W.arrange awaiting) with ⟨arranged, r₀⟩
  rw [hc₀] at hcalled hresolved
  dsimp only at hcalled hresolved ⊢
  rcases hc : resolveAll arranged p r₀ with ⟨p₁, r₁⟩
  rw [hc] at hresolved
  dsimp only at hresolved ⊢
  generalize Verdict.ofBlock rules a.raw arranged r₁.state.roots = v
  have hrest : Run.Adds (fun _ => True) (r₁.emit (.judged a.id arranged v))
      (assignAll v.schemas (store W a v ((r₁.emit (.judged a.id arranged v)).logAll v.log))) := by
    have hlogged := Run.Adds.logAll (P := fun _ => True) (r := r₁.emit (.judged a.id arranged v)) v.log fun _ => trivial
    have hstored := store_adds (W := W) (a := a) v ((r₁.emit (.judged a.id arranged v)).logAll v.log)
    exact hlogged.trans (.trans (hstored.mono fun _ _ => trivial) ((assignAll_adds _ _).mono fun _ _ => trivial))
  exact .earlier (hcalled.trans hresolved) (.later (.emit ⟨arranged, rfl⟩) hrest)

theorem expand_lasts (root : RootId) (child : Child) (p : Pass) (r : Run ω) :
    Lasts root r (expand W child p r).2 := by
  unfold expand
  split
  · exact .refl root r
  · next d hd =>
    have hawait : Lasts root r (await child d r) := by
      refine .of_runs (await_adds _ _ _ trivial) ?_
      intro session hruns
      unfold State.Runs at *
      rw [await_roots, Table.get?_insert]
      split
      · next heq =>
        rw [← heq, hd] at hruns
        exact hruns
      · exact hruns
    dsimp only
    split
    · exact hawait
    · have hlooked : Lasts root (await child d r) ((await child d r).call (W.view child.id)).2 :=
        .of_roots (.refl rfl) rfl
      rcases hc : (await child d r).call (W.view child.id) with ⟨outcome, r₁⟩
      rw [hc] at hlooked
      rcases outcome with (e | raw)
      · cases e with
        | notFound id => exact hawait.trans hlooked
        | statusConflict | backend => exact hawait.trans (hlooked.trans (.of_roots (.emit trivial) rfl))
      · exact hawait.trans hlooked

theorem expandAll_lasts (root : RootId) (children : List Child) (p : Pass) (r : Run ω) :
    Lasts root r (expandAll W children p r).2 := by
  induction children generalizing p r with
  | nil => exact .refl root r
  | cons child children ih => exact (expand_lasts root child p r).trans (ih _ _)

/-- Once a block is judged, only those are given up that it proves malformed. -/
theorem handle_after_judge (W : World ω) (root : RootId) (rules : Rules) (a : Arrival) (awaiting : Awaiting) (p : Pass)
    (r : Run ω) : Run.Adds (fun _ => True) (judge W rules a awaiting p r).2.2 (handle W rules a awaiting p r).2 ∧
      ((∀ e, (root, e) ∉ (judge W rules a awaiting p r).1.malformed) →
        Lasts root (judge W rules a awaiting p r).2.2 (handle W rules a awaiting p r).2) := by
  unfold handle
  rcases judge W rules a awaiting p r with ⟨verdict, p₁, r₁⟩
  have hperm := W.arrange_perm verdict.malformed r₁.world
  have harranged : Lasts root r₁ (r₁.call (W.arrange verdict.malformed)).2 := .of_roots (.refl rfl) rfl
  rw [← Run.call_fst] at hperm
  dsimp only
  rcases hc : r₁.call (W.arrange verdict.malformed) with ⟨doomed, r₂⟩
  rw [hc] at hperm harranged
  have habandoned := abandonAll_sheds (W := W) a.id doomed r₂
  have hexpanded := expandAll_lasts (W := W) root verdict.children p₁ (abandonAll W a.id doomed r₂)
  refine ⟨harranged.grows.trans (habandoned.grows.trans hexpanded.grows), ?_⟩
  intro hspared
  refine harranged.trans ((habandoned.lasts ?_).trans hexpanded)
  intro e hm
  exact hspared e (hperm.mem_iff.1 hm)

theorem handle_lasts (root : RootId) (rules : Rules) (a : Arrival) (awaiting : Awaiting) (p : Pass) (r : Run ω) :
    Lasts root r (handle W rules a awaiting p r).2 := by
  have hjudged : Lasts root r (judge W rules a awaiting p r).2.2 :=
    .of_runs ((judge_adds W rules a awaiting p r).mono fun _ _ => trivial) (judge_tuned W rules a awaiting p r).runs
  obtain ⟨hgrows, hspared⟩ := handle_after_judge W root rules a awaiting p r
  by_cases hm : ∃ e, (root, e) ∈ (judge W rules a awaiting p r).1.malformed
  · obtain ⟨e, hm⟩ := hm
    refine ⟨hjudged.grows.trans hgrows, fun _ => .inr (.later ((judge_shows W rules a awaiting p r).mono ?_) hgrows)⟩
    rintro m ⟨awaiting', he⟩
    exact .inr ⟨_, _, _, e, he, hm⟩
  · exact hjudged.trans (hspared fun e he => hm ⟨e, he⟩)

theorem rounds_lasts (root : RootId) (rules : Rules) (fuel : Nat) (p : Pass) (r : Run ω) :
    Lasts root r (p.rounds W rules fuel r).2 := by
  refine rounds_keep (C := fun _ r' => Lasts root r r') ?_ ?_ fuel (.refl root r)
  · intro p r' queue h
    exact h
  · intro p r' a awaiting pending h
    have hset : Lasts root r' (r'.setPending pending) := .of_roots (.refl rfl) rfl
    exact h.trans (hset.trans (handle_lasts root rules a awaiting p _))

theorem finish_lasts (root : RootId) (p : Pass) (r : Run ω) : Lasts root r (p.finish W r) :=
  (finish_sheds p r).lasts trivial

end Pass

theorem process_lasts (root : RootId) (rules : Rules) (a : Arrival) (r : Run ω) : Lasts root r (process W rules a r) :=
  (Pass.rounds_lasts root rules _ _ r).trans (Pass.finish_lasts root _ _)

/-- A pass begins by judging its block. -/
theorem process_after_take {a : Arrival} {awaiting : Awaiting} (ha : r.state.pending.get? a.id = some awaiting)
    (W : World ω) (rules : Rules) :
    ∃ p, Run.Adds (fun _ => True) (Pass.take W rules a awaiting p r).2.2 (process W rules a r) := by
  have hjudged := (Pass.handle_after_judge W a.id rules a awaiting ⟨[], [], []⟩
    (r.setPending (r.state.pending.without a.id))).1
  have hnext : Pass.next W rules (Pass.start a) r =
      some (Pass.handle W rules a awaiting ⟨[], [], []⟩ (r.setPending (r.state.pending.without a.id))) := by
    unfold Pass.next
    dsimp only [Pass.start]
    rw [PendingIndex.take_of_get? ha]
  refine ⟨⟨[], [], []⟩, ?_⟩
  unfold process
  rw [Pass.roundBound, Nat.add_comm, Pass.rounds, hnext]
  exact hjudged.trans ((Pass.rounds_lasts a.id rules _ _ _).grows.trans (Pass.finish_lasts a.id _ _).grows)

section Events

theorem request_lasts (root : RootId) (rules : Rules) (other : RootId) (r : Run ω) :
    Lasts root r (request W rules other r) := by
  have hlooked : Lasts root r (r.call (W.view other)).2 := .of_roots (.refl rfl) rfl
  unfold request
  rcases hc : r.call (W.view other) with ⟨outcome, r₁⟩
  rw [hc] at hlooked
  rcases outcome with (e | raw)
  · cases e with
    | notFound id => exact hlooked.trans ((fetch_sheds [other] r₁).lasts trivial)
    | statusConflict | backend =>
      exact hlooked.trans (.trans (.of_roots (.emit trivial) rfl) ((fetch_sheds [other] _).lasts trivial))
  · exact hlooked.trans (process_lasts root rules _ r₁)

theorem decline_lasts (root other : RootId) (r : Run ω) : Lasts root r (decline W other r) := by
  refine .of_roots ?_ (by rw [decline_state])
  have hasked : Run.Adds (fun _ => True) r (r.call (W.getStatus other)).2 := .refl rfl
  unfold decline
  rcases hc : r.call (W.getStatus other) with ⟨outcome, r₁⟩
  rw [hc] at hasked
  rcases outcome with (e | _ | _ | _)
  · exact hasked.trans (.emit trivial)
  · exact hasked
  · exact hasked
  · exact hasked.trans (.emit trivial)

/-- A root that is in flight is not put in flight again. -/
theorem launch_lasts (root : RootId) {other : RootId} (hn : ¬ r.state.InFlight other) (tag : DataTag) (timeout : Nat) :
    Lasts root r (launch other tag timeout r) := by
  refine .of_runs ⟨_, launch_trace _ _ _ _, fun _ _ => trivial⟩ ?_
  intro session hruns
  have hne : other ≠ root := by
    rintro rfl
    obtain ⟨d, hd, -⟩ := State.runs_iff.1 hruns
    rw [State.InFlight, Table.has_iff_get?, hd] at hn
    exact hn rfl
  unfold State.Runs at *
  rw [launch_roots, Table.get?_insert, if_neg hne]
  exact hruns

theorem kickoff_lasts (root : RootId) (rules : Rules) (other : RootId) (tag : DataTag) (r : Run ω) :
    Lasts root r (kickoff W rules other tag r) := by
  unfold kickoff
  split
  · exact .refl root r
  · next hfree =>
    rcases timeLimit rules other tag with ⟨entries, timeout⟩
    have hcalled : Lasts root r ((r.logAll entries).call (W.setStatus other .part)).2 :=
      .of_roots (.trans (.logAll entries fun _ => trivial) (.refl rfl)) (by rw [Run.call_state, Run.logAll_state])
    have hstate := Run.call_state (r.logAll entries) (W.setStatus other .part)
    dsimp only
    rcases hc : (r.logAll entries).call (W.setStatus other .part) with ⟨outcome, r₁⟩
    rw [hc] at hcalled hstate
    rw [Run.logAll_state] at hstate
    dsimp only at hcalled hstate ⊢
    rw [← hstate] at hfree
    cases outcome with
    | error e => exact hcalled.trans (decline_lasts root other r₁)
    | ok _ =>
      have hlaunched := hcalled.trans (launch_lasts root hfree tag timeout)
      dsimp only
      split
      · exact hlaunched
      · exact hlaunched.trans (request_lasts root rules other _)

/-- A download goes on through every event but its own deadline. -/
theorem handle_lasts (root : RootId) (rules : Rules) {event : Event} (hlive : ∀ session, event ≠ .deadline root session)
    (r : Run ω) : Lasts root r (handle W rules event r) := by
  cases event with
  | kickoff other tag => exact kickoff_lasts root rules other tag r
  | delivered id raw =>
    rw [handle, deliver]
    split
    · exact process_lasts root rules _ r
    · exact .of_roots (.emit trivial) rfl
  | deadline other session =>
    rw [handle, expire]
    split
    · exact .refl root r
    · split
      · refine .trans (.of_roots (.emit trivial) rfl) ((free_sheds other _).lasts ?_)
        rintro rfl
        exact hlive session rfl
      · exact .refl root r

theorem play_lasts (root : RootId) (rules : Rules) {events : List Event}
    (hlive : ∀ session, .deadline root session ∉ events) (r : Run ω) : Lasts root r (play W rules events r) := by
  induction events generalizing r with
  | nil => exact .refl root r
  | cons event events ih =>
    refine (handle_lasts root rules ?_ r).trans (ih ?_ _)
    · rintro session rfl
      exact hlive session List.mem_cons_self
    · intro session hm
      exact hlive session (List.mem_cons_of_mem _ hm)

end Events

end BlockDag.Downloader
