/-
The downloader's books. In every state it gets into, who waits for a block is in flight and has
asked for it, a root's outstanding count is the number of positions it waits at, and those
positions fit what is known of the shape of its tree. Sessions belong to one root each, and those in
flight are not cancelled.
-/
import BlockDag.Proofs.Course

namespace BlockDag.Downloader

variable {ω : Type} {W : World ω} {rules : Rules} {Delivers : Bytes → Prop} {world : ω}

/-! ## What single operations do to the state -/

section Operations

variable (root : RootId) (d : Download) (child : Child) (r : Run ω)

@[simp] theorem dismiss_world : (dismiss root d r).world = r.world := rfl

@[simp] theorem dismiss_roots : (dismiss root d r).state.roots = r.state.roots.erase root := rfl

@[simp] theorem dismiss_pending :
    (dismiss root d r).state.pending = r.state.pending.removeRoot root d.descendants.toList := rfl

theorem get?_of_dismiss {root : RootId} {d : Download} {r : Run ω} {other : RootId} {e : Download}
    (h : (dismiss root d r).state.roots.get? other = some e) :
    root ≠ other ∧ r.state.roots.get? other = some e :=
  Table.get?_erase_eq_some_iff.1 h

@[simp] theorem dismiss_opened : (dismiss root d r).state.opened = r.state.opened := rfl

@[simp] theorem dismiss_cancelled :
    (dismiss root d r).state.cancelled = r.state.cancelled ++ [d.session] := rfl

@[simp] theorem dismiss_stopped : (dismiss root d r).state.stopped = r.state.stopped := rfl

@[simp] theorem mark_state (W : World ω) : (mark W root r).state = r.state := by
  have hs := Run.call_state r (W.setStatus root .full)
  unfold mark
  rcases hc : r.call (W.setStatus root .full) with ⟨outcome, r'⟩
  rw [hc] at hs
  cases outcome <;> exact hs

@[simp] theorem mark_world (W : World ω) : (mark W root r).world = (W.setStatus root .full r.world).2 := by
  have hw := Run.call_world r (W.setStatus root .full)
  unfold mark
  rcases hc : r.call (W.setStatus root .full) with ⟨outcome, r'⟩
  rw [hc] at hw
  cases outcome <;> exact hw

/-- Marking adds its outcome to the trace, and a report if it failed. -/
theorem mark_trace (W : World ω) : ∃ new : List (Moment ω), (mark W root r).trace = new ++
    ⟨.marked root (W.setStatus root .full r.world).1, (mark W root r).world, r.state⟩ :: r.trace ∧
      ∀ m ∈ new, (∃ e, m.effect = .logged (.notMarkedFull root e)) ∧ m.world = (mark W root r).world ∧
        m.state = r.state := by
  have hs := Run.call_state r (W.setStatus root .full)
  have ht := Run.call_trace r (W.setStatus root .full)
  have hf := Run.call_fst r (W.setStatus root .full)
  unfold mark
  rcases hc : r.call (W.setStatus root .full) with ⟨outcome, r'⟩
  rw [hc] at hs ht hf
  dsimp only at hs ht hf
  rw [← hf, ← hs, ← ht]
  cases outcome with
  | ok u => exact ⟨[], rfl, by simp⟩
  | error e => exact ⟨[⟨.logged (.notMarkedFull root e), r'.world, r'.state⟩], rfl, by simp⟩

theorem mark_adds {P : Moment ω → Prop} (W : World ω)
    (hmark : P ⟨.marked root (W.setStatus root .full r.world).1, (mark W root r).world, r.state⟩)
    (hlog : ∀ e, P ⟨.logged (.notMarkedFull root e), (mark W root r).world, r.state⟩) :
    Run.Adds P r (mark W root r) := by
  obtain ⟨new, hn, hnew⟩ := mark_trace root r W
  refine ⟨_, hn.trans (List.append_cons _ _ _), ?_⟩
  intro m hm
  rcases List.mem_append.1 hm with hm | hm
  · obtain ⟨⟨e, he⟩, hw, hs⟩ := hnew m hm
    obtain ⟨effect, world, state⟩ := m
    cases he
    cases hw
    cases hs
    exact hlog e
  · rw [List.mem_singleton.1 hm]
    exact hmark

theorem dismiss_adds {P : Moment ω → Prop} (h : P ⟨.released d.session root, r.world, (dismiss root d r).state⟩) :
    Run.Adds P r (dismiss root d r) :=
  .cons rfl h

theorem await_adds {P : Moment ω → Prop}
    (h : P ⟨.awaited child.root child.id child.position, r.world, (Pass.await child d r).state⟩) :
    Run.Adds P r (Pass.await child d r) :=
  .cons rfl h

@[simp] theorem await_world : (Pass.await child d r).world = r.world := rfl

@[simp] theorem await_roots :
    (Pass.await child d r).state.roots = r.state.roots.insert child.root (d.expect child.id) := rfl

@[simp] theorem await_pending :
    (Pass.await child d r).state.pending = r.state.pending.insert child.id child.root child.position := rfl

/-- A root keeps its download, but for one more position where it is the child's. -/
theorem get?_of_await {d : Download} {child : Child} {r : Run ω} (hd : r.state.roots.get? child.root = some d)
    {other : RootId} {e : Download} (h : (Pass.await child d r).state.roots.get? other = some e) :
    ∃ e₀, r.state.roots.get? other = some e₀ ∧ (e = e₀ ∨ e = e₀.expect child.id) := by
  rcases Table.get?_insert_eq_some_iff.1 h with ⟨rfl, rfl⟩ | ⟨-, h⟩
  · exact ⟨d, hd, .inr rfl⟩
  · exact ⟨e, h, .inl rfl⟩

@[simp] theorem await_opened : (Pass.await child d r).state.opened = r.state.opened := rfl

@[simp] theorem await_cancelled : (Pass.await child d r).state.cancelled = r.state.cancelled := rfl

@[simp] theorem await_stopped : (Pass.await child d r).state.stopped = r.state.stopped := rfl

variable (tag : DataTag) (timeout : Nat)

@[simp] theorem launch_world : (launch root tag timeout r).world = r.world := rfl

@[simp] theorem launch_roots : (launch root tag timeout r).state.roots =
    r.state.roots.insert root (.start root tag (r.state.opened + 1)) := rfl

@[simp] theorem launch_pending :
    (launch root tag timeout r).state.pending = r.state.pending.insert root root 0 := rfl

@[simp] theorem launch_opened : (launch root tag timeout r).state.opened = r.state.opened + 1 := rfl

@[simp] theorem launch_cancelled : (launch root tag timeout r).state.cancelled = r.state.cancelled := rfl

@[simp] theorem launch_stopped : (launch root tag timeout r).state.stopped = r.state.stopped := rfl

theorem launch_trace : (launch root tag timeout r).trace =
    [⟨.logged (.started root tag), r.world, (launch root tag timeout r).state⟩,
      ⟨.awaited root root 0, r.world, (launch root tag timeout r).state⟩,
      ⟨.opened (r.state.opened + 1) root timeout, r.world, (launch root tag timeout r).state⟩] ++ r.trace := rfl

@[simp] theorem fetch_state (W : World ω) (session : SessionId) (blocks : List BlockId) :
    (r.fetch W session blocks).2.state = r.state := rfl

end Operations

/-- Only the count and the phase of a download change when a block is judged. -/
theorem Pass.Fate.kept {raw : Bytes} {v : Verdict} {root : RootId} {positions : List Nat} {d d' : Download}
    (h : Fate rules raw v root positions d d') : d'.tag = d.tag ∧ d'.session = d.session ∧
      d'.descendants = d.descendants ∧ d'.outstanding = d.outstanding - positions.length := by
  cases h with
  | passed hp => rw [hp]; exact ⟨rfl, rfl, rfl, rfl⟩
  | broken e => exact ⟨rfl, rfl, rfl, rfl⟩
  | grown block s => exact ⟨rfl, rfl, rfl, rfl⟩

/-! ## The books -/

/-- `root` waits for the block `id` at `ix`, or will when what is owed is done. -/
def Open (owed : List Child) (s : State) (root : RootId) (id : BlockId) (ix : Nat) : Prop :=
  ix ∈ s.pending.positions id root ∨ ⟨root, id, ix⟩ ∈ owed

section Open

variable {owed : List Child} {root other : RootId} {d : Download} {r : Run ω} {id : BlockId} {ix : Nat}

/-- Ending a download leaves the others with what they wait for. -/
theorem open_dismiss (h : root ≠ other) :
    Open owed (dismiss root d r).state other id ix ↔ Open owed r.state other id ix := by
  unfold Open
  rw [dismiss_pending, PendingIndex.positions_removeRoot, if_neg (fun hc => h hc.1)]

/-- Ending a download lets nobody wait for anything more. -/
theorem open_of_open_dismiss (h : Open owed (dismiss root d r).state other id ix) : Open owed r.state other id ix := by
  refine h.imp_left fun ho => ?_
  rw [dismiss_pending, PendingIndex.positions_removeRoot] at ho
  split at ho
  · cases ho
  · exact ho

/-- A child that is waited for is owed no longer. -/
theorem open_await {child : Child} :
    Open owed (Pass.await child d r).state root id ix ↔ Open (child :: owed) r.state root id ix := by
  unfold Open
  rw [await_pending, PendingIndex.positions_insert, List.mem_cons]
  by_cases hc : child.id = id ∧ child.root = root
  · rw [if_pos hc, List.mem_append, List.mem_singleton, or_assoc]
    refine or_congr_right (or_congr_left ?_)
    rw [← hc.1, ← hc.2]
    constructor
    · rintro rfl
      rfl
    · intro heq
      exact congrArg Child.position heq
  · rw [if_neg hc]
    refine or_congr_right (Iff.symm (or_iff_right ?_))
    rintro heq
    exact hc ⟨congrArg Child.id heq.symm, congrArg Child.root heq.symm⟩

/-- A child of another root plays no part. -/
theorem open_cons_of_ne {child : Child} {s : State} (h : child.root ≠ root) :
    Open (child :: owed) s root id ix ↔ Open owed s root id ix := by
  unfold Open
  rw [List.mem_cons]
  refine or_congr_right (or_iff_right ?_)
  rintro heq
  exact h (congrArg Child.root heq.symm)

/-- A root that is owed no child waits for what it is waited for in the index. -/
theorem positions_of_open {s : State} (hc : (owed.filter fun c => decide (c.root = root)) = [])
    (ho : Open owed s root id ix) : ix ∈ s.pending.positions id root := by
  rcases ho with ho | ho
  · exact ho
  · have := List.filter_eq_nil_iff.1 hc _ ho
    simp at this

/-- Putting a root in flight leaves the others with what they wait for. -/
theorem open_launch {tag : DataTag} {timeout : Nat} (h : root ≠ other) :
    Open owed (launch root tag timeout r).state other id ix ↔ Open owed r.state other id ix := by
  unfold Open
  rw [launch_pending, PendingIndex.positions_insert, if_neg (fun hc => h hc.2)]

end Open

/-- The invariant of the pending index and the downloads, while children are owed. -/
structure Books (rules : Rules) (owed : List Child) (s : State) : Prop where
  pending : s.pending.WF
  roots : s.roots.keys.Nodup
  waiter : ∀ {id root}, s.pending.positions id root ≠ [] → ∃ d, s.roots.get? root = some d ∧ id ∈ d.descendants
  account : ∀ {root d}, s.roots.get? root = some d → d.outstanding = (s.pending.waits root).length
  requested : ∀ {root d}, s.roots.get? root = some d → d.phase = .requested →
    ∀ {id ix}, Open owed s root id ix → id = root ∧ ix = 0
  expanding : ∀ {root d t}, s.roots.get? root = some d → d.phase = .expanding t →
    t.Small ∧ t.size = rules.size ∧ ∀ {id ix}, Open owed s root id ix → 0 < ix ∧ ix < t.totalBlocks

namespace Books

variable {owed : List Child} {s : State} {r : Run ω}

theorem initial : Books rules [] .initial where
  pending := PendingIndex.empty_wf
  roots := by simp [State.initial, Table.keys]
  waiter := by simp [State.initial]
  account := by simp [State.initial, Table.get?]
  requested := by simp [State.initial, Table.get?]
  expanding := by simp [State.initial, Table.get?]

/-- Fewer children may be owed. -/
theorem sub (h : Books rules owed s) {owed' : List Child} (hsub : ∀ c ∈ owed', c ∈ owed) : Books rules owed' s where
  pending := h.pending
  roots := h.roots
  waiter := h.waiter
  account := h.account
  requested hd hp _ _ ho := h.requested hd hp (ho.imp_right (hsub _))
  expanding hd hp := ⟨(h.expanding hd hp).1, (h.expanding hd hp).2.1,
    fun ho => (h.expanding hd hp).2.2 (ho.imp_right (hsub _))⟩

/-- A root not in flight waits for nothing. -/
theorem positions_eq_nil (h : Books rules owed s) {root : RootId} (hn : s.roots.get? root = none) (id : BlockId) :
    s.pending.positions id root = [] := by
  by_contra hne
  obtain ⟨d, hd, -⟩ := h.waiter hne
  rw [hn] at hd
  cases hd

/-- A root has asked for all that it waits for. -/
theorem asked (h : Books rules owed s) {root : RootId} {d : Download} (hd : s.roots.get? root = some d) {id : BlockId}
    (hne : s.pending.positions id root ≠ []) : id ∈ d.descendants := by
  obtain ⟨d', hd', hm⟩ := h.waiter hne
  obtain rfl : d = d' := Option.some.inj (hd.symm.trans hd')
  exact hm

theorem waits_eq_nil (h : Books rules owed s) {root : RootId} (hn : s.roots.get? root = none) :
    s.pending.waits root = [] :=
  PendingIndex.waits_eq_nil_iff.2 (h.positions_eq_nil hn)

/-- A download is complete exactly if its root waits for nothing. -/
theorem complete_iff (h : Books rules owed s) {root : RootId} {d : Download} (hd : s.roots.get? root = some d) :
    d.Complete ↔ ∀ id, s.pending.positions id root = [] := by
  rw [Download.Complete, h.account hd, List.length_eq_zero_iff, PendingIndex.waits_eq_nil_iff]

/-- A root that waits for its root block waits for no other. -/
theorem requested_eq (h : Books rules owed s) {root : RootId} {d : Download} (hd : s.roots.get? root = some d)
    (hp : d.phase = .requested) {id j : BlockId} {ix jx : Nat} (ho : Open owed s root id ix)
    (ho' : Open owed s root j jx) : id = j :=
  (h.requested hd hp ho).1.trans (h.requested hd hp ho').1.symm

/-- The shape that a tree has, or takes from its root block, is small. -/
theorem small_of_phase (h : Books rules owed s) {root : RootId} {d : Download} (hd : s.roots.get? root = some d)
    {t : Schema} {data : Bytes}
    (hphase : d.phase = .expanding t ∨ d.phase = .requested ∧ Judgement.rootSchema rules d.tag data = .ok t) :
    t.Small ∧ t.size = rules.size := by
  rcases hphase with hp | ⟨-, hroot⟩
  · obtain ⟨hs, hsize, -⟩ := h.expanding hd hp
    exact ⟨hs, hsize⟩
  · exact Judgement.small_of_rootSchema hroot

/-- A root can be taken out of the books, with all that it waits for. -/
theorem drop (h : Books rules owed s) {root : RootId} {ids : List BlockId}
    (hids : ∀ id, s.pending.positions id root ≠ [] → id ∈ ids) :
    Books rules owed { s with roots := s.roots.erase root, pending := s.pending.removeRoot root ids } := by
  have hself := PendingIndex.positions_removeRoot_self hids
  have hother : ∀ id other, root ≠ other →
      (s.pending.removeRoot root ids).positions id other = s.pending.positions id other := by
    intro id other hne
    rw [PendingIndex.positions_removeRoot, if_neg (fun hc => hne hc.1)]
  have hopen : ∀ {other id ix}, root ≠ other →
      Open owed { s with roots := s.roots.erase root, pending := s.pending.removeRoot root ids } other id ix →
      Open owed s other id ix := by
    intro other id ix hne ho
    unfold Open at ho
    rwa [hother id other hne] at ho
  refine ⟨PendingIndex.removeRoot_wf h.pending _ _, Table.nodup_erase h.roots _, ?_, ?_, ?_, ?_⟩
  · intro id other hne
    by_cases hr : root = other
    · subst hr
      exact absurd (hself id) hne
    · rw [hother id other hr] at hne
      obtain ⟨d', hd', hm⟩ := h.waiter hne
      exact ⟨d', Table.get?_erase_eq_some_iff.2 ⟨hr, hd'⟩, hm⟩
  · intro other d' ho
    obtain ⟨hne, ho⟩ := Table.get?_erase_eq_some_iff.1 ho
    rw [(PendingIndex.waits_removeRoot_of_ne hne _).length_eq]
    exact h.account ho
  · intro other d' ho hp id ix hw
    obtain ⟨hne, ho⟩ := Table.get?_erase_eq_some_iff.1 ho
    exact h.requested ho hp (hopen hne hw)
  · intro other d' t ho hp
    obtain ⟨hne, ho⟩ := Table.get?_erase_eq_some_iff.1 ho
    obtain ⟨hs, hsize, hfit⟩ := h.expanding ho hp
    exact ⟨hs, hsize, fun hw => hfit (hopen hne hw)⟩

/-- Ending a download takes it out of the books. -/
theorem dismiss (h : Books rules owed r.state) {root : RootId} {d : Download}
    (hd : r.state.roots.get? root = some d) : Books rules owed (Downloader.dismiss root d r).state := by
  have hdrop := h.drop fun _ hne => Std.ExtTreeSet.mem_toList.2 (h.asked hd hne)
  -- the books say nothing of sessions
  exact ⟨hdrop.pending, hdrop.roots, hdrop.waiter, hdrop.account, hdrop.requested, hdrop.expanding⟩

/-- Letting a root wait for a child that it is owed. -/
theorem await {child : Child} {d : Download} (h : Books rules (child :: owed) r.state)
    (hd : r.state.roots.get? child.root = some d) : Books rules owed (Pass.await child d r).state := by
  -- a root keeps its phase, and `child.root` one more position
  have hget : ∀ {root d'}, (Pass.await child d r).state.roots.get? root = some d' →
      ∃ d₀, r.state.roots.get? root = some d₀ ∧ d'.phase = d₀.phase ∧ (root ≠ child.root → d' = d₀) ∧
        (root = child.root → d' = d.expect child.id) := by
    intro root d' hr
    rcases Table.get?_insert_eq_some_iff.1 hr with ⟨rfl, rfl⟩ | ⟨hne, hr⟩
    · exact ⟨d, hd, rfl, fun hne => absurd rfl hne, fun _ => rfl⟩
    · exact ⟨d', hr, rfl, fun _ => rfl, fun heq => absurd heq.symm hne⟩
  refine ⟨PendingIndex.insert_wf h.pending _ _ _, Table.nodup_insert h.roots _ _, ?_, ?_, ?_, ?_⟩
  · intro id root hne
    rw [await_roots, Table.get?_insert]
    rw [await_pending, PendingIndex.positions_insert] at hne
    by_cases hr : child.root = root
    · subst hr
      refine ⟨d.expect child.id, if_pos rfl, ?_⟩
      by_cases hi : child.id = id
      · subst hi
        exact Std.ExtTreeSet.mem_insert_self
      · rw [if_neg (fun hc => hi hc.1)] at hne
        obtain ⟨d', hd', hm⟩ := h.waiter hne
        rw [hd] at hd'
        cases hd'
        exact Std.ExtTreeSet.mem_insert.2 (.inr hm)
    · rw [if_neg (fun hc => hr hc.2)] at hne
      rw [if_neg hr]
      exact h.waiter hne
  · intro root d' hr
    obtain ⟨d₀, hd₀, -, hne, heq⟩ := hget hr
    rw [await_pending]
    by_cases hroot : root = child.root
    · rw [heq hroot, hroot, (PendingIndex.waits_insert _ _ _ _).length_eq, List.length_cons, ← h.account hd]
      rfl
    · rw [hne hroot, (PendingIndex.waits_insert_of_ne (Ne.symm hroot) _ _).length_eq]
      exact h.account hd₀
  · intro root d' hr hp id ix ho
    obtain ⟨d₀, hd₀, hphase, -, -⟩ := hget hr
    exact h.requested hd₀ (hphase ▸ hp) (open_await.1 ho)
  · intro root d' t hr hp
    obtain ⟨d₀, hd₀, hphase, -, -⟩ := hget hr
    obtain ⟨hs, hsize, hfit⟩ := h.expanding hd₀ (hphase ▸ hp)
    exact ⟨hs, hsize, fun ho => hfit (open_await.1 ho)⟩

/-- Putting a root in flight. -/
theorem launch (h : Books rules [] r.state) {root : RootId} (hn : ¬ r.state.InFlight root) (tag : DataTag)
    (timeout : Nat) : Books rules [] (Downloader.launch root tag timeout r).state := by
  have hnone : r.state.roots.get? root = none := by
    rw [← Option.not_isSome_iff_eq_none, ← Table.has_iff_get?]
    exact hn
  have hpos := h.positions_eq_nil hnone
  have hget : ∀ {other d'}, (Downloader.launch root tag timeout r).state.roots.get? other = some d' →
      (root = other ∧ d' = .start root tag (r.state.opened + 1)) ∨
        (root ≠ other ∧ r.state.roots.get? other = some d') := by
    exact Table.get?_insert_eq_some_iff.1
  refine ⟨PendingIndex.insert_wf h.pending _ _ _, Table.nodup_insert h.roots _ _, ?_, ?_, ?_, ?_⟩
  · intro id other hne
    rw [launch_roots, Table.get?_insert]
    rw [launch_pending, PendingIndex.positions_insert] at hne
    by_cases hr : root = other
    · subst hr
      refine ⟨_, if_pos rfl, ?_⟩
      by_cases hi : root = id
      · subst hi
        simp [Download.start]
      · rw [if_neg (fun hc => hi hc.1)] at hne
        exact absurd (hpos id) hne
    · rw [if_neg (fun hc => hr hc.2)] at hne
      rw [if_neg hr]
      exact h.waiter hne
  · intro other d' ho
    rw [launch_pending]
    rcases hget ho with ⟨rfl, rfl⟩ | ⟨hne, ho⟩
    · rw [(PendingIndex.waits_insert _ _ _ _).length_eq, h.waits_eq_nil hnone]
      rfl
    · rw [(PendingIndex.waits_insert_of_ne hne _ _).length_eq]
      exact h.account ho
  · intro other d' ho hp id ix hw
    rcases hget ho with ⟨rfl, rfl⟩ | ⟨hne, ho⟩
    · rcases hw with hw | hw
      · rw [launch_pending, PendingIndex.positions_insert, hpos id] at hw
        split at hw
        · next heq => exact ⟨heq.1.symm, List.mem_singleton.1 hw⟩
        · cases hw
      · cases hw
    · exact h.requested ho hp ((open_launch hne).1 hw)
  · intro other d' t ho hp
    rcases hget ho with ⟨rfl, rfl⟩ | ⟨hne, ho⟩
    · cases hp
    · obtain ⟨hs, hsize, hfit⟩ := h.expanding ho hp
      exact ⟨hs, hsize, fun hw => hfit ((open_launch hne).1 hw)⟩

/-! ## Judging -/

section Judging

variable {a : Arrival} {awaiting : Awaiting} {p : Pass}

theorem positions_of_get? {id : BlockId} (ha : s.pending.get? id = some awaiting) (root : RootId) :
    awaiting.positions root = s.pending.positions id root := by
  rw [PendingIndex.positions, ha]
  rfl

/-- Before a block is judged, the books say what each root awaits it at. -/
theorem fate (h : Books rules [] r.state) (ha : r.state.pending.get? a.id = some awaiting) (W : World ω) (p : Pass)
    ⦃root : RootId⦄ ⦃d' : Download⦄ (hd' : (Pass.take W rules a awaiting p r).2.2.state.roots.get? root = some d') :
    ∃ d, r.state.roots.get? root = some d ∧
      Pass.Fate rules a.raw (Pass.take W rules a awaiting p r).1 root (r.state.pending.positions a.id root) d d' := by
  have hw := h.pending _ _ ha
  obtain ⟨d, hd⟩ : ∃ d, r.state.roots.get? root = some d := by
    have hmem := Table.mem_keys_of_get? hd'
    rw [Pass.take_keys] at hmem
    cases hg : r.state.roots.get? root with
    | some d => exact ⟨d, rfl⟩
    | none => exact absurd hmem (Table.get?_eq_none_iff.1 hg)
  have hopen : ∀ ix ∈ awaiting.positions root, Open [] r.state root a.id ix := by
    intro ix hix
    rw [positions_of_get? ha] at hix
    exact .inl hix
  obtain ⟨d'', hd'', hfate⟩ : ∃ d'', (Pass.take W rules a awaiting p r).2.2.state.roots.get? root = some d'' ∧
      Pass.Fate rules a.raw (Pass.take W rules a awaiting p r).1 root (awaiting.positions root) d d'' :=
    Pass.judge_fate hw hd (fun hp ix hix => (h.requested hd hp (hopen ix hix)).2)
    (fun t hp hm => absurd ((h.expanding hd hp).2.2 (hopen 0 hm)).1 (Nat.lt_irrefl 0))
  rw [hd'] at hd''
  cases hd''
  rw [positions_of_get? ha] at hfate
  exact ⟨d, hd, hfate⟩

/-- Whoever awaits a block, awaits it somewhere, and is in flight. -/
theorem of_mem_awaiting (h : Books rules owed s) {id : BlockId} (ha : s.pending.get? id = some awaiting) {root : RootId}
    {positions : List Nat} (hm : (root, positions) ∈ awaiting) :
    positions ≠ [] ∧ s.pending.positions id root = positions ∧ ∃ d, s.roots.get? root = some d := by
  have hw := h.pending _ _ ha
  have hne := hw.filled _ hm
  have hpos : s.pending.positions id root = positions := by
    rw [← positions_of_get? ha]
    exact Awaiting.positions_of_mem hw hm
  obtain ⟨d, hd, -⟩ := h.waiter (hpos.symm ▸ hne)
  exact ⟨hne, hpos, d, hd⟩

/-- What a root awaits a block at is outstanding. -/
theorem length_positions_le (h : Books rules owed s) {root : RootId} {d : Download} (hd : s.roots.get? root = some d)
    (id : BlockId) : (s.pending.positions id root).length ≤ d.outstanding := by
  have hsplit := (s.pending.waits_split id root).length_eq
  rw [List.length_append, List.length_map] at hsplit
  have := h.account hd
  omega

/-- A block that opens wherever a root awaits it, in the shape that the tree has or takes from it, does
not prove the root malformed. -/
theorem not_malformed (h : Books rules [] r.state) (ha : r.state.pending.get? a.id = some awaiting) (W : World ω)
    (p : Pass) {root : RootId} {d : Download} (hd : r.state.roots.get? root = some d) {t : Schema} {block : Block}
    (hopen : ∀ ix ∈ r.state.pending.positions a.id root, Join.openBlock t ix a.raw = .ok block)
    (hphase : d.phase = .expanding t ∨ d.phase = .requested ∧ Judgement.rootSchema rules d.tag block.data = .ok t)
    (e : FormatError) : (root, e) ∉ (Pass.take W rules a awaiting p r).1.malformed := by
  rw [Pass.take_verdict (h.pending _ _ ha).nodup, Verdict.mem_malformed, Verdict.mem_ofBlock]
  rintro ⟨positions, hm, hj⟩
  obtain ⟨hne, rfl, -⟩ := h.of_mem_awaiting ha ((W.arrange_perm awaiting r.world).mem_iff.1 hm)
  have hplaces : d.phase = .expanding t ∧ 0 ∉ r.state.pending.positions a.id root ∨
      (∀ ix ∈ r.state.pending.positions a.id root, ix = 0) ∧ Judgement.rootSchema rules d.tag block.data = .ok t := by
    rcases hphase with hp | ⟨hp, hroot⟩
    · exact .inl ⟨hp, fun h0 => absurd ((h.expanding hd hp).2.2 (.inl h0)).1 (Nat.lt_irrefl 0)⟩
    · exact .inr ⟨fun ix hix => (h.requested hd hp (.inl hix)).2, hroot⟩
  obtain ⟨fresh, hvalid⟩ := Judgement.ofBlock_of_openBlock hne hopen hplaces
  rw [hd, hvalid] at hj
  cases hj

/-- Judging a block that is awaited adds the verdict to the trace, and at most that the block could
not be stored. -/
theorem take_trace (h : Books rules [] r.state) (ha : r.state.pending.get? a.id = some awaiting) (W : World ω)
    (p : Pass) : ∃ (s : State) (stored : List (Moment ω)), (Pass.take W rules a awaiting p r).2.2.trace =
        stored ++ ⟨.judged a.id (W.arrange awaiting r.world).1 (Pass.take W rules a awaiting p r).1,
          (W.arrange awaiting r.world).2, s⟩ :: r.trace ∧
      (∀ m ∈ stored, (∃ e, m.effect = .logged (.notStored a.id e)) ∧ m.state = s) ∧
      ∀ root, s.roots.get? root = (r.state.roots.get? root).map fun d =>
        (d.resolve root (r.state.pending.positions a.id root).length).2 := by
  have hw := h.pending _ _ ha
  have hp := W.arrange_perm awaiting r.world
  have hverdict : (Pass.take W rules a awaiting p r).1 =
      Verdict.ofBlock rules a.raw (W.arrange awaiting r.world).1 r.state.roots := Pass.take_verdict hw.nodup
  have hlog : (Pass.take W rules a awaiting p r).1.log = [] := by
    rw [hverdict]
    refine Verdict.log_eq_nil ?_
    rintro ⟨root, j⟩ he
    obtain ⟨positions, hm, rfl⟩ := Verdict.mem_ofBlock.1 he
    obtain ⟨hne, hpos, d, hd⟩ := h.of_mem_awaiting ha (hp.mem_iff.1 hm)
    have hopen : ∀ ix ∈ positions, Open [] r.state root a.id ix := fun ix hix => .inl (hpos ▸ hix)
    rw [hd]
    rcases Judgement.ofBlock_cases rules root a.raw hne (fun hreq ix hix => (h.requested hd hreq (hopen ix hix)).2)
      (fun t hexp h0 => absurd ((h.expanding hd hexp).2.2 (hopen 0 h0)).1 (Nat.lt_irrefl 0)) with
      ⟨e, hbroken⟩ | ⟨block, t, fresh, -, hvalid, -⟩
    · exact .inl ⟨e, hbroken⟩
    · exact .inr ⟨_, _, hvalid⟩
  have htrace := Pass.judge_trace (W := W) (a := a) (p := p)
    (r := r.setPending (r.state.pending.without a.id)) hw.nodup ?_ hlog ?_
  · simp only [positions_of_get? ha] at htrace
    exact htrace
  · intro root d hd
    rw [positions_of_get? ha]
    exact h.length_positions_le hd a.id
  · -- a shape is given at position 0, where only a root awaits its block whose shape is unknown
    intro root d hroot hd
    change root ∈ Table.keys (Pass.take W rules a awaiting p r).1.schemas at hroot
    rw [hverdict, Verdict.schemas_eq] at hroot
    obtain ⟨⟨other, t⟩, hm, rfl⟩ := List.mem_map.1 hroot
    obtain ⟨⟨other', j⟩, hj, hfresh⟩ := List.mem_filterMap.1 hm
    obtain ⟨t', hfresh, heq⟩ := Option.map_eq_some_iff.1 hfresh
    cases heq
    obtain ⟨positions, hmem, rfl⟩ := Verdict.mem_ofBlock.1 hj
    obtain ⟨-, hpos, -⟩ := h.of_mem_awaiting ha (hp.mem_iff.1 hmem)
    have h0 : 0 ∈ r.state.pending.positions a.id other' := hpos.symm ▸ Judgement.zero_mem_of_fresh hfresh
    cases hphase : d.phase with
    | requested => rfl
    | expanding t => exact absurd ((h.expanding hd hphase).2.2 (.inl h0)).1 (Nat.lt_irrefl 0)

/-- A judged block puts its children in its place. -/
theorem take (h : Books rules [] r.state) (ha : r.state.pending.get? a.id = some awaiting) (W : World ω) (p : Pass) :
    Books rules (Pass.take W rules a awaiting p r).1.children (Pass.take W rules a awaiting p r).2.2.state := by
  have hpending := Pass.take_pending W rules a awaiting p r
  have hkeys := Pass.take_keys W rules a awaiting p r
  have hfate := h.fate ha W p
  generalize hv : (Pass.take W rules a awaiting p r).1 = v at *
  generalize (Pass.take W rules a awaiting p r).2.2 = r' at *
  have hwait : ∀ {root id ix}, ix ∈ r'.state.pending.positions id root → Open [] r.state root id ix ∧ a.id ≠ id := by
    intro root id ix hix
    rw [hpending, PendingIndex.mem_positions_without] at hix
    exact ⟨.inl hix.1, Ne.symm hix.2⟩
  refine ⟨?_, by rw [hkeys]; exact h.roots, ?_, ?_, ?_, ?_⟩
  · rw [hpending]
    exact PendingIndex.without_wf h.pending _
  · intro id root hne
    obtain ⟨ix, hix⟩ := List.exists_mem_of_ne_nil _ hne
    obtain ⟨hopen, -⟩ := hwait hix
    rcases hopen with hpos | hnone
    · obtain ⟨d, hd, hm⟩ := h.waiter (List.ne_nil_of_mem hpos)
      have hmem : root ∈ r'.state.roots.keys := hkeys ▸ Table.mem_keys_of_get? hd
      cases hg : r'.state.roots.get? root with
      | none => exact absurd hmem (Table.get?_eq_none_iff.1 hg)
      | some d' =>
        obtain ⟨d₀, hd₀, hf⟩ := hfate hg
        rw [hd] at hd₀
        cases hd₀
        exact ⟨d', rfl, by rw [hf.kept.2.2.1]; exact hm⟩
    · cases hnone
  · intro root d' hd'
    obtain ⟨d, hd, hf⟩ := hfate hd'
    have hsplit := (PendingIndex.waits_split r.state.pending a.id root).length_eq
    rw [List.length_append, List.length_map] at hsplit
    rw [hf.kept.2.2.2, h.account hd, hsplit, hpending]
    omega
  · intro root d' hd' hp id ix ho
    obtain ⟨d, hd, hf⟩ := hfate hd'
    have hnone : (v.children.filter fun c => decide (c.root = root)) = [] ∧ d.phase = .requested := by
      cases hf with
      | passed _ hc => exact ⟨hc, hp⟩
      | broken e _ _ hc => exact ⟨hc, hp⟩
      | grown block t => cases hp
    exact h.requested hd hnone.2 (hwait (positions_of_open hnone.1 ho)).1
  · intro root d' t hd' hp
    obtain ⟨d, hd, hf⟩ := hfate hd'
    have hsame : (v.children.filter fun c => decide (c.root = root)) = [] → d.phase = .expanding t →
        t.Small ∧ t.size = rules.size ∧
          ∀ {id ix}, Open v.children r'.state root id ix → 0 < ix ∧ ix < t.totalBlocks := by
      intro hc hp
      obtain ⟨hs, hsize, hfit⟩ := h.expanding hd hp
      exact ⟨hs, hsize, fun ho => hfit (hwait (positions_of_open hc ho)).1⟩
    cases hf with
    | passed _ hc => exact hsame hc hp
    | broken e _ _ hc => exact hsame hc hp
    | grown block t' hne hopen hphase hc =>
      obtain rfl : t' = t := by simpa using hp
      obtain ⟨hs, hsize⟩ := h.small_of_phase hd hphase
      refine ⟨hs, hsize, ?_⟩
      rintro id ix (ho | ho)
      · obtain ⟨ho, hid⟩ := hwait ho
        rcases hphase with hp | ⟨hp, -⟩
        · exact (h.expanding hd hp).2.2 ho
        · -- such a root waits for its root block, which was judged, and for no other
          obtain ⟨j, hj⟩ := List.exists_mem_of_ne_nil _ hne
          exact absurd (h.requested_eq hd hp (.inl hj) ho) hid
      · -- the children of a position are below it
        obtain ⟨j, hj, hlinked⟩ := (Pass.mem_children_iff_linked hsize hc).1 ho
        rw [(Join.linked_of_openBlock (hopen j hj)).1] at hlinked
        have hin : j < ix ∧ ix < t'.totalBlocks :=
          hs.fits.lt_of_mem_children (Join.lt_of_openBlock (hopen j hj)) (List.of_mem_zip hlinked).1
        omega

end Judging

/-- The books are in order whatever a handler has still to do. -/
theorem step {σ σ' : Stage} {r r' : Run ω} (h : Books rules σ.owed r.state) (hs : Step W rules σ r σ' r') :
    Books rules σ'.owed r'.state := by
  cases hs with
  | logged | arranged | asked | announced | refused | found | missed | discarded | fetched | settled | broke | spared
  | finished => exact h
  | judged a awaiting p ha => exact h.take ha W p
  | expanded child d hd => exact h.await hd
  | orphaned child => exact h.sub fun c hc => List.mem_cons_of_mem _ hc
  | released root d hd => exact h.dismiss hd
  | completed root d hd =>
    refine dismiss (r := mark W root _) ?_ ?_
    · rw [mark_state]
      exact h
    · rw [mark_state]
      exact hd

theorem opened {σ' : Stage} {r r' : Run ω} (h : Books rules [] r.state) (ho : Opening W Delivers r σ' r') :
    Books rules σ'.owed r'.state := by
  cases ho with
  | launched root tag timeout hn => exact launch (r := (r.call (W.setStatus root .part)).2) h hn tag timeout
  | delivered id raw => exact h

end Books

/-- In every state that the downloader gets into, the books are in order. -/
theorem Reached.books {σ : Stage} {r : Run ω} (h : Reached W rules Delivers world σ r) :
    Books rules σ.owed r.state := by
  induction h with
  | start => exact Books.initial
  | opened _ ho ih => exact ih.opened ho
  | step _ hs ih => exact ih.step hs

/-- The books are in order, whatever is still to be done. -/
def InOrder (rules : Rules) (σ : Stage) (r : Run ω) : Prop := Books rules σ.owed r.state

theorem Reached.inOrder {σ : Stage} {r : Run ω} (h : Reached W rules Delivers world σ r) : InOrder rules σ r :=
  h.books

namespace InOrder

variable {σ σ' : Stage} {r r' : Run ω}

theorem books (h : InOrder rules σ r) : Books rules σ.owed r.state := h

theorem step (h : InOrder rules σ r) (hs : Step W rules σ r σ' r') : InOrder rules σ' r' := h.books.step hs

theorem leads (h : InOrder rules σ r) (hl : Leads W rules σ r σ' r') : InOrder rules σ' r' := by
  induction hl with
  | refl => exact h
  | tail _ hs ih => exact ih.step hs

theorem proceeds (h : InOrder rules .idle r) (hp : Proceeds W rules Delivers r σ' r') : InOrder rules σ' r' := by
  cases hp with
  | leads hl => exact h.leads hl
  | opened hl ho hl' => exact InOrder.leads ((h.leads hl).books.opened ho) hl'

end InOrder

end BlockDag.Downloader
