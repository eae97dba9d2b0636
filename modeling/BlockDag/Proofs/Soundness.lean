/-
Soundness over a store in memory: a root that is reported as added is full, its blocks join to a
payload within the limits, and the payload splits into those very blocks; and so it stays. Blocks
that somebody waits for are not in the store, unless they are looked up or judged next, so what is
judged valid is what the store has from then on.
-/
import BlockDag.Proofs.Reports
import BlockDag.Proofs.Trees
import BlockDag.Store.Resource

namespace BlockDag

/-! ## Whole trees -/

/-- The store has every block of a tree whose root block is accepted. -/
structure MemoryStore.Bears (rules : Rules) (s : MemoryStore) (tag : DataTag) (t : Schema) (tree : Nat → NamedBlock) :
    Prop where
  laid : t.Laid tree
  accepted : Judgement.rootSchema rules tag (Block.dataOf (tree 0).2) = .ok t
  resident : ∀ ix < t.totalBlocks, s.view (tree ix).1 = .ok (tree ix).2

/-- The store has every block of the tree below `root`, under its name, and the root's header is
accepted. -/
def MemoryStore.Whole (rules : Rules) (s : MemoryStore) (root : RootId) : Prop :=
  ∃ (tag : DataTag) (t : Schema) (tree : Nat → NamedBlock), t.Laid tree ∧ t.Named tree ∧ (tree 0).1 = root ∧
    Judgement.rootSchema rules tag (Block.dataOf (tree 0).2) = .ok t ∧
    ∀ ix < t.totalBlocks, s.view (tree ix).1 = .ok (tree ix).2

namespace MemoryStore

variable {rules : Rules} {s s' : MemoryStore} {root : RootId} {tag : DataTag} {t : Schema} {tree : Nat → NamedBlock}

/-- A tree in the store joins to a payload within the limits. -/
theorem Bears.exists_payload (h : s.Bears rules tag t tree) :
    ∃ payload limits, rules.limits tag = some limits ∧ payload.length ≤ limits.maxSize ∧
      t = Schema.ofDeclared rules.size (payload.length + 1) ∧ EncodedBlob.frame tag payload = .ok (t.stream tree) ∧
      join rules.size (tree 0).1 (operations.lookup s) = .ok ⟨tag, payload⟩ := by
  obtain ⟨payload, limits, hlim, hmax, rfl, hframe⟩ := Judgement.frame_of_rootSchema h.laid h.accepted
  refine ⟨payload, limits, hlim, hmax, rfl, hframe, EncodedBlob.join_of_laid h.laid hframe ?_⟩
  intro _ ix hix
  unfold BlockStore.lookup
  exact congrArg Except.toOption (h.resident ix hix)

theorem Whole.mono (h : s.Whole rules root) (hle : s.Le s') : s'.Whole rules root := by
  obtain ⟨tag, t, tree, hlaid, hnamed, h0, hroot, hview⟩ := h
  exact ⟨tag, t, tree, hlaid, hnamed, h0, hroot, fun ix hix => hle.view (hview ix hix)⟩

/-- A whole tree joins to a payload within the limits, which splits into the tree. -/
theorem Whole.exists_payload (h : s.Whole rules root) :
    ∃ tag payload limits blob, rules.limits tag = some limits ∧ payload.length ≤ limits.maxSize ∧
      join rules.size root (operations.lookup s) = .ok ⟨tag, payload⟩ ∧
      EncodedBlob.split rules.size tag payload = .ok blob ∧ blob.root = root ∧
      ∀ b ∈ blob.blocks, s.view b.1 = .ok b.2 := by
  obtain ⟨tag, t, tree, hlaid, hnamed, rfl, hroot, hview⟩ := h
  obtain ⟨payload, limits, hlim, hmax, rfl, hframe, hjoin⟩ := Bears.exists_payload ⟨hlaid, hroot, hview⟩
  refine ⟨tag, payload, limits, _, hlim, hmax, hjoin, EncodedBlob.split_of_laid hlaid hnamed hframe, rfl, ?_⟩
  intro b hb
  obtain ⟨ix, hix, rfl⟩ := List.mem_map.1 hb
  exact hview ix (List.mem_range.1 hix)

/-- `root` is full and whole. -/
def Secured (rules : Rules) (root : RootId) (s : MemoryStore) : Prop := s.status root = some .full ∧ s.Whole rules root

theorem Secured.mono (h : s.Secured rules root) (hle : s.Le s') : s'.Secured rules root :=
  ⟨hle.full h.1, h.2.mono hle⟩

end MemoryStore

namespace Downloader

variable {ν : Type} {N : Outside ν} {rules : Rules} {Delivers : Bytes → Prop} {world : MemoryStore × ν}
variable {σ σ' : Stage} {r r' : Run (MemoryStore × ν)}

/-! ## Where awaited blocks are -/

/-- A block that is waited for and in the store is to be looked up or judged; and a block from the
network comes alone. -/
structure Sought (σ : Stage) (r : Run (MemoryStore × ν)) : Prop where
  resident : ∀ {id}, r.state.pending.Has id → r.world.1.Holds id →
    id ∈ σ.unseen ∨ ∃ a ∈ σ.queue, a.id = id ∧ a.received = false
  alone : ∀ {a}, a ∈ σ.queue → a.received = true → σ.queue = [a] ∧ σ.unseen = [] ∧ σ.owed = []

namespace Sought

/-- A block from the network that is waited for is not in the store. -/
theorem not_holds (h : Sought σ r) {a : Arrival} (ha : a ∈ σ.queue) (hc : a.received = true)
    (hp : r.state.pending.Has a.id) : ¬ r.world.1.Holds a.id := by
  intro hholds
  obtain ⟨hq, hu, -⟩ := h.alone ha hc
  rcases h.resident hp hholds with hid | ⟨b, hb, -, hb'⟩
  · rw [hu] at hid
    cases hid
  · rw [hq, List.mem_singleton] at hb
    rw [hb, hc] at hb'
    cases hb'

/-- Where there is more to do than to judge blocks, none of them is from the network. -/
theorem received_eq_false (h : Sought σ r) {a : Arrival} (ha : a ∈ σ.queue) (hne : σ.unseen ≠ [] ∨ σ.owed ≠ []) :
    a.received = false := by
  by_contra hc
  obtain ⟨-, hu, ho⟩ := h.alone ha (by simpa using hc)
  exact hne.elim (fun hne => hne hu) (fun hne => hne ho)

/-- A block from the network is the next one. -/
theorem eq_of_received {q : List Arrival} {u w : List BlockId} {o : List Child} {m : List (RootId × FormatError)}
    {a b : Arrival} (h : Sought ⟨a :: q, u, w, o, m⟩ r) (hb : b ∈ a :: q) (hc : b.received = true) : a = b :=
  (List.cons.inj (h.alone hb hc).1).1

/-- Behind another block there is none from the network. -/
theorem not_received {q : List Arrival} {u w : List BlockId} {o : List Child} {m : List (RootId × FormatError)}
    {a b : Arrival} (h : Sought ⟨a :: q, u, w, o, m⟩ r) (hb : b ∈ q) : b.received ≠ true := by
  intro hc
  have halone := (h.alone (List.mem_cons_of_mem _ hb) hc).1
  rw [List.cons_eq_cons] at halone
  rw [halone.2] at hb
  cases hb

/-- A judged block is not waited for any more, and no other block comes in. -/
theorem take {q : List Arrival} {w : List BlockId} {a : Arrival} {awaiting : Awaiting} {p : Pass} {o' : List Child}
    {m' : List (RootId × FormatError)} (h : Sought ⟨a :: q, [], w, [], []⟩ r) :
    Sought ⟨q, [], w, o', m'⟩ (Pass.take (World.over MemoryStore.operations N) rules a awaiting p r).2.2 := by
  have hmem := take_mem (World.over_memoryLike N) rules a awaiting p r
  constructor
  · intro j hp hh
    rw [Pass.take_pending, PendingIndex.has_without] at hp
    have hh' : r.world.1.Holds j := by
      rcases hmem with hw | ⟨-, hw⟩
      · rw [hw] at hh
        exact hh
      · rw [hw, MemoryStore.holds_put_iff] at hh
        exact hh.resolve_right hp.1
    rcases h.resident hp.2 hh' with hj | ⟨b, hb, rfl, hc⟩
    · cases hj
    · rcases List.mem_cons.1 hb with rfl | hb
      · exact absurd rfl hp.1
      · exact .inr ⟨b, hb, rfl, hc⟩
  · exact fun hb hc => absurd hc (h.not_received hb)

/-- A child that nobody waited for is looked up. -/
theorem await {q : List Arrival} {w : List BlockId} {o : List Child} {child : Child} {d : Download}
    (h : Sought ⟨q, [], w, child :: o, []⟩ r) :
    Sought ⟨q, if r.state.pending.Has child.id then [] else [child.id], w, o, []⟩ (Pass.await child d r) := by
  constructor
  · intro j hp hh
    rw [await_pending, PendingIndex.has_insert] at hp
    rcases hp with rfl | hp
    · by_cases hw : r.state.pending.Has child.id
      · rw [if_pos hw]
        exact h.resident hw hh
      · rw [if_neg hw]
        exact .inl (List.mem_singleton.2 rfl)
    · rcases h.resident hp hh with hj | hj
      · cases hj
      · exact .inr hj
  · intro b hb hc
    rw [h.received_eq_false hb (.inr (List.cons_ne_nil _ _))] at hc
    cases hc

theorem step (hb : Books rules σ.owed r.state) (h : Sought σ r)
    (hs : Step (World.over MemoryStore.operations N) rules σ r σ' r') : Sought σ' r' := by
  cases hs with
  | logged | arranged | asked | announced | broke | finished | fetched | settled | spared =>
    exact ⟨h.resident, h.alone⟩
  | refused root => exact ⟨fun hp hh => h.resident hp (MemoryStore.holds_setStatus.1 hh), h.alone⟩
  | found id raw =>
    constructor
    · intro j hp hh
      rcases h.resident hp hh with hj | ⟨b, hb, hid, hc⟩
      · rcases List.mem_cons.1 hj with rfl | hj
        · exact .inr ⟨_, List.mem_append_right _ (List.mem_singleton.2 rfl), rfl, rfl⟩
        · exact .inl hj
      · exact .inr ⟨b, List.mem_append_left _ hb, hid, hc⟩
    · intro b hb hc
      rcases List.mem_append.1 hb with hb | hb
      · rw [h.received_eq_false hb (.inl (List.cons_ne_nil _ _))] at hc
        cases hc
      · rw [List.mem_singleton.1 hb] at hc
        cases hc
  | missed id e he =>
    constructor
    · intro j hp hh
      rcases h.resident hp hh with hj | hj
      · rcases List.mem_cons.1 hj with rfl | hj
        · obtain ⟨raw, hv⟩ := MemoryStore.holds_iff.1 hh
          exact absurd (hv.symm.trans he) (by simp)
        · exact .inl hj
      · exact .inr hj
    · intro b hb hc
      rw [h.received_eq_false hb (.inl (List.cons_ne_nil _ _))] at hc
      cases hc
  | @discarded q u w o m r a hn =>
    constructor
    · intro j hp hh
      rcases h.resident hp hh with hj | ⟨b, hb, rfl, hc⟩
      · exact .inl hj
      · rcases List.mem_cons.1 hb with rfl | hb
        · exact absurd hp hn
        · exact .inr ⟨b, hb, rfl, hc⟩
    · exact fun hb hc => absurd hc (h.not_received hb)
  | judged => exact h.take
  | expanded => exact h.await
  | orphaned child =>
    refine ⟨h.resident, ?_⟩
    intro b hb hc
    rw [h.received_eq_false hb (.inr (List.cons_ne_nil _ _))] at hc
    cases hc
  | released root d => exact ⟨fun hp hh => h.resident (PendingIndex.has_of_has_removeRoot hb.pending hp) hh, h.alone⟩
  | completed root d =>
    refine ⟨?_, by simp⟩
    intro j hp hh
    rw [dismiss_pending, mark_state] at hp
    rw [dismiss_world, mark_world] at hh
    exact h.resident (PendingIndex.has_of_has_removeRoot hb.pending hp) (MemoryStore.holds_setStatus.1 hh)

/-- Where no block is left to be handled, none that is waited for is in the store. -/
theorem not_holds_of_idle {w : List BlockId} (h : Sought ⟨[], [], w, [], []⟩ r) {id : BlockId}
    (hp : r.state.pending.Has id) : ¬ r.world.1.Holds id := by
  intro hh
  rcases h.resident hp hh with hid | ⟨b, hb, -⟩
  · cases hid
  · cases hb

/-- A block that is valid for somebody is in the store once it was judged. -/
theorem view_take {q : List Arrival} {w : List BlockId} {a : Arrival} {awaiting : Awaiting} {p : Pass}
    {start : MemoryStore} (h : Sought ⟨a :: q, [], w, [], []⟩ r)
    (hstock : Stock Prod.fst Delivers start ⟨a :: q, [], w, [], []⟩ r) (ha : r.state.pending.get? a.id = some awaiting)
    (hvalid : (Pass.take (World.over MemoryStore.operations N) rules a awaiting p r).1.validated ≠ []) :
    (Pass.take (World.over MemoryStore.operations N) rules a awaiting p r).2.2.world.1.view a.id = .ok a.raw := by
  have hp : r.state.pending.Has a.id := by
    rw [PendingIndex.has_iff_get?, ha]
    exact ⟨awaiting, rfl⟩
  rw [Pass.take_world]
  cases hc : a.received with
  | true =>
    rw [if_pos ⟨rfl, hvalid⟩]
    exact MemoryStore.view_put_eq_ok_iff.2 (.inr ⟨rfl, rfl, h.not_holds List.mem_cons_self hc hp⟩)
  | false =>
    rw [if_neg (by simp)]
    exact hstock.resident a List.mem_cons_self hc

theorem opened (h : Sought .idle r) (ho : Opening (World.over MemoryStore.operations N) Delivers r σ' r') :
    Sought σ' r' := by
  cases ho with
  | launched root tag timeout =>
    refine ⟨?_, by simp⟩
    intro j hp hh
    rw [launch_pending, PendingIndex.has_insert] at hp
    rw [launch_world] at hh
    replace hh := MemoryStore.holds_setStatus.1 hh
    by_cases hw : r.state.pending.Has root
    · exact absurd hh (h.not_holds_of_idle (hp.elim (fun heq => heq ▸ hw) id))
    · rw [if_neg hw]
      rcases hp with rfl | hp
      · exact .inl (List.mem_singleton.2 rfl)
      · exact absurd hh (h.not_holds_of_idle hp)
  | delivered id raw =>
    refine ⟨fun hp hh => absurd hh (h.not_holds_of_idle hp), ?_⟩
    intro b hb _
    rw [List.mem_singleton.1 hb]
    exact ⟨rfl, rfl, rfl⟩

end Sought

theorem Reached.sought (h : Reached (World.over MemoryStore.operations N) rules Delivers world σ r) : Sought σ r := by
  induction h with
  | start =>
    refine ⟨?_, by simp [Stage.idle]⟩
    intro id hp
    obtain ⟨root, hr⟩ := (PendingIndex.has_iff_positions PendingIndex.empty_wf).1 hp
    simp at hr
  | opened _ ho ih => exact ih.opened ho
  | step hr hs ih => exact ih.step hr.books hs

/-! ## Reported roots -/

/-- A root that is marked is full then: it is in flight, so it was partial. -/
theorem Step.marks_full (hr : Reached (World.over MemoryStore.operations N) rules Delivers world σ r)
    (hs : Step (World.over MemoryStore.operations N) rules σ r σ' r') :
    Run.Adds (fun m => ∀ root outcome, m.effect = .marked root outcome → r'.world.1.status root = some .full) r r' := by
  have hm := World.over_memoryLike N
  refine hs.adds_report.mono ?_
  intro m hreport root outcome he
  obtain ⟨hcause, hw⟩ := hreport root (.inr ⟨outcome, he⟩)
  rw [← hw]
  cases hcause with
  | announced => cases he
  | marked w d _ hd =>
    refine hm.status_setStatus_of_ok (MemoryStore.setStatus_eq_ok_iff.2 ?_)
    rw [(hr.stock hm).part hd]
    rfl
  | finished => cases he

/-- What is in the store is kept: a block that turns out valid is the one that the store has. -/
theorem keeping_view (N : Outside ν) (rules : Rules) (Delivers : Bytes → Prop) (world : MemoryStore × ν) :
    Keeping (World.over MemoryStore.operations N) rules Delivers world fun r id raw => r.world.1.view id = .ok raw where
  opened _ ho hv := (ho.le (World.over_memoryLike N)).view hv
  step _ hs hv := (hs.le (World.over_memoryLike N)).view hv
  judged h ha hvalid := h.sought.view_take (h.stock (World.over_memoryLike N)) ha hvalid

/-- Where the store started with named blocks, it has named blocks only. -/
theorem Reached.named (h : Reached (World.over MemoryStore.operations N) rules Delivers world σ r)
    (hstart : ∀ {id raw}, world.1.view id = .ok raw → id.Names raw) {id : BlockId} {raw : Bytes}
    (hv : r.world.1.view id = .ok raw) : id.Names raw :=
  ((h.stock (World.over_memoryLike N)).origin hv).elim hstart And.left

/-- Full roots are whole, marked ones are full, and those reported as added were and are secured. -/
structure Sound (rules : Rules) (r : Run (MemoryStore × ν)) : Prop where
  full : ∀ {root}, r.world.1.status root = some .full → r.world.1.Whole rules root
  marked : ∀ {m root outcome}, m ∈ r.trace → m.effect = .marked root outcome → r.world.1.status root = some .full
  added : ∀ {m root}, m ∈ r.trace → m.effect = .notified (.added root) →
    m.world.1.Secured rules root ∧ r.world.1.Secured rules root
  later : r.trace.Pairwise fun later earlier => ∀ {root}, earlier.effect = .notified (.added root) →
    later.world.1.Secured rules root

namespace Sound

/-- A stretch of a run is sound that loses nothing, and reports roots that are secured. -/
theorem extend (h : Sound rules r) (hle : r.world.1.Le r'.world.1)
    (hfull : ∀ {root}, r'.world.1.status root = some .full → r'.world.1.Whole rules root)
    (hnew : Run.Adds (fun m => r.world.1.Le m.world.1 ∧
      ∀ root, (m.effect = .notified (.added root) → r.world.1.Secured rules root) ∧
        ∀ outcome, m.effect = .marked root outcome → r'.world.1.status root = some .full) r r') : Sound rules r' := by
  obtain ⟨new, hn, hp⟩ := hnew
  refine ⟨hfull, ?_, ?_, ?_⟩
  · intro m root outcome hm he
    rw [hn] at hm
    rcases List.mem_append.1 hm with hm | hm
    · exact ((hp m hm).2 root).2 outcome he
    · exact hle.full (h.marked hm he)
  · intro m root hm he
    rw [hn] at hm
    rcases List.mem_append.1 hm with hm | hm
    · have hsecured := ((hp m hm).2 root).1 he
      exact ⟨hsecured.mono (hp m hm).1, hsecured.mono hle⟩
    · exact ⟨(h.added hm he).1, (h.added hm he).2.mono hle⟩
  · -- what is new comes later than what there was
    rw [hn, List.pairwise_append]
    refine ⟨List.pairwise_of_forall_mem_list ?_, h.later, ?_⟩
    · intro later hl earlier he root ha
      exact (((hp earlier he).2 root).1 ha).mono (hp later hl).1
    · intro later hl earlier he root ha
      exact (h.added he ha).2.mono (hp later hl).1

theorem opened (h : Sound rules r) (ho : Opening (World.over MemoryStore.operations N) Delivers r σ' r') :
    Sound rules r' := by
  have hm := World.over_memoryLike N
  refine h.extend (ho.le hm) (fun hf => (h.full (ho.full hm hf)).mono (ho.le hm)) ?_
  refine ((ho.adds_le hm).and ho.adds).mono ?_
  rintro m ⟨hle, hsilent⟩
  refine ⟨hle, fun root => ⟨fun he => absurd (.inl he) (hsilent root), ?_⟩⟩
  intro outcome he
  exact absurd (.inr ⟨outcome, he⟩) (hsilent root)

theorem step (hstart : ∀ {id raw}, world.1.view id = .ok raw → id.Names raw)
    (hr : Reached (World.over MemoryStore.operations N) rules Delivers world σ r) (h : Sound rules r)
    (hs : Step (World.over MemoryStore.operations N) rules σ r σ' r') : Sound rules r' := by
  have hm := World.over_memoryLike N
  have hle := hs.le hm
  -- a root in flight that waits for nothing has its whole tree
  have hwhole : ∀ {root w d}, σ = ⟨[], [], w, [], []⟩ → r.state.roots.get? root = some d → d.Complete →
      r.world.1.Whole rules root := by
    rintro root w d rfl hd hc
    obtain ⟨t, tree, hlaid, h0, hroot, hview⟩ := hr.exists_tree (keeping_view N rules Delivers world) hd hc
    exact ⟨d.tag, t, tree, hlaid, fun ix hix => hr.named hstart (hview ix hix), h0, hroot, hview⟩
  refine h.extend hle ?_ ((((hs.adds_le hm).and hs.adds_report).and (hs.marks_full hr)).mono ?_)
  · intro root hf
    rcases hs.full_cases hm hf with hf | ⟨w, d, -, hσ, hd, hc, -⟩
    · exact (h.full hf).mono hle
    · exact (hwhole hσ hd hc).mono hle
  · rintro m ⟨⟨hm', hreport⟩, hmarked⟩
    refine ⟨hm', fun root => ⟨?_, hmarked root⟩⟩
    intro he
    have hf : r.world.1.status root = some .full := by
      cases (hreport root (.inl he)).1 with
      | announced hf => exact Except.ok.inj hf
      | marked => cases he
      | finished m' outcome hmem he' => exact h.marked hmem he'
    exact ⟨hf, h.full hf⟩

end Sound

theorem Reached.sound (hfull : ∀ root, world.1.status root ≠ some .full)
    (hnamed : ∀ {id raw}, world.1.view id = .ok raw → id.Names raw)
    (h : Reached (World.over MemoryStore.operations N) rules Delivers world σ r) : Sound rules r := by
  induction h with
  | start => exact ⟨fun hf => absurd hf (hfull _), by simp, by simp, by simp⟩
  | opened _ ho ih => exact ih.opened ho
  | step hr hs ih => exact ih.step hnamed hr hs

/-- Whatever the network delivers, a root that is reported as added is full from then on, its blocks
join to a payload within the limits, and that payload splits into the very blocks in the store. -/
theorem added_secured (N : Outside ν) (rules : Rules) (events : List Event) (world : MemoryStore × ν)
    (hfull : ∀ root, world.1.status root ≠ some .full)
    (hnamed : ∀ {id raw}, world.1.view id = .ok raw → id.Names raw)
    {later earlier : List (Moment (MemoryStore × ν))} {m : Moment (MemoryStore × ν)} {root : RootId}
    (htrace : (history (World.over MemoryStore.operations N) rules events world).trace = later ++ m :: earlier)
    (hadded : m.effect = .notified (.added root)) :
    ∀ w ∈ (history (World.over MemoryStore.operations N) rules events world).world :: (later ++ [m]).map (·.world),
      w.1.status root = some .full ∧ ∃ payload limits blob, rules.limits .blockBody = some limits ∧
        payload.length ≤ limits.maxSize ∧
        join rules.size root (MemoryStore.operations.lookup w.1) = .ok ⟨.blockBody, payload⟩ ∧
        EncodedBlob.split rules.size .blockBody payload = .ok blob ∧ blob.root = root ∧
        ∀ b ∈ blob.blocks, w.1.view b.1 = .ok b.2 := by
  have hsound := (history_reached (World.over MemoryStore.operations N) rules events world).sound hfull hnamed
  have hm := hsound.added (m := m) (htrace ▸ List.mem_append_right _ List.mem_cons_self) hadded
  have hlater := hsound.later
  rw [htrace, List.pairwise_append] at hlater
  have hsecured : ∀ w ∈ (history (World.over MemoryStore.operations N) rules events world).world ::
      (later ++ [m]).map (·.world), w.1.Secured rules root := by
    intro w hw
    rcases List.mem_cons.1 hw with rfl | hw
    · exact hm.2
    · obtain ⟨m', hm', rfl⟩ := List.mem_map.1 hw
      rcases List.mem_append.1 hm' with hm' | hm'
      · exact hlater.2.2 m' hm' m List.mem_cons_self hadded
      · rw [List.mem_singleton.1 hm']
        exact hm.1
  intro w hw
  obtain ⟨hf, hwhole⟩ := hsecured w hw
  obtain ⟨⟨⟩, payload, limits, blob, hblob⟩ := hwhole.exists_payload
  exact ⟨hf, payload, limits, blob, hblob⟩

theorem added_secured_leaves : (∃ m earlier, (Sample.run (Sample.download Sample.leaves)).trace = [] ++ m :: earlier ∧
      m.effect = .notified (.added (Sample.blob Sample.leaves).root)) ∧
    (Sample.run (Sample.download Sample.leaves)).world.1.status (Sample.blob Sample.leaves).root = some .full ∧
    ∃ payload limits blob, Sample.rules.limits .blockBody = some limits ∧ payload.length ≤ limits.maxSize ∧
      join Sample.rules.size (Sample.blob Sample.leaves).root
        (MemoryStore.operations.lookup (Sample.run (Sample.download Sample.leaves)).world.1) =
          .ok ⟨.blockBody, payload⟩ ∧
      EncodedBlob.split Sample.rules.size .blockBody payload = .ok blob ∧ blob.root = (Sample.blob Sample.leaves).root ∧
      ∀ b ∈ blob.blocks, (Sample.run (Sample.download Sample.leaves)).world.1.view b.1 = .ok b.2 := by
  obtain ⟨m, earlier, ht, he⟩ : ∃ m earlier, (Sample.run (Sample.download Sample.leaves)).trace = [] ++ m :: earlier ∧
      m.effect = .notified (.added (Sample.blob Sample.leaves).root) := Run.exists_last _ (by decide +kernel)
  refine ⟨⟨m, earlier, ht, he⟩, ?_⟩
  exact added_secured Simulation.Refusals.outside Sample.rules (Sample.download Sample.leaves) (.empty, Sample.network)
    (by simp) (by simp) ht he _ List.mem_cons_self

end Downloader

end BlockDag
