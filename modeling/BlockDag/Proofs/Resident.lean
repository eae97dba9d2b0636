/-
Downloads of what is in the store already. Joining reads a tree depth first, block after block, and
looks at the tag last; a pass goes through it level by level, takes equal blocks together and checks
the header first. They accept the same trees: a root that is kicked off is added in that very event
exactly if its blocks join to a payload within the limits, and then nothing is asked of the network.
-/
import BlockDag.Proofs.Canonical
import BlockDag.Proofs.Honest
import BlockDag.Proofs.Malformed
import BlockDag.Proofs.Soundness

namespace BlockDag

/-! ## Trees in a store -/

namespace MemoryStore

variable {rules : Rules} {s : MemoryStore} {tag : DataTag} {root : RootId} {t : Schema} {tree : Nat → NamedBlock}

/-- The store has every block of a tree below `root`, whose header is accepted for a payload of kind
`tag`. Nothing is said about the names of the blocks. -/
def Supplies (rules : Rules) (s : MemoryStore) (tag : DataTag) (root : RootId) : Prop :=
  ∃ (t : Schema) (tree : Nat → NamedBlock), s.Bears rules tag t tree ∧ (tree 0).1 = root

/-- The trees in the store are those that join to a payload within the limits. -/
theorem supplies_iff : s.Supplies rules tag root ↔ ∃ limits payload, rules.limits tag = some limits ∧
    join rules.size root (operations.lookup s) = .ok ⟨tag, payload⟩ ∧ payload.length ≤ limits.maxSize := by
  constructor
  · rintro ⟨t, tree, hbears, rfl⟩
    obtain ⟨payload, limits, hlim, hmax, -, -, hjoin⟩ := hbears.exists_payload
    exact ⟨limits, payload, hlim, hjoin, hmax⟩
  · rintro ⟨limits, payload, hlim, hjoin, hmax⟩
    have hkept : ∀ (asked : List BlockId) (id : BlockId) (raw : Bytes),
        (fun _ => operations.lookup s : Join.Lookup) asked id = some raw → s.view id = .ok raw := by
      intro asked id raw hlookup
      change (s.view id).toOption = some raw at hlookup
      cases hv : s.view id with
      | ok bytes =>
        rw [hv] at hlookup
        rw [Option.some.inj hlookup]
      | error e =>
        rw [hv] at hlookup
        cases hlookup
    obtain ⟨tree, h0, hlaid, hview, hframe, -⟩ :=
      EncodedBlob.exists_tree_of_run (fun b => s.view b.1 = .ok b.2) hkept hjoin
    exact ⟨_, tree, ⟨hlaid, Judgement.rootSchema_of_frame hlim hmax hlaid hframe, hview⟩, h0⟩

/-- In such a tree every block is what the store has under its name. -/
theorem Bears.genuine (h : s.Bears rules tag t tree) : Downloader.Genuine rules (fun _ => False) s t tree := by
  refine ⟨h.laid, ?_, ?_, fun _ _ hf => hf.elim⟩
  · intro other
    obtain rfl : tag = other := by
      cases tag
      cases other
      rfl
    exact h.accepted
  · intro ix raw hix hv
    exact Except.ok.inj (hv.symm.trans (h.resident ix hix))

theorem Bears.congr {s' : MemoryStore} (h : s.Bears rules tag t tree) (hv : s'.view = s.view) :
    s'.Bears rules tag t tree :=
  ⟨h.laid, h.accepted, fun ix hix => hv ▸ h.resident ix hix⟩

theorem Bears.holds (h : s.Bears rules tag t tree) {ix : Nat} (hix : ix < t.totalBlocks) : s.Holds (tree ix).1 :=
  holds_iff.2 ⟨_, h.resident ix hix⟩

end MemoryStore

namespace Downloader

variable {ω ν : Type} {N : Outside ν} {rules : Rules} {Delivers : Bytes → Prop} {world : MemoryStore × ν}
variable {σ σ' : Stage} {r₀ r r' : Run (MemoryStore × ν)} {root : RootId} {tag : DataTag} {s : MemoryStore}

/-! ## What is added was there

In the course of a kickoff, only blocks of the store are judged, so nothing is put into it. -/

/-- Where no block is from the network, a step puts nothing into the store and brings none in. -/
theorem Step.keeps_blocks (hs : Step (World.over MemoryStore.operations N) rules σ r σ' r')
    (hq : ∀ a ∈ σ.queue, a.received = false) :
    r'.world.1.view = r.world.1.view ∧ ∀ a ∈ σ'.queue, a.received = false := by
  cases hs with
  | logged | arranged | asked | announced | missed | expanded | orphaned | fetched | settled | released | broke | spared
  | finished => exact ⟨rfl, hq⟩
  | refused root => exact ⟨MemoryStore.view_setStatus _ root .part, hq⟩
  | discarded => exact ⟨rfl, fun a ha => hq a (List.mem_cons_of_mem _ ha)⟩
  | found id raw =>
    refine ⟨rfl, ?_⟩
    intro a ha
    rcases List.mem_append.1 ha with ha | ha
    · exact hq a ha
    · rw [List.mem_singleton.1 ha]
  | judged a awaiting p =>
    refine ⟨?_, fun b hb => hq b (List.mem_cons_of_mem _ hb)⟩
    rcases take_mem (World.over_memoryLike N) rules a awaiting p r with hw | ⟨hc, -⟩
    · rw [hw]
    · rw [hq a List.mem_cons_self] at hc
      cases hc
  | completed other d =>
    rw [dismiss_world, mark_world]
    exact ⟨MemoryStore.view_setStatus _ other .full, hq⟩

theorem Leads.keeps_blocks (h : Leads (World.over MemoryStore.operations N) rules σ r σ' r')
    (hq : ∀ a ∈ σ.queue, a.received = false) :
    r'.world.1.view = r.world.1.view ∧ ∀ a ∈ σ'.queue, a.received = false := by
  induction h with
  | refl => exact ⟨rfl, hq⟩
  | tail _ hs ih =>
    obtain ⟨hview, hlocal⟩ := hs.keeps_blocks ih.2
    exact ⟨hview.trans ih.1, hlocal⟩

/-- A download keeps its kind. -/
theorem Step.keeps_tag {W : World ω} {r r' : Run ω} (hs : Step W rules σ r σ' r') {d' : Download}
    (hd' : r'.state.roots.get? root = some d') : ∃ d, r.state.roots.get? root = some d ∧ d'.tag = d.tag := by
  cases hs with
  | logged | arranged | asked | announced | refused | found | missed | discarded | orphaned | fetched | settled | broke
  | spared | finished => exact ⟨d', hd', rfl⟩
  | judged a awaiting p =>
    obtain ⟨d, hd, htag, -⟩ := (Pass.take_tuned W rules a awaiting p r).downloads hd'
    exact ⟨d, hd, htag⟩
  | expanded child d hd =>
    obtain ⟨e, he, rfl | rfl⟩ := get?_of_await hd hd'
    · exact ⟨_, he, rfl⟩
    · exact ⟨_, he, rfl⟩
  | released other d => exact ⟨d', (get?_of_dismiss hd').2, rfl⟩
  | completed other d =>
    have hd := (get?_of_dismiss hd').2
    rw [mark_state] at hd
    exact ⟨d', hd, rfl⟩

/-- Who was marked is full. -/
theorem Reached.full_of_marked (h : Reached (World.over MemoryStore.operations N) rules Delivers world σ r)
    {m : Moment (MemoryStore × ν)} (hm : m ∈ r.trace) {outcome : Except StoreError Unit}
    (he : m.effect = .marked root outcome) : r.world.1.status root = some .full := by
  induction h with
  | start => cases hm
  | opened _ ho ih =>
    rcases ho.adds.mem hm with hm | hsilent
    · exact (ho.le (World.over_memoryLike N)).full (ih hm)
    · exact absurd (.inr ⟨outcome, he⟩) (hsilent root)
  | step hr hs ih =>
    rcases (hs.marks_full hr).mem hm with hm | hfull
    · exact (hs.le (World.over_memoryLike N)).full (ih hm)
    · exact hfull root outcome he

/-- From `r₀` on, the blocks that are judged are those of the store `s`, from which `root` is wanted as
a payload of kind `tag`; and if it was added, the store had its tree. -/
structure Reading (rules : Rules) (s : MemoryStore) (tag : DataTag) (root : RootId) (r₀ : Run (MemoryStore × ν))
    (σ : Stage) (r : Run (MemoryStore × ν)) : Prop where
  view : r.world.1.view = s.view
  resident : ∀ a ∈ σ.queue, a.received = false
  kind : ∀ {d}, r.state.roots.get? root = some d → d.tag = tag
  full : r.world.1.status root = some .full → s.Supplies rules tag root
  news : Run.Adds (fun m => m.Announces root → s.Supplies rules tag root) r₀ r

theorem Reading.step (h : Reading rules s tag root r₀ σ r)
    (hr : Reached (World.over MemoryStore.operations N) rules Delivers world σ r)
    (hs : Step (World.over MemoryStore.operations N) rules σ r σ' r') : Reading rules s tag root r₀ σ' r' := by
  obtain ⟨hview, hresident⟩ := hs.keeps_blocks h.resident
  refine ⟨hview.trans h.view, hresident, ?_, ?_, h.news.trans (hs.adds_report.mono ?_)⟩
  · intro d' hd'
    obtain ⟨d, hd, htag⟩ := hs.keeps_tag hd'
    exact htag.trans (h.kind hd)
  · intro hf
    rcases hs.full_cases (World.over_memoryLike N) hf with hf | ⟨w, d, -, rfl, hd, hc, -⟩
    · exact h.full hf
    · -- the root gets full now, as it waits for nothing
      obtain ⟨t, tree, hlaid, h0, haccepted, hkept⟩ := hr.exists_tree (keeping_view N rules Delivers world) hd hc
      rw [h.kind hd] at haccepted
      exact ⟨t, tree, ⟨hlaid, haccepted, fun ix hix => h.view ▸ hkept ix hix⟩, h0⟩
  · intro m hreport he
    apply h.full
    obtain ⟨hcause, -⟩ := hreport root (.inl he)
    cases hcause with
    | announced hf => exact Except.ok.inj hf
    | marked => cases he
    | finished m' outcome hm he' => exact hr.full_of_marked hm he'

theorem Reading.leads (h : Reading rules s tag root r₀ σ r)
    (hr : Reached (World.over MemoryStore.operations N) rules Delivers world σ r)
    (hl : Leads (World.over MemoryStore.operations N) rules σ r σ' r') : Reading rules s tag root r₀ σ' r' := by
  induction hl with
  | refl => exact h
  | tail hl hs ih => exact ih.step (hr.leads hl) hs

/-! ## What is there is added -/

/-- The effect is a call for blocks. -/
def Moment.Asks (m : Moment ω) : Prop := ∃ call, m.effect = .fetched call

theorem Moment.asks_of_not_accepted {m : Moment ω} (h : ¬ m.Accepted) : m.Asks := by
  unfold Moment.Accepted Effect.Accepted at h
  split at h
  · next call he => exact ⟨call, he⟩
  · exact absurd trivial h

/-- No call is made here, and no other root than `root` is marked. -/
def Moment.MarksOnly (root : RootId) (m : Moment ω) : Prop :=
  ¬ m.Asks ∧ ∀ other outcome, m.effect = .marked other outcome → other = root

/-- A root that completes, and leaves nothing behind that others wait for, leads to no call. -/
theorem complete_of_free (W : World ω) {r : Run ω} {d : Download} (hd : r.state.roots.get? root = some d)
    (hfree : ∀ id ∈ d.descendants, ¬ (r.state.pending.removeRoot root d.descendants.toList).Has id) :
    Run.Adds (Moment.MarksOnly root) r (complete W root r) := by
  have hmark : Run.Adds (Moment.MarksOnly root) r (mark W root r) :=
    mark_adds _ _ _ (by simp [Moment.MarksOnly, Moment.Asks]) (by simp [Moment.MarksOnly, Moment.Asks])
  rw [← mark_state root r W] at hd hfree
  unfold complete
  rw [free_of_get? hd]
  generalize mark W root r = r₁ at *
  have hleft : ((W.arrange d.descendants.toList r₁.world).1.filter fun id =>
      decide ((dismiss root d r₁).state.pending.Has id)) = [] := by
    rw [List.filter_eq_nil_iff]
    intro id hid hp
    rw [(W.arrange_perm _ _).mem_iff, Std.ExtTreeSet.mem_toList] at hid
    exact hfree id hid (of_decide_eq_true hp)
  rw [hleft]
  have hdismissed : Run.Adds (Moment.MarksOnly root) r₁ (dismiss root d r₁) :=
    dismiss_adds _ _ _ (by simp [Moment.MarksOnly, Moment.Asks])
  have harranged : Run.Adds (Moment.MarksOnly root) (dismiss root d r₁)
      (refetch W [] ((dismiss root d r₁).call (W.arrange d.descendants.toList)).2) := .refl rfl
  exact hmark.trans (hdismissed.trans (harranged.trans (.trans (.emit (by simp [Moment.MarksOnly, Moment.Asks]))
    (.emit (by simp [Moment.MarksOnly, Moment.Asks])))))

/-- A pass over a tree in the store `s`: all that the root waits for is in its place, and nobody else
waits for anything that the store has. -/
structure Supplied (s : MemoryStore) (t : Schema) (tree : Nat → NamedBlock) (owed : List Child) (p : Pass)
    (r : Run (MemoryStore × ν)) : Prop where
  store : r.world.1 = s
  flight : ∃ d, r.state.roots.get? (tree 0).1 = some d
  fitting : Fitting t tree owed r.state
  own : ∀ {id root}, r.state.pending.positions id root ≠ [] → s.Holds id → root = (tree 0).1
  asked : ∀ {d id}, r.state.roots.get? (tree 0).1 = some d → id ∈ d.descendants → s.Holds id
  mine : ∀ c ∈ owed, c.root = (tree 0).1
  queued : ∀ a ∈ p.queue, a.received = false ∧ s.view a.id = .ok a.raw
  wanted : p.wanted = []
  touched : ∀ root ∈ p.touched, root = (tree 0).1

namespace Supplied

variable {W : World (MemoryStore × ν)} {t : Schema} {tree : Nat → NamedBlock} {owed : List Child} {p : Pass}

theorem congr (h : Supplied s t tree owed p r) (hw : r'.world.1 = r.world.1) (hs : r'.state = r.state) :
    Supplied s t tree owed p r' :=
  ⟨hw.trans h.store, hs ▸ h.flight, hs ▸ h.fitting, hs ▸ h.own, hs ▸ h.asked, h.mine, h.queued, h.wanted, h.touched⟩

/-- The root waits for a child, which the store has. -/
theorem await (hb : s.Bears rules tag t tree) {child : Child} {d : Download} (h : Supplied s t tree (child :: owed) p r)
    (hd : r.state.roots.get? child.root = some d) :
    s.Holds child.id ∧ Supplied s t tree owed p (Pass.await child d r) := by
  have hroot := h.mine child List.mem_cons_self
  have hholds : s.Holds child.id := by
    have hopen : Open (child :: owed) r.state child.root child.id child.position := .inr List.mem_cons_self
    rw [hroot] at hd hopen
    obtain ⟨hix, hid⟩ := h.fitting.places hd hopen
    rw [← hid]
    exact hb.holds hix
  refine ⟨hholds, ?_⟩
  constructor
  case store => exact h.store
  case fitting => exact h.fitting.await hd
  case mine => exact fun c hc => h.mine c (List.mem_cons_of_mem _ hc)
  case queued => exact h.queued
  case wanted => exact h.wanted
  case touched => exact h.touched
  case flight =>
    refine ⟨d.expect child.id, ?_⟩
    rw [await_roots, Table.get?_insert, if_pos hroot]
  case own =>
    intro id root hne hid
    rw [await_pending, PendingIndex.positions_insert] at hne
    split at hne
    · next heq => exact heq.2 ▸ hroot
    · exact h.own hne hid
  case asked =>
    intro d' id hd' hid
    obtain ⟨e, he, rfl | rfl⟩ := get?_of_await hd hd'
    · exact h.asked he hid
    · rcases Std.ExtTreeSet.mem_insert.1 hid with heq | hid
      · rw [Std.LawfulEqCmp.compare_eq_iff_eq] at heq
        exact heq ▸ hholds
      · exact h.asked he hid

/-- A child is found in the store, unless the root waits for it already. -/
theorem expand (hW : W.InMemory) (hb : s.Bears rules tag t tree) {child : Child}
    (h : Supplied s t tree (child :: owed) p r) :
    Supplied s t tree owed (Pass.expand W child p r).1 (Pass.expand W child p r).2 ∧
      Run.Adds (¬ ·.Asks) r (Pass.expand W child p r).2 := by
  obtain ⟨d, hd⟩ := h.flight
  rw [← h.mine child List.mem_cons_self] at hd
  obtain ⟨hholds, hawait⟩ := h.await hb hd
  have hadds : Run.Adds (¬ ·.Asks) r (Pass.await child d r) := await_adds _ _ _ (by simp [Moment.Asks])
  unfold Pass.expand
  rw [hd]
  dsimp only
  split
  · exact ⟨hawait, hadds⟩
  · obtain ⟨raw, hraw⟩ := MemoryStore.holds_iff.1 hholds
    have hfound : ((Pass.await child d r).call (W.view child.id)).1 = .ok raw := by
      rw [Run.call_fst, hW.reads, hawait.store]
      exact hraw
    have hlooked : Supplied s t tree owed p ((Pass.await child d r).call (W.view child.id)).2 :=
      hawait.congr (hW.view_mem _ _) rfl
    have hsilent : Run.Adds (¬ ·.Asks) (Pass.await child d r) ((Pass.await child d r).call (W.view child.id)).2 :=
      .refl rfl
    rcases hc : (Pass.await child d r).call (W.view child.id) with ⟨outcome, r₁⟩
    rw [hc] at hfound hlooked hsilent
    obtain rfl : outcome = .ok raw := hfound
    refine ⟨{ hlooked with queued := ?_ }, hadds.trans hsilent⟩
    intro a ha
    rcases List.mem_append.1 ha with ha | ha
    · exact h.queued a ha
    · rw [List.mem_singleton.1 ha]
      exact ⟨rfl, hraw⟩

theorem expandAll (hW : W.InMemory) (hb : s.Bears rules tag t tree) (h : Supplied s t tree owed p r) :
    Supplied s t tree [] (Pass.expandAll W owed p r).1 (Pass.expandAll W owed p r).2 ∧
      Run.Adds (¬ ·.Asks) r (Pass.expandAll W owed p r).2 := by
  induction owed generalizing p r with
  | nil => exact ⟨h, .refl rfl⟩
  | cons child owed ih =>
    obtain ⟨hexpanded, hsilent⟩ := h.expand hW hb
    obtain ⟨hrest, hsilent'⟩ := ih hexpanded
    exact ⟨hrest, hsilent.trans hsilent'⟩

section Judging

variable {a : Arrival} {awaiting : Awaiting}

/-- Only the root waits for a block that the store has. -/
theorem mem_awaiting (hb : Books rules [] r.state) (h : Supplied s t tree owed p r) (ha : s.view a.id = .ok a.raw)
    (hg : r.state.pending.get? a.id = some awaiting) {positions : List Nat} (hm : (root, positions) ∈ awaiting) :
    root = (tree 0).1 := by
  obtain ⟨hne, hpos, -⟩ := hb.of_mem_awaiting hg hm
  exact h.own (hpos.symm ▸ hne) (MemoryStore.holds_iff.2 ⟨_, ha⟩)

theorem mem_touched_of_resolveAll (p : Pass) (r : Run ω) (h : root ∈ (Pass.resolveAll awaiting p r).1.touched) :
    root ∈ p.touched ∨ ∃ positions, (root, positions) ∈ awaiting := by
  induction awaiting generalizing p r with
  | nil => exact .inl h
  | cons e awaiting ih =>
    obtain ⟨other, positions⟩ := e
    have hlater : (∃ positions, (root, positions) ∈ awaiting) →
        ∃ positions', (root, positions') ∈ (other, positions) :: awaiting :=
      fun ⟨positions', hm⟩ => ⟨positions', List.mem_cons_of_mem _ hm⟩
    rw [Pass.resolveAll] at h
    split at h
    · exact (ih p r h).imp_right hlater
    · rcases ih _ _ h with hm | hm
      · rcases Pass.mem_touch.1 hm with rfl | hm
        · exact .inr ⟨positions, List.mem_cons_self⟩
        · exact .inl hm
      · exact .inr (hlater hm)

/-- Where the root waits for it, a block of the store is the one of the tree. -/
theorem raw_eq (hbears : s.Bears rules tag t tree) (h : Supplied s t tree owed p r)
    (ha : s.view a.id = .ok a.raw) {ix : Nat} (hix : ix ∈ r.state.pending.positions a.id (tree 0).1) :
    a.raw = (tree ix).2 := by
  obtain ⟨d, hd⟩ := h.flight
  obtain ⟨hlt, hid⟩ := h.fitting.places hd (.inl hix)
  have hv := hbears.resident ix hlt
  rw [hid, ha] at hv
  exact Except.ok.inj hv

section Take

variable (hbears : s.Bears rules tag t tree) (hb : Books rules [] r.state) (h : Supplied s t tree [] p r)
variable (ha : s.view a.id = .ok a.raw) (hg : r.state.pending.get? a.id = some awaiting)

include h hb ha hg

theorem take_children {c : Child} (hc : c ∈ (Pass.take W rules a awaiting p r).1.children) : c.root = (tree 0).1 := by
  rw [Pass.take_verdict (hb.pending _ _ hg).nodup] at hc
  obtain ⟨positions, hin⟩ := Verdict.mem_awaiting_of_child hc
  exact h.mem_awaiting hb ha hg ((W.arrange_perm awaiting r.world).mem_iff.1 hin)

include hbears

/-- A block of the store is malformed for nobody. -/
theorem take_malformed : (Pass.take W rules a awaiting p r).1.malformed = [] := by
  rw [List.eq_nil_iff_forall_not_mem]
  rintro ⟨root, e⟩ hm
  have hin := hm
  rw [Pass.take_verdict (hb.pending _ _ hg).nodup] at hin
  obtain ⟨positions, hin⟩ := Verdict.mem_awaiting_of_malformed hin
  rw [h.mem_awaiting hb ha hg ((W.arrange_perm awaiting r.world).mem_iff.1 hin)] at hm
  exact h.fitting.not_malformed W p hbears.genuine hb hg (fun ix => h.raw_eq hbears ha) e hm

/-- A block of the store is valid for the root, and has children of the root only. -/
theorem take (hW : W.InMemory) (hc : a.received = false) :
    Supplied s t tree (Pass.take W rules a awaiting p r).1.children (Pass.take W rules a awaiting p r).2.1
      (Pass.take W rules a awaiting p r).2.2 := by
  have hpass := resolveAll_pass (W.arrange awaiting r.world).1 p
    ((r.setPending (r.state.pending.without a.id)).call (W.arrange awaiting)).2
  constructor
  case store =>
    rcases take_mem hW.toMemoryLike rules a awaiting p r with hw | ⟨hc', -⟩
    · exact hw.trans h.store
    · rw [hc] at hc'
      cases hc'
  case flight =>
    obtain ⟨d, hd⟩ := h.flight
    rw [← mem_keys_iff_get?, Pass.take_keys]
    exact Table.mem_keys_of_get? hd
  case fitting => exact h.fitting.take hbears.genuine hb hg fun ix => h.raw_eq hbears ha
  case own =>
    intro id root hne hid
    rw [Pass.take_pending, PendingIndex.positions_without] at hne
    split at hne
    · exact absurd rfl hne
    · exact h.own hne hid
  case asked =>
    intro d' id hd' hid
    obtain ⟨d, hd, -, -, hdesc⟩ := (Pass.take_tuned W rules a awaiting p r).downloads hd'
    exact h.asked hd (hdesc ▸ hid)
  case mine => exact fun c => h.take_children hb ha hg
  case queued =>
    intro b hq
    exact h.queued b (hpass.1 ▸ hq)
  case wanted => exact hpass.2.trans h.wanted
  case touched =>
    intro root hm
    rcases mem_touched_of_resolveAll _ _ hm with hm | ⟨positions, hin⟩
    · exact h.touched root hm
    · exact h.mem_awaiting hb ha hg ((W.arrange_perm awaiting r.world).mem_iff.1 hin)

end Take

/-- Handling a block of the store, nothing is asked of the network. -/
theorem handle (hW : W.InMemory) (hbears : s.Bears rules tag t tree) (hb : Books rules [] r.state)
    (h : Supplied s t tree [] p r) (hc : a.received = false) (ha : s.view a.id = .ok a.raw)
    (hg : r.state.pending.get? a.id = some awaiting) {p' : Pass}
    (hh : Pass.handle W rules a awaiting p (r.setPending (r.state.pending.without a.id)) = (p', r')) :
    Supplied s t tree [] p' r' ∧ Run.Adds (¬ ·.Asks) r r' := by
  have hmalformed := h.take_malformed (W := W) hbears hb ha hg
  have h₁ := h.take hbears hb ha hg hW hc
  have hjudged : Run.Adds (¬ ·.Asks) r (Pass.take W rules a awaiting p r).2.2 := by
    refine (Pass.take_adds W rules a awaiting p r).mono ?_
    rintro m ⟨⟨e, he⟩ | ⟨awaiting', he⟩, -⟩
    · simp [Moment.Asks, he]
    · simp [Moment.Asks, he]
  unfold Pass.handle at hh
  rcases hv : Pass.take W rules a awaiting p r with ⟨verdict, p₁, r₁⟩
  rw [hv] at hmalformed h₁ hjudged
  rw [Pass.take] at hv
  rw [hv] at hh
  dsimp only at hh hmalformed h₁ hjudged
  -- nobody is given up
  rw [hmalformed] at hh
  have hnobody := W.arrange_perm ([] : List (RootId × FormatError)) r₁.world
  rw [← Run.call_fst] at hnobody
  have hlisted : Run.Adds (¬ ·.Asks) r₁ (r₁.call (W.arrange ([] : List (RootId × FormatError)))).2 := .refl rfl
  have h₂ : Supplied s t tree verdict.children p₁ (r₁.call (W.arrange ([] : List (RootId × FormatError)))).2 :=
    h₁.congr (hW.arrange_mem _ _) rfl
  rcases hc₂ : r₁.call (W.arrange ([] : List (RootId × FormatError))) with ⟨doomed, r₂⟩
  rw [hc₂] at hh hnobody hlisted h₂
  obtain rfl : doomed = [] := List.perm_nil.1 hnobody
  obtain ⟨h₃, hsilent⟩ := h₂.expandAll hW hbears
  change Pass.expandAll W verdict.children p₁ r₂ = (p', r') at hh
  rw [hh] at h₃ hsilent
  exact ⟨h₃, hjudged.trans (hlisted.trans hsilent)⟩

end Judging

theorem rounds (hW : W.InMemory) (hbears : s.Bears rules tag t tree)
    (hr : Reached W rules Delivers world ⟨p.queue, [], p.wanted, [], []⟩ r)
    (h : Supplied s t tree [] p r) (fuel : Nat) :
    Supplied s t tree [] (p.rounds W rules fuel r).1 (p.rounds W rules fuel r).2 ∧
      Run.Adds (¬ ·.Asks) r (p.rounds W rules fuel r).2 := by
  have hstart : Reached W rules Delivers world ⟨p.queue, [], p.wanted, [], []⟩ r ∧
      Supplied s t tree [] p r ∧ Run.Adds (¬ ·.Asks) r r := ⟨hr, h, .refl rfl⟩
  refine (Pass.rounds_next (C := fun p r' => Reached W rules Delivers world
    ⟨p.queue, [], p.wanted, [], []⟩ r' ∧ Supplied s t tree [] p r' ∧ Run.Adds (¬ ·.Asks) r r') ?_ fuel hstart).2
  rintro p₁ r₁ p₂ r₂ ⟨hr, h, hsilent⟩ hn
  refine ⟨hr.leads (next_leads hr.inOrder hn).1, ?_⟩
  obtain ⟨a, queue, hq, hcases⟩ := next_cases hn
  have hqueue : Supplied s t tree [] { p₁ with queue } r₁ := by
    refine { h with queued := ?_ }
    intro b hb
    exact h.queued b (hq ▸ List.mem_cons_of_mem _ hb)
  rcases hcases with ⟨-, rfl, rfl⟩ | ⟨awaiting, hg, hh⟩
  · exact ⟨hqueue, hsilent⟩
  · obtain ⟨hc, ha⟩ := h.queued a (hq ▸ List.mem_cons_self)
    obtain ⟨h', hsilent'⟩ := hqueue.handle hW hbears hr.books hc ha hg hh
    exact ⟨h', hsilent.trans hsilent'⟩

/-- When no block is left to be judged, the root waits for nothing. -/
theorem complete_of_idle (hbears : s.Bears rules tag t tree) (hb : Books rules [] r.state) {w : List BlockId}
    (hs : Sought ⟨[], [], w, [], []⟩ r) (h : Supplied s t tree [] p r) {d : Download}
    (hd : r.state.roots.get? (tree 0).1 = some d) : d.Complete := by
  have hnone : r.state.pending.waits (tree 0).1 = [] := by
    rw [List.eq_nil_iff_forall_not_mem]
    rintro ⟨id, ix⟩ hm
    have ho := PendingIndex.mem_waits.1 hm
    obtain ⟨hix, rfl⟩ := h.fitting.places hd (.inl ho)
    have hp : r.state.pending.Has (tree ix).1 := PendingIndex.has_of_positions (List.ne_nil_of_mem ho)
    rcases hs.resident hp (h.store ▸ hbears.holds hix) with hu | ⟨b, hb, -⟩
    · cases hu
    · cases hb
  rw [Download.Complete, hb.account hd, hnone]
  rfl

/-- A root that is completed leaves nothing behind that others wait for. -/
theorem complete_silent (h : Supplied s t tree [] p r) (hw : r.state.pending.WF) :
    Run.Adds (¬ ·.Asks) r (complete W (tree 0).1 r) := by
  obtain ⟨d, hd⟩ := h.flight
  refine (complete_of_free W hd fun id hid hp => ?_).mono fun _ hm => hm.1
  obtain ⟨root, hne⟩ := (PendingIndex.has_iff_positions (PendingIndex.removeRoot_wf hw _ _)).1 hp
  rw [PendingIndex.positions_removeRoot] at hne
  split at hne
  · exact absurd rfl hne
  · next hother =>
    have hroot := h.own hne (h.asked hd hid)
    exact hother ⟨hroot.symm, Std.ExtTreeSet.mem_toList.2 hid⟩

theorem completeAll_of_out {W : World ω} {r : Run ω} {roots : List RootId}
    (h : ∀ root ∈ roots, r.state.roots.get? root = none) : Pass.completeAll W roots r = r := by
  induction roots with
  | nil => rfl
  | cons root roots ih =>
    rw [Pass.completeAll, h root List.mem_cons_self]
    exact ih fun other ho => h other (List.mem_cons_of_mem _ ho)

theorem completeAll_silent (h : Supplied s t tree [] p r) (hw : r.state.pending.WF) {roots : List RootId}
    (hroots : ∀ root ∈ roots, root = (tree 0).1) :
    Run.Adds (¬ ·.Asks) r (Pass.completeAll W roots r) := by
  induction roots with
  | nil => exact .refl rfl
  | cons root roots ih =>
    obtain rfl := hroots root List.mem_cons_self
    have hrest : ∀ root ∈ roots, root = (tree 0).1 := fun other ho => hroots other (List.mem_cons_of_mem _ ho)
    obtain ⟨d, hd⟩ := h.flight
    rw [Pass.completeAll, hd]
    dsimp only
    split
    · -- the root is out of flight after it was completed
      rw [completeAll_of_out]
      · exact h.complete_silent hw
      · intro other ho
        rw [hrest other ho]
        exact complete_get? _ r
    · exact ih hrest

theorem finish_silent (hW : W.InMemory) (h : Supplied s t tree [] p r) (hw : r.state.pending.WF) :
    Run.Adds (¬ ·.Asks) r (p.finish W r) := by
  have hlisted : Run.Adds (¬ ·.Asks) r (r.call (W.arrange p.touched)).2 := .refl rfl
  have harranged : Supplied s t tree [] p (r.call (W.arrange p.touched)).2 := h.congr (hW.arrange_mem _ _) rfl
  have hcompleted : Run.Adds (¬ ·.Asks) (r.call (W.arrange p.touched)).2
      (Pass.completeAll W (r.call (W.arrange p.touched)).1 (r.call (W.arrange p.touched)).2) := by
    refine harranged.completeAll_silent hw ?_
    intro root hm
    exact h.touched root ((W.arrange_perm p.touched r.world).mem_iff.1 hm)
  unfold Pass.finish
  rw [h.wanted]
  exact hlisted.trans hcompleted

/-- A pass that begins with the root block goes through the whole tree, and the root is added. -/
theorem process (hbears : s.Bears rules tag t tree)
    (hr : Reached (World.over MemoryStore.operations N) rules Delivers world
      ⟨[⟨(tree 0).1, (tree 0).2, false⟩], [], [], [], []⟩ r)
    (h : Supplied s t tree [] (Pass.start ⟨(tree 0).1, (tree 0).2, false⟩) r) (hbusy : r.state.Busy) :
    Run.Shows (Moment.Announces (tree 0).1) r
        (process (World.over MemoryStore.operations N) rules ⟨(tree 0).1, (tree 0).2, false⟩ r) ∧
      Run.Adds (¬ ·.Asks) r
        (process (World.over MemoryStore.operations N) rules ⟨(tree 0).1, (tree 0).2, false⟩ r) := by
  have hW := World.over_inMemory N
  have hcovers : (Pass.start ⟨(tree 0).1, (tree 0).2, false⟩).Covers r.state :=
    fun root d hd hcomplete => absurd hcomplete (hbusy root d hd)
  have hleads := rounds_leads (W := World.over MemoryStore.operations N) (Pass.roundBound r.state)
    (Pass.start ⟨(tree 0).1, (tree 0).2, false⟩) r hr.inOrder (hr.books.potential_le (Nat.le_refl 1))
  obtain ⟨hsupplied, hsilent⟩ := h.rounds hW hbears hr (Pass.roundBound r.state)
  have hcovers' := Pass.rounds_covers (W := World.over MemoryStore.operations N) rules (Pass.roundBound r.state) hcovers
  unfold Downloader.process
  rcases hc : (Pass.start ⟨(tree 0).1, (tree 0).2, false⟩).rounds (World.over MemoryStore.operations N) rules
    (Pass.roundBound r.state) r with ⟨p', r'⟩
  rw [hc] at hleads hsupplied hsilent hcovers'
  dsimp only at hleads hsupplied hsilent hcovers' ⊢
  have hr' := hr.leads hleads
  have hfinished := hsupplied.finish_silent hW hr'.books.pending
  refine ⟨.earlier hsilent ?_, hsilent.trans hfinished⟩
  -- the root waits for nothing, so the end of the pass takes it out of flight
  obtain ⟨d, hd⟩ := hsupplied.flight
  have hcomplete := hsupplied.complete_of_idle hbears hr'.books hr'.sought hd
  have hsheds := Pass.finish_sheds (W := World.over MemoryStore.operations N) p' r'
  rcases hsheds.stays trivial hd with hd' | hexcused
  · exact absurd hcomplete (Pass.finish_busy p' r' hcovers' _ _ hd')
  · refine (hexcused.and_adds hfinished).mono ?_
    rintro m ⟨hrefused | hnews, hsilent⟩
    · exact absurd (Moment.asks_of_not_accepted hrefused) hsilent
    · exact hnews

end Supplied

/-! ## Kickoffs -/

section Kickoff

variable {W : World ω} {r : Run ω}

/-- What `r` is once `root` is in flight, before it is looked up. -/
def begun (W : World ω) (rules : Rules) (root : RootId) (tag : DataTag) (r : Run ω) : Run ω :=
  launch root tag (timeLimit rules root tag).2
    ((r.logAll (timeLimit rules root tag).1).call (W.setStatus root .part)).2

theorem begun_world : (begun W rules root tag r).world = (W.setStatus root .part r.world).2 := by
  rw [begun, launch_world, Run.call_world, Run.logAll_world]

theorem begun_roots : (begun W rules root tag r).state.roots =
    r.state.roots.insert root (.start root tag (r.state.opened + 1)) := by
  rw [begun, launch_roots, Run.call_state, Run.logAll_state]

theorem begun_pending : (begun W rules root tag r).state.pending = r.state.pending.insert root root 0 := by
  rw [begun, launch_pending, Run.call_state, Run.logAll_state]

theorem begun_get? : (begun W rules root tag r).state.roots.get? root =
    some (.start root tag (r.state.opened + 1)) := by
  rw [begun_roots, Table.get?_insert, if_pos rfl]

theorem begun_busy (h : r.state.Busy) : (begun W rules root tag r).state.Busy := by
  refine launch_busy _ _ _ ?_
  rw [Run.call_state, Run.logAll_state]
  exact h

theorem begun_fitting {t : Schema} {tree : Nat → NamedBlock} (hout : ¬ r.state.InFlight (tree 0).1)
    (hb : Books rules [] (begun W rules (tree 0).1 tag r).state) :
    Fitting t tree [] (begun W rules (tree 0).1 tag r).state := by
  refine Fitting.launch (.of_out ?_) hb
  rw [Run.call_state, Run.logAll_state]
  exact State.not_inFlight_iff.1 hout

theorem kickoff_of_part (hout : ¬ r.state.InFlight root) (hpart : (W.setStatus root .part r.world).1 = .ok ()) :
    kickoff W rules root tag r =
      if r.state.pending.Has root then begun W rules root tag r
      else request W rules root (begun W rules root tag r) := by
  unfold kickoff begun
  rw [if_neg hout]
  rcases timeLimit rules root tag with ⟨entries, timeout⟩
  have houtcome := Run.call_fst (r.logAll entries) (W.setStatus root .part)
  have hstate := Run.call_state (r.logAll entries) (W.setStatus root .part)
  rw [Run.logAll_world, hpart] at houtcome
  rw [Run.logAll_state] at hstate
  dsimp only
  rcases hc : (r.logAll entries).call (W.setStatus root .part) with ⟨outcome, r₁⟩
  rw [hc] at houtcome hstate
  obtain rfl : outcome = .ok () := houtcome
  dsimp only at hstate ⊢
  rw [hstate]
  simp only [decide_eq_true_eq]

theorem begun_adds (W : World ω) (rules : Rules) (root : RootId) (tag : DataTag) (r : Run ω) :
    Run.Adds (fun m => ¬ m.Asks ∧ ¬ m.Announces root) r (begun W rules root tag r) := by
  have hlogged : Run.Adds (fun m => ¬ m.Asks ∧ ¬ m.Announces root) r
      ((r.logAll (timeLimit rules root tag).1).call (W.setStatus root .part)).2 :=
    .trans (.logAll _ (by simp [Moment.Asks, Moment.Announces])) (.refl rfl)
  refine hlogged.trans (launch_adds root tag _ _ ?_ ?_ ?_)
  · simp [Moment.Asks, Moment.Announces]
  · simp [Moment.Asks, Moment.Announces]
  · simp [Moment.Asks, Moment.Announces]

theorem begun_reached {world : ω} (tag : DataTag) (h : Reached W rules Delivers world .idle r)
    (hout : ¬ r.state.InFlight root) (hpart : (W.setStatus root .part r.world).1 = .ok ()) :
    Reached W rules Delivers world ⟨[], if r.state.pending.Has root then [] else [root], [], [], []⟩
      (begun W rules root tag r) := by
  have hlogged := h.leads (.logAll .idle r (timeLimit_calm rules root tag))
  have hopening : Opening W Delivers (r.logAll (timeLimit rules root tag).1) _ (begun W rules root tag r) :=
    .launched root tag (timeLimit rules root tag).2 (by rw [Run.logAll_state]; exact hout)
      (by rw [Run.logAll_world]; exact hpart)
  rw [Run.logAll_state] at hopening
  exact hlogged.opened hopening

theorem request_of_view {raw : Bytes} (hv : (W.view root r.world).1 = .ok raw) :
    request W rules root r = process W rules ⟨root, raw, false⟩ (r.call (W.view root)).2 := by
  have houtcome := Run.call_fst r (W.view root)
  unfold request
  rcases hc : r.call (W.view root) with ⟨outcome, r₁⟩
  rw [hc, hv] at houtcome
  obtain rfl : outcome = .ok raw := houtcome
  rfl

end Kickoff

/-- A root that is not full can be marked partial. -/
theorem setStatus_part (N : Outside ν) (hstatus : r.world.1.status root ≠ some .full) :
    ((World.over MemoryStore.operations N).setStatus root .part r.world).1 = .ok () := by
  refine MemoryStore.setStatus_eq_ok_iff.2 ?_
  cases hs : r.world.1.status root with
  | none => rfl
  | some status =>
    cases status with
    | part => rfl
    | full => exact absurd hs hstatus

theorem begun_view (N : Outside ν) (rules : Rules) (root : RootId) (tag : DataTag) (r : Run (MemoryStore × ν)) :
    (begun (World.over MemoryStore.operations N) rules root tag r).world.1.view = r.world.1.view := by
  rw [begun_world]
  exact (World.over_memoryLike N).view_setStatus root .part r.world

/-- A root that was just put in flight is partial, and no block was judged yet. -/
theorem Reading.of_begun (hstatus : r.world.1.status root ≠ some .full) (u : List BlockId) :
    Reading rules r.world.1 tag root (begun (World.over MemoryStore.operations N) rules root tag r) ⟨[], u, [], [], []⟩
      (begun (World.over MemoryStore.operations N) rules root tag r) := by
  constructor
  case view => exact begun_view N rules root tag r
  case resident => simp
  case kind =>
    intro d hd
    obtain rfl : _ = d := Option.some.inj (begun_get?.symm.trans hd)
    rfl
  case full =>
    intro hf
    rw [begun_world, (World.over_memoryLike N).status_setStatus_of_ok (setStatus_part N hstatus)] at hf
    cases hf
  case news => exact .refl rfl

/-- If a kickoff reports the root as added, the store had its tree. -/
theorem Reached.supplies (h : Reached (World.over MemoryStore.operations N) rules Delivers world .idle r)
    (hout : ¬ r.state.InFlight root) (hstatus : r.world.1.status root ≠ some .full)
    (hadded : Run.Shows (Moment.Announces root) r (kickoff (World.over MemoryStore.operations N) rules root tag r)) :
    r.world.1.Supplies rules tag root := by
  have hpart := setStatus_part N hstatus
  have hbegun := begun_adds (World.over MemoryStore.operations N) rules root tag r
  have hreached : Reached (World.over MemoryStore.operations N) rules Delivers world _ _ :=
    begun_reached tag h hout hpart
  rw [kickoff_of_part hout hpart] at hadded
  have hall : Run.Adds (fun m => m.Announces root → r.world.1.Supplies rules tag root) r
      (if r.state.pending.Has root then begun (World.over MemoryStore.operations N) rules root tag r
        else request (World.over MemoryStore.operations N) rules root
          (begun (World.over MemoryStore.operations N) rules root tag r)) := by
    refine (hbegun.mono fun m hm he => absurd he hm.2).trans ?_
    split at hreached
    · next hw =>
      rw [if_pos hw]
      exact .refl rfl
    · next hw =>
      rw [if_neg hw]
      refine ((Reading.of_begun hstatus [root]).leads hreached (request_leads hreached.inOrder ?_)).news
      rw [begun_pending]
      exact PendingIndex.has_insert.2 (.inl rfl)
  obtain ⟨-, -, m, -, he, hsupplies⟩ := hadded.and_adds hall
  exact hsupplies he

/-- A root that was just put in flight waits for its root block only. -/
theorem Supplied.of_begun {t : Schema} {tree : Nat → NamedBlock}
    (h : Reached (World.over MemoryStore.operations N) rules Delivers world .idle r)
    (hbears : r.world.1.Bears rules tag t tree) (hout : ¬ r.state.InFlight (tree 0).1)
    (hbooks : Books rules [] (begun (World.over MemoryStore.operations N) rules (tree 0).1 tag r).state) :
    Supplied (begun (World.over MemoryStore.operations N) rules (tree 0).1 tag r).world.1 t tree []
      (Pass.start ⟨(tree 0).1, (tree 0).2, false⟩)
      (begun (World.over MemoryStore.operations N) rules (tree 0).1 tag r) := by
  have hview := begun_view N rules (tree 0).1 tag r
  have hholds : ∀ id, (begun (World.over MemoryStore.operations N) rules (tree 0).1 tag r).world.1.Holds id ↔
      r.world.1.Holds id := by
    intro id
    rw [MemoryStore.holds_iff, MemoryStore.holds_iff, hview]
  constructor
  case store => rfl
  case flight => exact ⟨_, begun_get?⟩
  case mine => simp
  case wanted => rfl
  case touched => simp [Pass.start]
  case fitting => exact begun_fitting hout hbooks
  case own =>
    intro id root hne hid
    rw [begun_pending, PendingIndex.positions_insert] at hne
    split at hne
    · next heq => exact heq.2.symm
    · exact absurd ((hholds id).1 hid) (h.sought.not_holds_of_idle (PendingIndex.has_of_positions hne))
  case asked =>
    intro d id hd hid
    rw [begun_get?] at hd
    cases hd
    obtain rfl : (tree 0).1 = id := by simpa [Download.start] using hid
    exact (hholds _).2 (hbears.holds t.totalBlocks_pos)
  case queued =>
    intro a ha
    rw [List.mem_singleton.1 ha]
    exact ⟨rfl, hview ▸ hbears.resident 0 t.totalBlocks_pos⟩

/-- A root whose tree the store has is added by its kickoff, and nothing is asked of the network. -/
theorem Reached.kickoff_supplied (h : Reached (World.over MemoryStore.operations N) rules Delivers world .idle r)
    (hbusy : r.state.Busy) (hout : ¬ r.state.InFlight root) (hstatus : r.world.1.status root ≠ some .full)
    (hs : r.world.1.Supplies rules tag root) :
    Run.Shows (Moment.Announces root) r (kickoff (World.over MemoryStore.operations N) rules root tag r) ∧
      Run.Adds (¬ ·.Asks) r (kickoff (World.over MemoryStore.operations N) rules root tag r) := by
  obtain ⟨t, tree, hbears, rfl⟩ := hs
  have hpart := setStatus_part N hstatus
  have hbegun := begun_adds (World.over MemoryStore.operations N) rules (tree 0).1 tag r
  have hnot : ¬ r.state.pending.Has (tree 0).1 := fun hp =>
    h.sought.not_holds_of_idle hp (hbears.holds t.totalBlocks_pos)
  have hreached : Reached (World.over MemoryStore.operations N) rules Delivers world _ _ :=
    begun_reached tag h hout hpart
  rw [if_neg hnot] at hreached
  have hview : ((World.over MemoryStore.operations N).view (tree 0).1
      (begun (World.over MemoryStore.operations N) rules (tree 0).1 tag r).world).1 = .ok (tree 0).2 := by
    change MemoryStore.view _ _ = _
    rw [begun_view]
    exact hbears.resident 0 t.totalBlocks_pos
  have hbears₁ := hbears.congr (begun_view N rules (tree 0).1 tag r)
  have hsupplied := Supplied.of_begun h hbears hout hreached.books
  have hbusy' : (begun (World.over MemoryStore.operations N) rules (tree 0).1 tag r).state.Busy := begun_busy hbusy
  rw [kickoff_of_part hout hpart, if_neg hnot, request_of_view hview]
  generalize begun (World.over MemoryStore.operations N) rules (tree 0).1 tag r = r₁ at *
  have hlooked : Run.Adds (¬ ·.Asks) r₁ (r₁.call ((World.over MemoryStore.operations N).view (tree 0).1)).2 := .refl rfl
  have hread : Supplied r₁.world.1 t tree [] (Pass.start ⟨(tree 0).1, (tree 0).2, false⟩)
      (r₁.call ((World.over MemoryStore.operations N).view (tree 0).1)).2 := hsupplied.congr rfl rfl
  obtain ⟨hadded, hsilent⟩ := hread.process hbears₁ (hreached.step (.found _ _ hview)) hbusy'
  have hbefore := (hbegun.mono fun m hm => hm.1).trans hlooked
  exact ⟨.earlier hbefore hadded, hbefore.trans hsilent⟩

/-- A kickoff adds its root exactly if the store has the tree, and then asks for nothing. -/
theorem Reached.kickoff_agrees (h : Reached (World.over MemoryStore.operations N) rules Delivers world .idle r)
    (tag : DataTag) (hbusy : r.state.Busy) (hout : ¬ r.state.InFlight root)
    (hstatus : r.world.1.status root ≠ some .full) :
    (Run.Shows (Moment.Announces root) r (kickoff (World.over MemoryStore.operations N) rules root tag r) ↔
        r.world.1.Supplies rules tag root) ∧
      (Run.Shows (Moment.Announces root) r (kickoff (World.over MemoryStore.operations N) rules root tag r) →
        Run.Adds (¬ ·.Asks) r (kickoff (World.over MemoryStore.operations N) rules root tag r)) := by
  constructor
  · constructor
    · exact h.supplies hout hstatus
    · exact fun hs => (h.kickoff_supplied hbusy hout hstatus hs).1
  · exact fun hadded => (h.kickoff_supplied hbusy hout hstatus (h.supplies hout hstatus hadded)).2

section Past

variable (past : Past ω) (m : Moment ω)

theorem Past.announces_iff : (past.moment m).Announces root ↔ m.Announces root := by
  unfold Moment.Announces Past.moment Past.effect
  cases m.effect <;> simp

theorem Past.asks_iff : (past.moment m).Asks ↔ m.Asks := by
  unfold Moment.Asks Past.moment Past.effect
  cases m.effect <;> simp

end Past

/-- In every lifetime over a store in memory, whatever it has at first, the kickoff of a root that is
neither in flight nor full adds it in that event exactly if its blocks in the store join to a payload
within the limits of its kind; and then nothing is asked of the network. -/
theorem resident_added (N : Outside ν) (rules : Rules) (commands : List Command) (world : MemoryStore × ν)
    (root : RootId) (tag : DataTag) {r : Run (MemoryStore × ν)}
    (hr : r = lifetime (World.over MemoryStore.operations N) rules commands world)
    (hout : ¬ r.state.InFlight root) (hstatus : r.world.1.status root ≠ some .full) :
    (Run.Shows (Moment.Announces root) r (handle (World.over MemoryStore.operations N) rules (.kickoff root tag) r) ↔
      ∃ limits payload, rules.limits tag = some limits ∧
        join rules.size root (MemoryStore.operations.lookup r.world.1) = .ok ⟨tag, payload⟩ ∧
        payload.length ≤ limits.maxSize) ∧
    (Run.Shows (Moment.Announces root) r (handle (World.over MemoryStore.operations N) rules (.kickoff root tag) r) →
      Run.Adds (¬ ·.Asks) r (handle (World.over MemoryStore.operations N) rules (.kickoff root tag) r)) := by
  rw [← MemoryStore.supplies_iff]
  rcases lifetime_cases (World.over MemoryStore.operations N) rules commands world with ⟨events, heq⟩ |
    ⟨past, events, world', heq⟩
  · rw [heq] at hr
    subst hr
    exact (history_reached _ rules events world).kickoff_agrees tag (history_busy _ rules events world) hout hstatus
  · rw [heq] at hr
    subst hr
    rw [World.over_after] at hout hstatus ⊢
    -- it does as a new downloader over the same store
    rw [handle, past.kickoff, World.over_after]
    have hreached := history_reached (World.over MemoryStore.operations (N.after past.opened)) rules events world'
    have hbusy := history_busy (World.over MemoryStore.operations (N.after past.opened)) rules events world'
    generalize history (World.over MemoryStore.operations (N.after past.opened)) rules events world' = r at *
    rw [past.inFlight_iff] at hout
    obtain ⟨hiff, hsilent⟩ := hreached.kickoff_agrees tag hbusy hout hstatus
    have hgrows :=
      (kickoff_lasts (W := World.over MemoryStore.operations (N.after past.opened)) root rules root tag r).grows
    rw [past.shows_iff hgrows]
    simp only [past.announces_iff]
    refine ⟨hiff, fun hadded => past.adds ((hsilent hadded).mono ?_)⟩
    intro m hm
    rw [past.asks_iff]
    exact hm

/-- A downloader over a store with the blocks of two leaves and their root, while another root waits
for the network. -/
def stocked : Run (MemoryStore × Simulation.Refusals) :=
  lifetime (World.over MemoryStore.operations Simulation.Refusals.outside) Sample.rules
    [.event (.kickoff missing .blockBody)]
    ((Sample.blob Sample.leaves).blocks.foldl (fun s b => s.put b.1 b.2) .empty, Sample.network)

theorem resident_added_leaves : ¬ stocked.state.InFlight (Sample.blob Sample.leaves).root ∧
    stocked.world.1.status (Sample.blob Sample.leaves).root ≠ some .full ∧
    Run.Shows (Moment.Announces (Sample.blob Sample.leaves).root) stocked
      (handle (World.over MemoryStore.operations Simulation.Refusals.outside) Sample.rules
        (.kickoff (Sample.blob Sample.leaves).root .blockBody) stocked) ∧
    Run.Adds (¬ ·.Asks) stocked
      (handle (World.over MemoryStore.operations Simulation.Refusals.outside) Sample.rules
        (.kickoff (Sample.blob Sample.leaves).root .blockBody) stocked) := by
  have hout : ¬ stocked.state.InFlight (Sample.blob Sample.leaves).root := by decide +kernel
  have hstatus : stocked.world.1.status (Sample.blob Sample.leaves).root ≠ some .full := by decide +kernel
  obtain ⟨hiff, hsilent⟩ := resident_added Simulation.Refusals.outside Sample.rules _ _ _ .blockBody
    (show stocked = lifetime _ _ _ _ from rfl) hout hstatus
  have hadded := hiff.2 ⟨⟨1000, 60000⟩, Sample.leaves, rfl, by decide +kernel, by decide +kernel⟩
  exact ⟨hout, hstatus, hadded, hsilent hadded⟩

end Downloader

end BlockDag
