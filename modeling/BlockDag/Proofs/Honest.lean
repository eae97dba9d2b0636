/-
An honest blob is never reported as broken. If a root is that of a payload within the limits, and
no other bytes have the name of one of its blocks, then every block that the root waits for is the
one that the splitter puts at that position; so whatever is judged for the root is valid. What else
is in flight, and what the network does, plays no part.
-/
import BlockDag.Proofs.Memory

namespace BlockDag.Downloader

variable {ω : Type} {W : World ω} {rules : Rules} {Delivers : Bytes → Prop} {world : ω} {mem : ω → MemoryStore}
variable {σ σ' : Stage} {r r' : Run ω}

/-! ## Effects that speak against a root -/

/-- The effect neither reports `root` as broken nor judges it malformed. -/
def Effect.Spares (e : Effect) (root : RootId) : Prop :=
  e ≠ .notified (.broken root) ∧
    ∀ id awaiting verdict, e = .judged id awaiting verdict → ∀ error, (root, error) ∉ verdict.malformed

/-- A step spares every root that is doomed neither before nor after it. -/
theorem Step.adds_spares (hs : Step W rules σ r σ' r') {root : RootId} (h : ∀ e, (root, e) ∉ σ.doomed)
    (h' : ∀ e, (root, e) ∉ σ'.doomed) : Run.Adds (fun m => m.effect.Spares root) r r' := by
  cases hs with
  | logged => exact .emit (by simp [Effect.Spares])
  | expanded child d => exact await_adds _ _ _ (by simp [Effect.Spares])
  | released other d => exact dismiss_adds _ _ _ (by simp [Effect.Spares])
  | arranged | asked | refused | found | missed | discarded | orphaned | settled | spared => exact .refl rfl
  | announced | finished =>
    refine .trans (.refl rfl) (.emit ?_)
    simp [Effect.Spares, Update.added, Update.broken]
  | broke other e he =>
    refine .emit ⟨?_, by simp⟩
    intro heq
    obtain rfl : other = root := by simpa [Update.broken] using heq
    exact h e he
  | judged a awaiting p =>
    refine (Pass.take_adds W rules a awaiting p r).mono ?_
    rintro m ⟨⟨entry, he⟩ | ⟨awaiting', he⟩, -⟩
    · simp [he, Effect.Spares]
    · rw [he]
      refine ⟨by simp, ?_⟩
      rintro _ _ _ ⟨⟩
      exact h'
  | fetched => exact .cons rfl (by simp [Effect.Spares])
  | completed other d =>
    have hmark := mark_adds other r W (P := fun m => m.effect.Spares root) (by simp [Effect.Spares])
      (by simp [Effect.Spares])
    exact hmark.trans (dismiss_adds _ _ _ (by simp [Effect.Spares]))

theorem Opening.adds_spares (ho : Opening W Delivers r σ' r') (root : RootId) :
    Run.Adds (fun m => m.effect.Spares root) r r' := by
  cases ho with
  | launched other tag timeout => exact ⟨_, launch_trace _ _ _ _, by simp [Effect.Spares]⟩
  | delivered => exact .refl rfl

/-! ## Honest trees -/

/-- A tree whose root is accepted, and whose names no other bytes have that are there at the start
or are delivered. -/
structure Genuine (rules : Rules) (Delivers : Bytes → Prop) (start : MemoryStore) (t : Schema)
    (tree : Nat → NamedBlock) : Prop where
  laid : t.Laid tree
  accepted : ∀ tag, Judgement.rootSchema rules tag (Block.dataOf (tree 0).2) = .ok t
  started : ∀ {ix raw}, ix < t.totalBlocks → start.view (tree ix).1 = .ok raw → raw = (tree ix).2
  delivered : ∀ {ix raw}, ix < t.totalBlocks → (tree ix).1.Names raw → Delivers raw → raw = (tree ix).2

/-- The root's download has the shape of the tree, and all that the root waits for is in its place. -/
structure Fitting (t : Schema) (tree : Nat → NamedBlock) (owed : List Child) (s : State) : Prop where
  shape : ∀ {d s'}, s.roots.get? (tree 0).1 = some d → d.phase = .expanding s' → s' = t
  places : ∀ {d id ix}, s.roots.get? (tree 0).1 = some d → Open owed s (tree 0).1 id ix →
    ix < t.totalBlocks ∧ (tree ix).1 = id

/-- All that the root waits for is in its place, and nothing speaks against it. -/
structure Honest (t : Schema) (tree : Nat → NamedBlock) (σ : Stage) (r : Run ω) : Prop where
  shape : ∀ {d s}, r.state.roots.get? (tree 0).1 = some d → d.phase = .expanding s → s = t
  places : ∀ {d id ix}, r.state.roots.get? (tree 0).1 = some d → Open σ.owed r.state (tree 0).1 id ix →
    ix < t.totalBlocks ∧ (tree ix).1 = id
  undoomed : ∀ e, ((tree 0).1, e) ∉ σ.doomed
  spared : ∀ m ∈ r.trace, m.effect.Spares (tree 0).1

namespace Fitting

variable {start : MemoryStore} {t : Schema} {tree : Nat → NamedBlock} {owed : List Child}

/-- Nothing is said of a root that is not in flight. -/
theorem of_out {s : State} (h : s.roots.get? (tree 0).1 = none) : Fitting t tree owed s := by
  constructor
  · intro d s' hd
    rw [h] at hd
    cases hd
  · intro d id ix hd
    rw [h] at hd
    cases hd

/-- A root that was just put in flight waits for its root block. -/
theorem launch {root : RootId} {tag : DataTag} {timeout : Nat} (h : Fitting t tree [] r.state)
    (hb : Books rules [] (launch root tag timeout r).state) : Fitting t tree [] (launch root tag timeout r).state := by
  constructor
  · intro d s hd hp
    rcases Table.get?_insert_eq_some_iff.1 hd with ⟨-, rfl⟩ | ⟨-, hd⟩
    · cases hp
    · exact h.shape hd hp
  · intro d id ix hd hopen
    rcases Table.get?_insert_eq_some_iff.1 hd with ⟨-, rfl⟩ | ⟨hne, hd'⟩
    · obtain ⟨rfl, rfl⟩ := hb.requested hd rfl hopen
      exact ⟨t.totalBlocks_pos, rfl⟩
    · exact h.places hd' ((open_launch hne).1 hopen)

theorem await {child : Child} {d : Download} (h : Fitting t tree (child :: owed) r.state)
    (hd : r.state.roots.get? child.root = some d) : Fitting t tree owed (Pass.await child d r).state := by
  constructor
  · intro d' s hd' hp
    obtain ⟨e, he, rfl | rfl⟩ := get?_of_await hd hd'
    · exact h.shape he hp
    · exact h.shape he hp
  · intro d' id ix hd' ho
    obtain ⟨e, he, -⟩ := get?_of_await hd hd'
    exact h.places he (open_await.1 ho)

section Judging

variable {a : Arrival} {awaiting : Awaiting} {p : Pass}

/-- The block that belongs at all positions at which the root awaits it is valid for the root. -/
theorem not_malformed (W : World ω) (p : Pass) (hg : Genuine rules Delivers start t tree) (hb : Books rules [] r.state)
    (h : Fitting t tree [] r.state) (ha : r.state.pending.get? a.id = some awaiting)
    (hraw : ∀ ix ∈ r.state.pending.positions a.id (tree 0).1, a.raw = (tree ix).2) (e : FormatError) :
    ((tree 0).1, e) ∉ (Pass.take W rules a awaiting p r).1.malformed := by
  intro hm
  have hmem := hm
  rw [Pass.take_verdict (hb.pending _ _ ha).nodup] at hmem
  obtain ⟨positions, hmem⟩ := Verdict.mem_awaiting_of_malformed hmem
  obtain ⟨hne, hpos, d, hd⟩ := hb.of_mem_awaiting ha ((W.arrange_perm awaiting r.world).mem_iff.1 hmem)
  rw [← hpos] at hne
  -- one block opens at all those positions, as they hold the same bytes
  obtain ⟨ix₀, hix₀⟩ := List.exists_mem_of_ne_nil _ hne
  obtain ⟨block, hblock, -⟩ := hg.laid ix₀ (h.places hd (.inl hix₀)).1
  rw [← hraw ix₀ hix₀] at hblock
  have hblocks : ∀ ix ∈ r.state.pending.positions a.id (tree 0).1, Join.openBlock t ix a.raw = .ok block := by
    intro ix hix
    obtain ⟨block', hblock', -⟩ := hg.laid ix (h.places hd (.inl hix)).1
    rw [← hraw ix hix] at hblock'
    have hdecode := (Join.openBlock_eq_ok_iff.1 hblock').1
    rw [(Join.openBlock_eq_ok_iff.1 hblock).1] at hdecode
    rw [hblock', Except.ok.inj hdecode]
  refine hb.not_malformed ha W p hd hblocks ?_ e hm
  cases hp : d.phase with
  | requested =>
    obtain ⟨-, h0⟩ := hb.requested hd hp (.inl hix₀)
    refine .inr ⟨rfl, ?_⟩
    rw [← Block.dataOf_eq (Join.openBlock_eq_ok_iff.1 hblock).1, hraw ix₀ hix₀, h0]
    exact hg.accepted d.tag
  | expanding s =>
    rw [h.shape hd hp]
    exact .inl rfl

/-- Judging keeps the shape, and the children of a block are in their places. -/
theorem take (hg : Genuine rules Delivers start t tree) (hb : Books rules [] r.state)
    (h : Fitting t tree [] r.state) (ha : r.state.pending.get? a.id = some awaiting)
    (hraw : ∀ ix ∈ r.state.pending.positions a.id (tree 0).1, a.raw = (tree ix).2) :
    Fitting t tree (Pass.take W rules a awaiting p r).1.children (Pass.take W rules a awaiting p r).2.2.state := by
  have hfate := hb.fate ha W p
  have hpending := Pass.take_pending W rules a awaiting p r
  have hb' := hb.take ha W p
  generalize (Pass.take W rules a awaiting p r).1 = v at *
  generalize (Pass.take W rules a awaiting p r).2.2 = r' at *
  have hshape : ∀ {d' s}, r'.state.roots.get? (tree 0).1 = some d' → d'.phase = .expanding s → s = t := by
    intro d' s hd' hp'
    obtain ⟨d, hd, hf⟩ := hfate hd'
    cases hf with
    | passed | broken => exact h.shape hd hp'
    | grown block s' hne hblock hphase =>
      obtain rfl : s' = s := by simpa using hp'
      rcases hphase with hp | ⟨hp, hroot⟩
      · exact h.shape hd hp
      · -- the block is the root's own, whose header says what the shape is
        obtain ⟨ix, hix⟩ := List.exists_mem_of_ne_nil _ hne
        obtain ⟨-, rfl⟩ := hb.requested hd hp (.inl hix)
        rw [← Block.dataOf_eq (Join.openBlock_eq_ok_iff.1 (hblock 0 hix)).1, hraw 0 hix, hg.accepted] at hroot
        exact (Except.ok.inj hroot).symm
  refine ⟨hshape, ?_⟩
  intro d' id ix hd' ho
  obtain ⟨d, hd, hf⟩ := hfate hd'
  rcases ho with ho | ho
  · rw [hpending, PendingIndex.mem_positions_without] at ho
    exact h.places hd (.inl ho.1)
  · cases hf with
    | passed _ hc | broken _ _ _ hc =>
      have hnone := List.filter_eq_nil_iff.1 hc _ ho
      simp at hnone
    | grown block s _ hblock hphase hc =>
      obtain ⟨-, hsize, -⟩ := hb'.expanding hd' rfl
      obtain rfl : s = t := hshape hd' rfl
      obtain ⟨j, hj, hlinked⟩ := (Pass.mem_children_iff_linked hsize hc).1 ho
      obtain ⟨hj', -⟩ := h.places hd (.inl hj)
      -- the block at `j` links to the blocks at its children
      obtain ⟨block', hblock', hlinks⟩ := hg.laid j hj'
      rw [← hraw j hj, hblock j hj] at hblock'
      cases hblock'
      rw [(Join.linked_of_openBlock (hblock j hj)).1, hlinks, ← List.map_prod_left_eq_zip, List.mem_map] at hlinked
      obtain ⟨c, hchild, heq⟩ := hlinked
      obtain ⟨rfl, hname⟩ := Prod.mk.inj heq
      refine ⟨?_, hname⟩
      exact ((Judgement.small_of_rootSchema (hg.accepted .blockBody)).1.fits.lt_of_mem_children hj' hchild).2

end Judging

end Fitting

namespace Honest

variable {start : MemoryStore} {t : Schema} {tree : Nat → NamedBlock}

/-- What is judged at a position of the tree is the block that belongs there. -/
theorem raw_eq (hg : Genuine rules Delivers start t tree) (hstock : Stock mem Delivers start σ r) {a : Arrival}
    (ha : a ∈ σ.queue) {ix : Nat} (hix : ix < t.totalBlocks) (hid : (tree ix).1 = a.id) : a.raw = (tree ix).2 := by
  rcases hstock.origin_of_mem ha with hv | ⟨hn, hd⟩
  · exact hg.started hix (hid ▸ hv)
  · exact hg.delivered hix (hid ▸ hn) hd

theorem fitting (h : Honest t tree σ r) : Fitting t tree σ.owed r.state := ⟨h.shape, h.places⟩

/-- Judging keeps the shape, and the children of a block are in their places. -/
theorem take {q : List Arrival} {w : List BlockId} {a : Arrival} {awaiting : Awaiting} {p : Pass}
    (hg : Genuine rules Delivers start t tree) (hb : Books rules [] r.state)
    (h : Honest t tree ⟨a :: q, [], w, [], []⟩ r) (ha : r.state.pending.get? a.id = some awaiting)
    (hraw : ∀ ix ∈ r.state.pending.positions a.id (tree 0).1, a.raw = (tree ix).2) :
    Honest t tree ⟨q, [], w, (Pass.take W rules a awaiting p r).1.children,
      (Pass.take W rules a awaiting p r).1.malformed⟩ (Pass.take W rules a awaiting p r).2.2 := by
  have hspare := h.fitting.not_malformed W p hg hb ha hraw
  have hfitting := h.fitting.take (W := W) (p := p) hg hb ha hraw
  have hstep : Step W rules ⟨a :: q, [], w, [], []⟩ r _ _ := .judged a awaiting p ha
  have htrace := hstep.adds_spares h.undoomed hspare
  exact ⟨hfitting.shape, hfitting.places, hspare, fun m hm => (htrace.mem hm).elim (h.spared m) id⟩

variable {q : List Arrival}

theorem step (hm : W.MemoryLike mem) (hg : Genuine rules Delivers (mem world) t tree)
    (hr : Reached W rules Delivers world σ r) (h : Honest t tree σ r) (hs : Step W rules σ r σ' r') :
    Honest t tree σ' r' := by
  -- apart from judging, a step keeps the root's phase, lets it wait for no more, and dooms nobody
  have hcarry : (∀ {d'}, r'.state.roots.get? (tree 0).1 = some d' →
        ∃ d, r.state.roots.get? (tree 0).1 = some d ∧ d'.phase = d.phase) →
      (∀ {d' id ix}, r'.state.roots.get? (tree 0).1 = some d' → Open σ'.owed r'.state (tree 0).1 id ix →
        Open σ.owed r.state (tree 0).1 id ix) →
      (∀ e, ((tree 0).1, e) ∉ σ'.doomed) → Honest t tree σ' r' := by
    intro hphase hopen hundoomed
    refine ⟨?_, ?_, hundoomed, ?_⟩
    · intro d' s hd' hp
      obtain ⟨d, hd, heq⟩ := hphase hd'
      exact h.shape hd (heq ▸ hp)
    · intro d' id ix hd' ho
      obtain ⟨d, hd, -⟩ := hphase hd'
      exact h.places hd (hopen hd' ho)
    · intro m hm
      exact ((hs.adds_spares h.undoomed hundoomed).mem hm).elim (h.spared m) id
  cases hs with
  | logged | arranged | asked | announced | refused | found | missed | discarded | fetched | settled | broke
  | finished => exact hcarry (fun hd => ⟨_, hd, rfl⟩) (fun _ ho => ho) h.undoomed
  | spared => exact hcarry (fun hd => ⟨_, hd, rfl⟩) (fun _ ho => ho) (by simp)
  | judged a awaiting p ha =>
    refine h.take hg hr.books ha ?_
    intro ix hix
    obtain ⟨d, hd, -⟩ := hr.books.waiter (List.ne_nil_of_mem hix)
    obtain ⟨hlt, hid⟩ := h.places hd (.inl hix)
    exact raw_eq hg (hr.stock hm) List.mem_cons_self hlt hid
  | expanded child d hd =>
    refine hcarry ?_ (fun _ => open_await.1) h.undoomed
    intro d' hd'
    obtain ⟨e, he, rfl | rfl⟩ := get?_of_await hd hd'
    · exact ⟨d', he, rfl⟩
    · exact ⟨e, he, rfl⟩
  | orphaned child =>
    exact hcarry (fun hd => ⟨_, hd, rfl⟩) (fun _ ho => ho.imp_right (List.mem_cons_of_mem _)) h.undoomed
  | released root d =>
    refine hcarry ?_ (fun _ => open_of_open_dismiss) h.undoomed
    intro d' hd'
    exact ⟨d', (get?_of_dismiss hd').2, rfl⟩
  | @completed w r root d =>
    refine hcarry ?_ ?_ h.undoomed
    · intro d' hd'
      have hd := (get?_of_dismiss hd').2
      rw [mark_state] at hd
      exact ⟨d', hd, rfl⟩
    · intro d' id ix _ ho
      have ho' := open_of_open_dismiss ho
      rw [mark_state] at ho'
      exact ho'

theorem opened (hr : Reached W rules Delivers world .idle r) (h : Honest t tree .idle r)
    (ho : Opening W Delivers r σ' r') : Honest t tree σ' r' := by
  have htrace : ∀ m ∈ r'.trace, m.effect.Spares (tree 0).1 :=
    fun m hm => ((ho.adds_spares (tree 0).1).mem hm).elim (h.spared m) id
  have hb := hr.books.opened ho
  cases ho with
  | launched root tag timeout =>
    have hfitting := Fitting.launch (r := (r.call (W.setStatus root .part)).2) h.fitting hb
    exact ⟨hfitting.shape, hfitting.places, by simp, htrace⟩
  | delivered => exact ⟨h.shape, h.places, h.undoomed, htrace⟩

end Honest

/-- Nothing ever speaks against a tree that is genuine. -/
theorem Reached.honest (hm : W.MemoryLike mem) {t : Schema} {tree : Nat → NamedBlock}
    (hg : Genuine rules Delivers (mem world) t tree) (h : Reached W rules Delivers world σ r) : Honest t tree σ r := by
  induction h with
  | start =>
    exact ⟨by simp [State.initial, Table.get?], by simp [State.initial, Table.get?], by simp [Stage.idle], by simp⟩
  | opened hr ho ih => exact ih.opened hr ho
  | step hr hs ih => exact ih.step hm hg hr hs

/-- The root of a payload within the limits is never reported as broken and never judged malformed,
where no other bytes have the name of one of its blocks, at the start or among what is delivered. -/
theorem honest_not_broken {ν : Type} (N : Outside ν) (rules : Rules) (events : List Event) (world : MemoryStore × ν)
    {payload : Bytes} {limits : TagLimits} {blob : EncodedBlob} (hlim : rules.limits .blockBody = some limits)
    (hmax : payload.length ≤ limits.maxSize) (hsplit : EncodedBlob.split rules.size .blockBody payload = .ok blob)
    (hnamed : ∀ {id raw}, world.1.view id = .ok raw → id.Names raw)
    (hunique : ∀ b ∈ blob.blocks, ∀ raw, b.1.Names raw →
      (DeliveredIn events raw ∨ ∃ id, world.1.view id = .ok raw) → raw = b.2) :
    ∀ m ∈ (history (World.over MemoryStore.operations N) rules events world).trace,
      m.effect ≠ .notified (.broken blob.root) ∧
        ∀ id awaiting verdict, m.effect = .judged id awaiting verdict → ∀ e, (blob.root, e) ∉ verdict.malformed := by
  obtain ⟨tree, hlaid, -, hframe, rfl⟩ := EncodedBlob.laid_of_split hsplit
  have hblock : ∀ {ix}, ix < (Schema.ofDeclared rules.size (payload.length + 1)).totalBlocks →
      tree ix ∈ (List.range (Schema.ofDeclared rules.size (payload.length + 1)).totalBlocks).map tree :=
    fun hix => List.mem_map.2 ⟨_, List.mem_range.2 hix, rfl⟩
  have hgenuine : Genuine rules (DeliveredIn events) world.1 (Schema.ofDeclared rules.size (payload.length + 1))
      tree := by
    refine ⟨hlaid, ?_, ?_, ?_⟩
    · rintro ⟨⟩
      exact Judgement.rootSchema_of_frame hlim hmax hlaid hframe
    · intro ix raw hix hv
      exact hunique _ (hblock hix) raw (hnamed hv) (.inr ⟨_, hv⟩)
    · intro ix raw hix hn hd
      exact hunique _ (hblock hix) raw hn (.inl hd)
  have h := (history_reached (World.over MemoryStore.operations N) rules events world).honest
    (World.over_memoryLike N) hgenuine
  exact h.spared

theorem honest_not_broken_leaves :
    EncodedBlob.split Sample.rules.size .blockBody Sample.leaves = .ok (Sample.blob Sample.leaves) ∧
    ∀ m ∈ (Sample.run (Sample.download Sample.leaves)).trace,
      m.effect ≠ .notified (.broken (Sample.blob Sample.leaves).root) ∧
        ∀ id awaiting verdict, m.effect = .judged id awaiting verdict →
          ∀ e, ((Sample.blob Sample.leaves).root, e) ∉ verdict.malformed := by
  have hsplit : EncodedBlob.split Sample.rules.size .blockBody Sample.leaves = .ok (Sample.blob Sample.leaves) :=
    Sample.split_eq (by decide +kernel)
  refine ⟨hsplit, honest_not_broken Simulation.Refusals.outside Sample.rules (Sample.download Sample.leaves)
    (.empty, Sample.network) rfl (by decide +kernel) hsplit (by simp) ?_⟩
  have hown : ∀ b ∈ (Sample.blob Sample.leaves).blocks, ∀ b' ∈ (Sample.blob Sample.leaves).blocks,
      b.1.Names b'.2 → b'.2 = b.2 := by decide +kernel
  rintro b hb raw hn (⟨id, hd⟩ | ⟨id, hv⟩)
  · rcases List.mem_cons.1 hd with hd | hd
    · cases hd
    · obtain ⟨b', hb', heq⟩ := List.mem_map.1 hd
      obtain ⟨-, rfl⟩ := Event.delivered.inj heq
      exact hown b hb b' hb' hn
  · rw [MemoryStore.view_empty] at hv
    cases hv

end BlockDag.Downloader
