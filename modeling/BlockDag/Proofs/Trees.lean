/-
Downloads as trees. The tree of a root in flight is planted as soon as its root block is judged, and
what the root waits for, or is owed, are the gaps in it. Judging a block fills its gaps with the
block and opens gaps for its children. A download that waits for nothing has no gaps left, so its
tree is whole.
-/
import BlockDag.Proofs.Handlers

namespace BlockDag.Downloader

variable {ω : Type} {W : World ω} {rules : Rules} {Delivers : Bytes → Prop} {world : ω}
variable {kept kept' : BlockId → Bytes → Prop} {gap gap' : BlockId → Nat → Prop} {root : RootId}

/-- The tree of the download `d` of `root`: its root is awaited, or planted but for the gaps. -/
inductive Rooted (rules : Rules) (kept : BlockId → Bytes → Prop) (gap : BlockId → Nat → Prop) (root : RootId)
    (d : Download) : Prop
  | requested : d.phase = .requested → gap root 0 → Rooted rules kept gap root d
  | expanding (t : Schema) (raw : Bytes) (block : Block) : d.phase = .expanding t → Planted t kept gap root raw block →
      Judgement.rootSchema rules d.tag block.data = .ok t → Rooted rules kept gap root d

theorem Rooted.mono {d d' : Download} (hphase : d'.phase = d.phase) (htag : d'.tag = d.tag)
    (hk : ∀ id raw, kept id raw → kept' id raw) (hg : ∀ id ix, gap id ix → gap' id ix)
    (h : Rooted rules kept gap root d) : Rooted rules kept' gap' root d' := by
  cases h with
  | requested hp h0 => exact .requested (hphase.trans hp) (hg _ _ h0)
  | expanding t raw block hp hplanted hroot =>
    exact .expanding t raw block (hphase.trans hp) (hplanted.fill hk fun id ix h => .missing (hg id ix h))
      (htag ▸ hroot)

/-- Every root in flight has its tree, unless it was just proved malformed. -/
def Trees (rules : Rules) (kept : BlockId → Bytes → Prop) (σ : Stage) (s : State) : Prop :=
  ∀ root d, s.roots.get? root = some d → (∀ e, (root, e) ∉ σ.doomed) → Rooted rules kept (Open σ.owed s root) root d

/-- What is kept stays so, and a block that turns out valid for somebody is kept. -/
structure Keeping (W : World ω) (rules : Rules) (Delivers : Bytes → Prop) (world : ω)
    (kept : Run ω → BlockId → Bytes → Prop) : Prop where
  opened : ∀ {r σ' r' id raw}, Reached W rules Delivers world .idle r → Opening W Delivers r σ' r' → kept r id raw →
    kept r' id raw
  step : ∀ {σ r σ' r' id raw}, Reached W rules Delivers world σ r → Step W rules σ r σ' r' → kept r id raw →
    kept r' id raw
  judged : ∀ {q w r a awaiting p}, Reached W rules Delivers world ⟨a :: q, [], w, [], []⟩ r →
    r.state.pending.get? a.id = some awaiting →
    (Pass.take W rules a awaiting p r).1.validated ≠ [] →
    kept (Pass.take W rules a awaiting p r).2.2 a.id a.raw

namespace Trees

variable {σ σ' : Stage} {s s' : State}

/-- Trees stay where every root in flight was, and nothing it waits for is lost. -/
theorem carry (h : Trees rules kept σ s) (hk : ∀ id raw, kept id raw → kept' id raw)
    (hs : ∀ {root d'}, s'.roots.get? root = some d' → (∀ e, (root, e) ∉ σ'.doomed) →
      ∃ d, s.roots.get? root = some d ∧ (∀ e, (root, e) ∉ σ.doomed) ∧ d'.phase = d.phase ∧ d'.tag = d.tag ∧
        ∀ id ix, Open σ.owed s root id ix → Open σ'.owed s' root id ix) : Trees rules kept' σ' s' := by
  intro root d' hd' hdoomed
  obtain ⟨d, hd, hd₀, hphase, htag, hopen⟩ := hs hd' hdoomed
  exact (h root d hd hd₀).mono hphase htag hk hopen

section Judging

variable {r : Run ω} {q : List Arrival} {w : List BlockId} {a : Arrival} {awaiting : Awaiting} {p : Pass}

/-- A judged block takes its places, and its children are gaps. -/
theorem take (h : Trees rules kept ⟨a :: q, [], w, [], []⟩ r.state) (hb : Books rules [] r.state)
    (ha : r.state.pending.get? a.id = some awaiting) (hk : ∀ id raw, kept id raw → kept' id raw)
    (hvalid : (Pass.take W rules a awaiting p r).1.validated ≠ [] →
      kept' a.id a.raw) :
    Trees rules kept'
      ⟨q, [], w, (Pass.take W rules a awaiting p r).1.children,
        (Pass.take W rules a awaiting p r).1.malformed⟩
      (Pass.take W rules a awaiting p r).2.2.state := by
  have hfate := hb.fate ha W p
  have hpending := Pass.take_pending W rules a awaiting p r
  generalize (Pass.take W rules a awaiting p r).1 = v at *
  generalize (Pass.take W rules a awaiting p r).2.2 = r' at *
  -- what a root waits for, other than this block, it still waits for
  have hopen : ∀ {root id ix}, Open [] r.state root id ix → id ≠ a.id → Open v.children r'.state root id ix := by
    intro root id ix ho hid
    rcases ho with ho | ho
    · refine .inl ?_
      rw [hpending, PendingIndex.mem_positions_without]
      exact ⟨ho, hid⟩
    · cases ho
  intro root d' hd' hdoomed
  obtain ⟨d, hd, hf⟩ := hfate hd'
  have htree := h root d hd (by simp)
  cases hf with
  | passed hpos =>
    refine htree.mono rfl rfl hk ?_
    intro id ix ho
    refine hopen ho ?_
    rintro rfl
    rcases ho with ho | ho
    · rw [hpos] at ho
      cases ho
    · cases ho
  | broken e _ hm => exact absurd hm (hdoomed e)
  | grown block t hne hblock hphase hchildren hval =>
    obtain ⟨-, hsize⟩ := hb.small_of_phase hd hphase
    have hstored := hvalid (List.ne_nil_of_mem hval)
    have hgaps : ∀ ix ∈ r.state.pending.positions a.id root, ∀ c ∈ Join.linked t ix block.links,
        Open v.children r'.state root c.2 c.1 := by
      intro ix hix c hc
      exact .inr ((Pass.mem_children_iff_linked hsize hchildren).2 ⟨ix, hix, hc⟩)
    cases htree with
    | requested hp h0 =>
      rcases hphase with hp' | ⟨-, hroot⟩
      · rw [hp] at hp'
        cases hp'
      · -- the block is the root's own
        obtain ⟨ix, hix⟩ := List.exists_mem_of_ne_nil _ hne
        obtain ⟨hid, rfl⟩ := hb.requested hd hp (.inl hix)
        have hplanted : Planted t kept' (Open v.children r'.state root) root a.raw block :=
          ⟨hid ▸ hstored, hblock 0 hix, fun c hc => .missing (hgaps 0 hix c hc)⟩
        exact .expanding t a.raw block rfl hplanted hroot
    | expanding t' raw b hp hplanted hroot =>
      have ht : t' = t := by
        rcases hphase with hp' | ⟨hp', -⟩
        · rw [hp] at hp'
          cases hp'
          rfl
        · rw [hp] at hp'
          cases hp'
      subst ht
      refine .expanding t' raw b rfl (hplanted.fill hk ?_) hroot
      intro id ix ho
      by_cases hid : id = a.id
      · subst hid
        rcases ho with ho | ho
        · exact .block hstored (hblock ix ho) fun c hc => .missing (hgaps ix ho c hc)
        · cases ho
      · exact .missing (hopen ho hid)

end Judging

variable {keptIn : Run ω → BlockId → Bytes → Prop} {r r' : Run ω}

theorem step (hk : Keeping W rules Delivers world keptIn) (hr : Reached W rules Delivers world σ r)
    (h : Trees rules (keptIn r) σ r.state) (hs : Step W rules σ r σ' r') : Trees rules (keptIn r') σ' r'.state := by
  have hkept : ∀ id raw, keptIn r id raw → keptIn r' id raw := fun _ _ => hk.step hr hs
  cases hs with
  | logged | arranged | asked | announced | refused | found | missed | discarded | fetched | settled | broke
  | finished => exact h.carry hkept fun hd hdoomed => ⟨_, hd, hdoomed, rfl, rfl, fun _ _ ho => ho⟩
  | judged a awaiting p ha => exact h.take hr.books ha hkept (hk.judged hr ha)
  | @expanded q w o r child d hd =>
    refine h.carry hkept ?_
    intro root d' hd' hdoomed
    have hopen : ∀ id ix, Open (child :: o) r.state root id ix → Open o (Pass.await child d r).state root id ix :=
      fun _ _ => open_await.2
    obtain ⟨d₀, hd₀, rfl | rfl⟩ := get?_of_await hd hd'
    · exact ⟨d', hd₀, hdoomed, rfl, rfl, hopen⟩
    · exact ⟨d₀, hd₀, hdoomed, rfl, rfl, hopen⟩
  | orphaned child hn =>
    refine h.carry hkept ?_
    intro root d' hd' hdoomed
    refine ⟨d', hd', hdoomed, rfl, rfl, fun id ix => (open_cons_of_ne ?_).1⟩
    rintro rfl
    rw [hn] at hd'
    cases hd'
  | released other d hd =>
    refine h.carry hkept ?_
    intro root d' hd' hdoomed
    obtain ⟨hne, hd'⟩ := get?_of_dismiss hd'
    exact ⟨d', hd', hdoomed, rfl, rfl, fun _ _ => (open_dismiss hne).2⟩
  | spared hout =>
    refine h.carry hkept ?_
    intro root d' hd' _
    refine ⟨d', hd', ?_, rfl, rfl, fun _ _ ho => ho⟩
    intro e he
    refine hout _ he ?_
    rw [State.InFlight, Table.has_iff_get?, hd']
    rfl
  | completed other d hd hc =>
    refine h.carry hkept ?_
    intro root d' hd' hdoomed
    obtain ⟨hne, hd'⟩ := get?_of_dismiss hd'
    rw [mark_state] at hd'
    refine ⟨d', hd', hdoomed, rfl, rfl, fun id ix ho => (open_dismiss hne).2 ?_⟩
    rw [mark_state]
    exact ho

theorem opened (hk : Keeping W rules Delivers world keptIn) (hr : Reached W rules Delivers world .idle r)
    (h : Trees rules (keptIn r) .idle r.state) (ho : Opening W Delivers r σ' r') :
    Trees rules (keptIn r') σ' r'.state := by
  have hkept : ∀ id raw, keptIn r id raw → keptIn r' id raw := fun _ _ => hk.opened hr ho
  cases ho with
  | launched other tag timeout =>
    intro other' d' hd' hdoomed
    rcases Table.get?_insert_eq_some_iff.1 hd' with ⟨rfl, rfl⟩ | ⟨hne, hd'⟩
    · refine .requested rfl (.inl ?_)
      rw [launch_pending, PendingIndex.positions_insert, if_pos ⟨rfl, rfl⟩]
      exact List.mem_append_right _ (List.mem_singleton.2 rfl)
    · exact (h other' d' hd' (by simp [Stage.idle])).mono rfl rfl hkept fun _ _ => (open_launch hne).2
  | delivered => exact h.carry hkept fun hd hdoomed => ⟨_, hd, hdoomed, rfl, rfl, fun _ _ ho => ho⟩

end Trees

variable {keptIn : Run ω → BlockId → Bytes → Prop} {σ : Stage} {r : Run ω}

theorem Reached.trees (hk : Keeping W rules Delivers world keptIn) (h : Reached W rules Delivers world σ r) :
    Trees rules (keptIn r) σ r.state := by
  induction h with
  | start =>
    intro root d hd
    cases hd
  | opened hr ho ih => exact ih.opened hk hr ho
  | step hr hs ih => exact ih.step hk hr hs

/-- A root that waits for nothing has its whole tree, in a shape that its header declares. -/
theorem Reached.exists_tree (hk : Keeping W rules Delivers world keptIn) {w : List BlockId} {d : Download}
    (h : Reached W rules Delivers world ⟨[], [], w, [], []⟩ r) (hd : r.state.roots.get? root = some d)
    (hc : d.Complete) :
    ∃ (t : Schema) (tree : Nat → NamedBlock), t.Laid tree ∧ (tree 0).1 = root ∧
      Judgement.rootSchema rules d.tag (Block.dataOf (tree 0).2) = .ok t ∧
      ∀ ix < t.totalBlocks, keptIn r (tree ix).1 (tree ix).2 := by
  have hnone : ∀ id ix, ¬ Open [] r.state root id ix := by
    rintro id ix (ho | ho)
    · rw [(h.books.complete_iff hd).1 hc] at ho
      cases ho
    · cases ho
  cases h.trees hk root d hd (by simp) with
  | requested _ h0 => exact absurd h0 (hnone _ _)
  | expanding t raw block _ hplanted hroot =>
    have hwhole : Planted t (keptIn r) (fun _ _ => False) root raw block :=
      hplanted.fill (fun _ _ h => h) fun id ix ho => (hnone id ix ho).elim
    obtain ⟨tree, h0, hlaid, hkept⟩ := hwhole.exists_tree (Judgement.small_of_rootSchema hroot).1
    refine ⟨t, tree, hlaid, by rw [h0], ?_, hkept⟩
    rw [h0, Block.dataOf_eq (Join.openBlock_eq_ok_iff.1 hplanted.opens).1]
    exact hroot

end BlockDag.Downloader
