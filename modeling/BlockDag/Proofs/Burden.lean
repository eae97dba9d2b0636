/-
Why a pass ends. A position that a root waits at carries the number of positions below it; judging
a block spends what it carries on its children, and one round of the pass with it. So the rounds
that are left are bounded by what is carried, and at the start of a pass that is within the bound
that the pass is run with.
-/
import BlockDag.Proofs.Books
import Mathlib.Algebra.Order.BigOperators.Group.List

namespace BlockDag.Downloader

variable {ω : Type} {W : World ω} {rules : Rules} {Delivers : Bytes → Prop} {world : ω}

/-- How many positions are below `ix`; while the shape is unknown, more than any tree has. -/
def burden : DownloadPhase → (ix : Nat) → Nat
  | .requested, _ => Pass.treeBound
  | .expanding t, ix => (t.subtree ix).length - 1

theorem burden_expanding (t : Schema) (ix : Nat) : burden (.expanding t) ix = (t.subtree ix).length - 1 := rfl

/-- What the positions carry that `root` waits at, and one round for each child it is owed. -/
def load (owed : List Child) (s : State) (root : RootId) : Nat :=
  match s.roots.get? root with
  | none => 0
  | some d => ((s.pending.waits root).map fun w => burden d.phase w.2).sum +
      ((owed.filter fun c => decide (c.root = root)).map fun c => burden d.phase c.position + 1).sum

/-- An upper bound on the rounds that are left. -/
def potential (σ : Stage) (s : State) : Nat :=
  σ.queue.length + σ.unseen.length + (s.roots.keys.map (load σ.owed s)).sum

theorem load_of_get? {owed : List Child} {s : State} {root : RootId} {d : Download} (h : s.roots.get? root = some d) :
    load owed s root = ((s.pending.waits root).map fun w => burden d.phase w.2).sum +
      ((owed.filter fun c => decide (c.root = root)).map fun c => burden d.phase c.position + 1).sum := by
  unfold load
  rw [h]

theorem mem_keys_iff_get? {t : Table RootId Download} {root : RootId} :
    root ∈ t.keys ↔ ∃ d, t.get? root = some d := by
  rw [← Option.isSome_iff_exists, ← Table.has_iff_get?]
  rfl

/-- The children at a position carry what the position does. -/
theorem sum_childrenAt {t : Schema} {raw : Bytes} {block : Block} {root : RootId} {ix : Nat} (hs : t.Small)
    (hsize : t.size = rules.size) (ho : Join.openBlock t ix raw = .ok block) :
    ((Judgement.childrenAt rules root block.links ix).map fun c => burden (.expanding t) c.position + 1).sum =
      burden (.expanding t) ix := by
  have hlt := Join.lt_of_openBlock ho
  have hpositions : (Judgement.childrenAt rules root block.links ix).map Child.position = t.children ix :=
    Judgement.map_position_childrenAt hsize ho
  have hsub : ∀ c ∈ t.children ix, burden (.expanding t) c + 1 = (t.subtree c).length := by
    intro c hc
    have hc' := (hs.fits.lt_of_mem_children hlt hc).2
    rw [burden_expanding, hs.fits.subtree_eq hc', List.length_cons]
    rfl
  calc ((Judgement.childrenAt rules root block.links ix).map fun c => burden (.expanding t) c.position + 1).sum
      = ((t.children ix).map fun c => burden (.expanding t) c + 1).sum := by
        rw [← hpositions, List.map_map]
        rfl
    _ = ((t.children ix).flatMap t.subtree).length := by
        rw [List.map_congr_left hsub, List.length_flatMap]
    _ = burden (.expanding t) ix := by
        rw [burden_expanding, hs.fits.subtree_eq hlt, List.length_cons, Nat.add_sub_cancel]

/-- No position carries more than the bound on trees. -/
theorem burden_le {t : Schema} {ix : Nat} (hs : t.Small) (h : ix < t.totalBlocks) :
    burden (.expanding t) ix ≤ Pass.treeBound := by
  have h1 := hs.fits.length_subtree_le h
  have h2 := hs.totalBlocks_lt
  rw [burden_expanding]
  unfold Pass.treeBound
  omega

namespace Books

variable {owed : List Child} {s : State} {r : Run ω}

/-- At the start of a pass, the rounds it is run with are enough. -/
theorem potential_le (h : Books rules [] s) {queue : List Arrival} {wanted : List BlockId}
    {doomed : List (RootId × FormatError)} (hq : queue.length ≤ 1) :
    potential ⟨queue, [], wanted, [], doomed⟩ s ≤ Pass.roundBound s := by
  -- each outstanding position carries a tree at most
  have hload : ∀ root d, s.roots.get? root = some d → load [] s root ≤ d.outstanding * Pass.treeBound := by
    intro root d hd
    have hw : ∀ w ∈ s.pending.waits root, burden d.phase w.2 ≤ Pass.treeBound := by
      rintro ⟨id, ix⟩ hw
      cases hp : d.phase with
      | requested => exact Nat.le_refl _
      | expanding t =>
        obtain ⟨hs, -, hfit⟩ := h.expanding hd hp
        exact burden_le hs (hfit (.inl (PendingIndex.mem_waits.1 hw))).2
    rw [load_of_get? hd, h.account hd]
    have hsum := List.sum_le_card_nsmul ((s.pending.waits root).map fun w => burden d.phase w.2) Pass.treeBound (by
      intro x hx
      obtain ⟨w, hm, rfl⟩ := List.mem_map.1 hx
      exact hw w hm)
    simpa using hsum
  have hsum : ∀ l : List (RootId × Download), (∀ e ∈ l, s.roots.get? e.1 = some e.2) →
      ((Table.keys l).map (load [] s)).sum ≤ l.foldr (fun e n => e.2.outstanding + n) 0 * Pass.treeBound := by
    intro l hl
    induction l with
    | nil => simp [Table.keys]
    | cons e l ih =>
      have h1 := hload e.1 e.2 (hl e List.mem_cons_self)
      have h2 := ih fun f hf => hl f (List.mem_cons_of_mem _ hf)
      rw [List.foldr_cons, Nat.add_mul]
      simp only [Table.keys, List.map_cons, List.sum_cons] at h2 ⊢
      omega
  have := hsum s.roots fun e he => Table.get?_of_mem h.roots he
  unfold potential Pass.roundBound State.outstanding
  rw [Nat.mul_comm]
  simp only [List.length_nil]
  omega

/-! ## Steps -/

/-- Ending a download leaves the others' positions carrying what they do. -/
theorem load_dismiss_of_ne (owed : List Child) {root other : RootId} (hne : root ≠ other) (d : Download) (r : Run ω) :
    load owed (Downloader.dismiss root d r).state other = load owed r.state other := by
  unfold load
  rw [dismiss_roots, Table.get?_erase, if_neg hne]
  cases r.state.roots.get? other with
  | none => rfl
  | some d' =>
    dsimp only
    rw [dismiss_pending, ((PendingIndex.waits_removeRoot_of_ne hne _).map _).sum_eq]

/-- Ending a download frees what its positions carry. -/
theorem load_dismiss_self (owed : List Child) (root : RootId) (d : Download) (r : Run ω) :
    load owed (Downloader.dismiss root d r).state root = 0 := by
  unfold load
  rw [dismiss_roots, Table.get?_erase, if_pos rfl]

theorem load_dismiss_le (owed : List Child) (root other : RootId) (d : Download) (r : Run ω) :
    load owed (Downloader.dismiss root d r).state other ≤ load owed r.state other := by
  by_cases h : root = other
  · rw [← h, load_dismiss_self]
    exact Nat.zero_le _
  · exact (load_dismiss_of_ne owed h d r).le

theorem sum_load_dismiss (owed : List Child) (root : RootId) (d : Download) (r : Run ω) :
    ((Downloader.dismiss root d r).state.roots.keys.map (load owed (Downloader.dismiss root d r).state)).sum ≤
      (r.state.roots.keys.map (load owed r.state)).sum := by
  refine (List.sum_le_sum fun other _ => load_dismiss_le owed root other d r).trans ?_
  rw [dismiss_roots]
  refine List.Sublist.sum_le_sum ?_ (by simp)
  exact ((List.filter_sublist (p := fun e => decide (e.1 ≠ root))).map Prod.fst).map _

/-- Letting a root wait for a child takes the round that the child is owed. -/
theorem load_await_self (owed : List Child) {child : Child} {d : Download}
    (hd : r.state.roots.get? child.root = some d) :
    load owed (Pass.await child d r).state child.root + 1 = load (child :: owed) r.state child.root := by
  have hd' : (Pass.await child d r).state.roots.get? child.root = some (d.expect child.id) := by
    rw [await_roots, Table.get?_insert, if_pos rfl]
  rw [load_of_get? hd, load_of_get? hd', await_pending, ((PendingIndex.waits_insert _ _ _ _).map _).sum_eq]
  simp [Download.expect]
  omega

theorem load_await_le (owed : List Child) {child : Child} {d : Download} (hd : r.state.roots.get? child.root = some d)
    (root : RootId) : load owed (Pass.await child d r).state root ≤ load (child :: owed) r.state root := by
  by_cases hr : child.root = root
  · subst hr
    have := load_await_self owed hd
    omega
  · unfold load
    rw [await_roots, Table.get?_insert, if_neg hr]
    cases r.state.roots.get? root with
    | none => exact Nat.le_refl _
    | some d' =>
      dsimp only
      rw [await_pending, ((PendingIndex.waits_insert_of_ne hr _ _).map _).sum_eq,
        List.filter_cons_of_neg (by simpa using hr)]

/-- Among any roots with the child's, that is one round less. -/
theorem sum_load_await (owed : List Child) {child : Child} {d : Download} (hd : r.state.roots.get? child.root = some d)
    {roots : List RootId} (hmem : child.root ∈ roots) :
    (roots.map (load owed (Pass.await child d r).state)).sum + 1 ≤ (roots.map (load (child :: owed) r.state)).sum := by
  have := load_await_self owed hd
  exact List.sum_lt_sum _ _ (fun root _ => load_await_le owed hd root) ⟨child.root, hmem, by omega⟩

/-- A child whose root is out of flight is nothing to the others. -/
theorem load_cons_of_none (owed : List Child) {child : Child} (hn : r.state.roots.get? child.root = none)
    (root : RootId) : load owed r.state root = load (child :: owed) r.state root := by
  by_cases hr : child.root = root
  · unfold load
    rw [← hr, hn]
  · unfold load
    rw [List.filter_cons_of_neg (by simpa using hr)]

section Judging

variable {a : Arrival} {awaiting : Awaiting} {p : Pass}

/-- What a root waits for is the judged block, at its places, and the rest. -/
theorem sum_waits_take (id : BlockId) (s : State) (root : RootId) (f : BlockId × Nat → Nat) :
    ((s.pending.waits root).map f).sum = ((s.pending.positions id root).map fun ix => f (id, ix)).sum +
      (((s.pending.without id).waits root).map f).sum := by
  rw [((PendingIndex.waits_split s.pending id root).map f).sum_eq, List.map_append, List.sum_append, List.map_map]
  rfl

/-- The children of a valid block carry what its places do. -/
theorem sum_load_children {raw : Bytes} {block : Block} {root : RootId} {t : Schema} {positions : List Nat}
    (hs : t.Small) (hsize : t.size = rules.size) (hopen : ∀ ix ∈ positions, Join.openBlock t ix raw = .ok block) :
    ((positions.flatMap (Judgement.childrenAt rules root block.links)).map
        fun c => burden (.expanding t) c.position + 1).sum = (positions.map (burden (.expanding t))).sum := by
  rw [List.map_flatMap, List.flatMap_def, List.sum_flatten, List.map_map]
  congr 1
  apply List.map_congr_left
  intro ix hix
  exact sum_childrenAt hs hsize (hopen ix hix)

/-- A root that waits for its root block waits for nothing when that is judged. -/
theorem waits_take_eq_nil (h : Books rules [] s) {root : RootId} {d : Download} (hd : s.roots.get? root = some d)
    (hp : d.phase = .requested) {id : BlockId} (hne : s.pending.positions id root ≠ []) :
    (s.pending.without id).waits root = [] := by
  rw [List.eq_nil_iff_forall_not_mem]
  rintro ⟨other, ix⟩ hm
  rw [PendingIndex.mem_waits, PendingIndex.mem_positions_without] at hm
  obtain ⟨j, hj⟩ := List.exists_mem_of_ne_nil _ hne
  exact hm.2 (h.requested_eq hd hp (.inl hm.1) (.inl hj))

/-- Judging a block passes what its positions carry on to its children. -/
theorem load_take_le (h : Books rules [] r.state) (ha : r.state.pending.get? a.id = some awaiting) (W : World ω)
    (p : Pass) (root : RootId) :
    load (Pass.take W rules a awaiting p r).1.children (Pass.take W rules a awaiting p r).2.2.state root ≤
      load [] r.state root := by
  have hpending := Pass.take_pending W rules a awaiting p r
  have hfate := h.fate ha W p
  generalize (Pass.take W rules a awaiting p r).1 = v at *
  generalize (Pass.take W rules a awaiting p r).2.2 = r' at *
  cases hg : r'.state.roots.get? root with
  | none =>
    unfold load
    rw [hg]
    exact Nat.zero_le _
  | some d' =>
    obtain ⟨d, hd, hf⟩ := hfate hg
    rw [load_of_get? hg, load_of_get? hd, sum_waits_take a.id r.state root, hpending]
    cases hf with
    | passed _ hc =>
      rw [hc]
      simp
    | broken e _ _ hc =>
      rw [hc]
      simp
    | grown block t hne hopen hphase hc =>
      obtain ⟨hs, hsize⟩ := h.small_of_phase hd hphase
      rw [hc]
      dsimp only
      rw [sum_load_children hs hsize hopen]
      simp only [List.filter_nil, List.map_nil, List.sum_nil, Nat.add_zero]
      rcases hphase with hp | ⟨hp, -⟩
      · rw [hp, Nat.add_comm]
      · -- all that the root waits for is taken out, and the bound on trees covers what is below
        rw [h.waits_take_eq_nil hd hp hne, hp]
        simp only [List.map_nil, List.sum_nil, Nat.zero_add, Nat.add_zero]
        refine List.sum_le_sum ?_
        intro ix hix
        exact burden_le hs (Join.lt_of_openBlock (hopen ix hix))

theorem sum_load_take (h : Books rules [] r.state) (ha : r.state.pending.get? a.id = some awaiting) (W : World ω)
    (p : Pass) :
    ((Pass.take W rules a awaiting p r).2.2.state.roots.keys.map
      (load (Pass.take W rules a awaiting p r).1.children (Pass.take W rules a awaiting p r).2.2.state)).sum ≤
      (r.state.roots.keys.map (load [] r.state)).sum := by
  rw [Pass.take_keys]
  exact List.sum_le_sum fun root _ => h.load_take_le ha W p root

end Judging

end Books

/-- Judging a block takes one round. -/
theorem Books.potential_take_lt {q : List Arrival} {w : List BlockId} {r : Run ω} {a : Arrival} {awaiting : Awaiting}
    (h : Books rules [] r.state) (ha : r.state.pending.get? a.id = some awaiting) (W : World ω) (p : Pass) :
    potential ⟨q, [], w, (Pass.take W rules a awaiting p r).1.children, (Pass.take W rules a awaiting p r).1.malformed⟩
      (Pass.take W rules a awaiting p r).2.2.state < potential ⟨a :: q, [], w, [], []⟩ r.state := by
  have := h.sum_load_take ha W p
  simp only [potential, List.length_cons]
  omega

/-- No step of a handler adds to the rounds that are left. -/
theorem Step.potential_le {σ σ' : Stage} {r r' : Run ω} (h : Books rules σ.owed r.state)
    (hs : Step W rules σ r σ' r') : potential σ' r'.state ≤ potential σ r.state := by
  cases hs with
  | logged | arranged | asked | announced | refused | fetched | settled | broke | spared | finished =>
    exact Nat.le_refl _
  | found | missed | discarded =>
    simp only [potential, Run.call_state, List.length_append, List.length_cons, List.length_nil]
    omega
  | judged a awaiting p ha => exact Nat.le_of_lt (h.potential_take_lt ha W p)
  | @expanded q w o r child d hd =>
    have hmem : child.root ∈ r.state.roots.keys := Table.mem_keys_of_get? hd
    have := Books.sum_load_await o hd hmem
    simp only [potential]
    rw [show (Pass.await child d r).state.roots.keys = r.state.roots.keys from Table.keys_insert_of_mem hmem _]
    split
    · simp only [List.length_nil]
      omega
    · simp only [List.length_cons, List.length_nil]
      omega
  | @orphaned q u w o m r child hn =>
    simp only [potential]
    rw [List.map_congr_left fun root _ => Books.load_cons_of_none o hn root]
  | @released q u w o m r root d hd =>
    have := Books.sum_load_dismiss o root d r
    simp only [potential]
    omega
  | @completed w r root d hd hc =>
    have := Books.sum_load_dismiss [] root d (mark W root r)
    rw [mark_state] at this
    simp only [potential]
    omega

theorem Leads.potential_le {σ σ' : Stage} {r r' : Run ω} (h : InOrder rules σ r)
    (hl : Leads W rules σ r σ' r') : potential σ' r'.state ≤ potential σ r.state := by
  induction hl with
  | refl => exact Nat.le_refl _
  | tail hl hs ih => exact (hs.potential_le (h.leads hl).books).trans ih

end BlockDag.Downloader
