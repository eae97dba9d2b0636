/-
Every handler is a course of steps that leaves nothing to do. So what holds initially and is kept by
openings and steps holds of all that a downloader does, over every history of events.

The handlers run with fuel. A failed fetch gives up at least one download, so asking again ends in
time; and the rounds of a pass are within its bound by what the awaited positions carry.
-/
import BlockDag.Proofs.Burden

namespace BlockDag.Downloader

variable {ω : Type} {W : World ω} {rules : Rules} {Delivers : Bytes → Prop} {world : ω}

/-- The trace only grows. -/
theorem Step.trace {σ σ' : Stage} {r r' : Run ω} (hs : Step W rules σ r σ' r') :
    Run.Adds (fun _ => True) r r' := by
  cases hs with
  | logged | broke | finished => exact .emit trivial
  | arranged | asked | refused | found | missed | discarded | orphaned | settled | spared => exact .refl rfl
  | announced => exact .trans (.refl rfl) (.emit trivial)
  | judged a awaiting p => exact (Pass.take_adds W rules a awaiting p _).mono fun _ _ => trivial
  | expanded child d => exact await_adds _ _ _ trivial
  | released root d => exact dismiss_adds _ _ _ trivial
  | fetched => exact .cons rfl trivial
  | completed root d => exact (mark_adds _ _ W trivial fun _ => trivial).trans (dismiss_adds _ _ _ trivial)

theorem Leads.mem_trace {σ σ' : Stage} {r r' : Run ω} (h : Leads W rules σ r σ' r') {m : Moment ω}
    (hm : m ∈ r.trace) : m ∈ r'.trace := by
  induction h with
  | refl => exact hm
  | tail _ hs ih => exact hs.trace.mem_of_mem ih

/-- No step puts a root in flight. -/
theorem Step.get?_eq_none {σ σ' : Stage} {r r' : Run ω} (hs : Step W rules σ r σ' r') {root : RootId}
    (hn : r.state.roots.get? root = none) : r'.state.roots.get? root = none := by
  have herase : ∀ (other : RootId), (r.state.roots.erase other).get? root = none := by
    intro other
    rw [Table.get?_erase]
    split
    · rfl
    · exact hn
  cases hs with
  | logged | arranged | asked | announced | refused | found | missed | discarded | orphaned | fetched | settled
  | broke | spared | finished => exact hn
  | judged a awaiting p ha =>
    rw [Table.get?_eq_none_iff, Pass.take_keys, ← Table.get?_eq_none_iff]
    exact hn
  | expanded child d hd =>
    rw [await_roots, Table.get?_insert, if_neg]
    · exact hn
    · rintro rfl
      rw [hn] at hd
      cases hd
  | released other d hd => exact herase other
  | completed other d hd =>
    rw [dismiss_roots, mark_state]
    exact herase other

theorem Leads.get?_eq_none {σ σ' : Stage} {r r' : Run ω} (h : Leads W rules σ r σ' r') {root : RootId}
    (hn : r.state.roots.get? root = none) : r'.state.roots.get? root = none := by
  induction h with
  | refl => exact hn
  | tail _ hs ih => exact hs.get?_eq_none ih

/-- A block is looked up: if the store has it, it is to be judged, and if not, to be asked for. -/
theorem Leads.lookup (W : World ω) (rules : Rules) (q : List Arrival) (u w : List BlockId) (o : List Child)
    (m : List (RootId × FormatError)) (id : BlockId) (r : Run ω) :
    match (r.call (W.view id)).1 with
    | .ok raw => Leads W rules ⟨q, id :: u, w, o, m⟩ r ⟨q ++ [⟨id, raw, false⟩], u, w, o, m⟩ (r.call (W.view id)).2
    | .error _ => Leads W rules ⟨q, id :: u, w, o, m⟩ r ⟨q, u, w ++ [id], o, m⟩ (r.call (W.view id)).2 := by
  rw [Run.call_fst]
  cases hv : (W.view id r.world).1 with
  | ok raw => exact .single (.found id raw hv)
  | error e => exact .single (.missed id e hv)

/-- No block is to be judged, to be looked up, or to be waited for. -/
structure Stage.Settled (σ : Stage) : Prop where
  queue : σ.queue = []
  unseen : σ.unseen = []
  owed : σ.owed = []

/-- Once that is so, it stays so. -/
theorem Step.settled_of_settled {σ σ' : Stage} {r r' : Run ω} (h : σ.Settled) (hs : Step W rules σ r σ' r') :
    σ'.Settled := by
  cases hs with
  | logged | arranged | asked | announced | refused | broke | finished => exact h
  | found | missed => cases h.unseen
  | discarded | judged => cases h.queue
  | expanded | orphaned => cases h.owed
  | fetched | settled | released | spared => exact ⟨h.queue, h.unseen, h.owed⟩
  | completed => exact ⟨rfl, rfl, rfl⟩

/-- What every step does from there on is done over any number of them. -/
theorem Leads.adds_of_settled {P : Moment ω → Prop} {σ σ' : Stage} {r r' : Run ω} (hσ : σ.Settled)
    (h : Leads W rules σ r σ' r') (hstep : ∀ {σ₁ r₁ σ₂ r₂}, Leads W rules σ r σ₁ r₁ → Stage.Settled σ₁ →
      Step W rules σ₁ r₁ σ₂ r₂ → Run.Adds P r₁ r₂) : Run.Adds P r r' := by
  have hboth : σ'.Settled ∧ Run.Adds P r r' := by
    induction h with
    | refl => exact ⟨hσ, .refl rfl⟩
    | tail hl hs ih => exact ⟨hs.settled_of_settled ih.1, ih.2.trans (hstep hl ih.1 hs)⟩
  exact hboth.2

/-! ## Ending downloads -/

section Release

variable {q : List Arrival} {u w : List BlockId} {o : List Child} {m : List (RootId × FormatError)}

/-- Arranging the blocks of a download that ended, and keeping those still waited for. -/
theorem leads_settle (r : Run ω) (xs : List BlockId) :
    Leads W rules ⟨q, u, w ++ xs, o, m⟩ r
      ⟨q, u, w ++ (W.arrange xs r.world).1.filter (fun id => decide (r.state.pending.Has id)), o, m⟩
      (r.call (W.arrange xs)).2 := by
  have hperm := W.arrange_perm xs r.world
  refine .head (.arranged xs) (.single (.settled _ ?_ ?_))
  · intro id hid hhas
    rcases List.mem_append.1 hid with hid | hid
    · exact List.mem_append_left _ hid
    · refine List.mem_append_right _ (List.mem_filter.2 ⟨hperm.mem_iff.2 hid, ?_⟩)
      simpa using hhas
  · exact (List.subperm_append_left w).2 (List.filter_sublist.subperm.trans hperm.subperm)

theorem release_leads (root : RootId) (r : Run ω) :
    Leads W rules ⟨q, u, w, o, m⟩ r ⟨q, u, w ++ (release W root r).1.getD [], o, m⟩ (release W root r).2 := by
  unfold release
  cases hd : r.state.roots.get? root with
  | none =>
    simp only [Option.getD_none, List.append_nil]
    exact .refl
  | some d => exact .head (.released root d hd) (leads_settle (dismiss root d r) _)

theorem release_state (root : RootId) (r : Run ω) :
    (r.state.roots.get? root = none ∧ (release W root r).2.state = r.state) ∨
    ∃ d, r.state.roots.get? root = some d ∧ (release W root r).2.state = (dismiss root d r).state := by
  unfold release
  cases hd : r.state.roots.get? root with
  | none => exact .inl ⟨rfl, rfl⟩
  | some d => exact .inr ⟨d, rfl, rfl⟩

theorem releaseAll_leads (roots : List RootId) (r : Run ω) :
    Leads W rules ⟨q, u, w, o, m⟩ r ⟨q, u, w ++ (releaseAll W roots r).1, o, m⟩ (releaseAll W roots r).2 := by
  induction roots generalizing w r with
  | nil =>
    simp only [releaseAll, List.append_nil]
    exact .refl
  | cons root roots ih =>
    rw [releaseAll]
    simp only [← List.append_assoc]
    exact (release_leads root r).trans (ih _)

/-- What ending some downloads leaves of the state. -/
structure Ended (roots : List RootId) (s s' : State) : Prop where
  gone : ∀ root ∈ roots, s'.roots.get? root = none
  out : ∀ root, s.roots.get? root = none → s'.roots.get? root = none
  positions : ∀ id root, s'.pending.positions id root ≠ [] → s.pending.positions id root ≠ []
  length_le : s'.roots.length ≤ s.roots.length
  length_lt : ∀ {root d}, s.roots.get? root = some d → s'.roots.get? root = none → s'.roots.length < s.roots.length

theorem dismiss_ended {root : RootId} {d : Download} {r : Run ω} (hd : r.state.roots.get? root = some d) :
    Ended [root] r.state (dismiss root d r).state := by
  have hlen : (r.state.roots.erase root).length < r.state.roots.length :=
    Table.length_erase_lt (Table.mem_keys_of_get? hd)
  refine ⟨?_, ?_, ?_, Nat.le_of_lt hlen, fun _ _ => hlen⟩
  · intro other ho
    rw [List.mem_singleton.1 ho, dismiss_roots, Table.get?_erase, if_pos rfl]
  · intro other ho
    rw [dismiss_roots, Table.get?_erase]
    split
    · rfl
    · exact ho
  · intro id other hne
    rw [dismiss_pending, PendingIndex.positions_removeRoot] at hne
    split at hne
    · exact absurd rfl hne
    · exact hne

theorem release_ended (root : RootId) (r : Run ω) : Ended [root] r.state (release W root r).2.state := by
  rcases release_state (W := W) root r with ⟨hn, hs⟩ | ⟨d, hd, hs⟩
  · rw [hs]
    refine ⟨?_, fun _ h => h, fun _ _ h => h, Nat.le_refl _, ?_⟩
    · intro other ho
      rw [List.mem_singleton.1 ho, hn]
    · intro other d hd ho
      rw [hd] at ho
      cases ho
  · rw [hs]
    exact dismiss_ended hd

theorem Ended.trans {roots roots' : List RootId} {s s' s'' : State} (h : Ended roots s s') (h' : Ended roots' s' s'') :
    Ended (roots ++ roots') s s'' := by
  refine ⟨?_, fun root hn => h'.out root (h.out root hn),
    fun id root hne => h.positions id root (h'.positions id root hne), h'.length_le.trans h.length_le, ?_⟩
  · intro root hm
    rcases List.mem_append.1 hm with hm | hm
    · exact h'.out root (h.gone root hm)
    · exact h'.gone root hm
  · intro root d hd hn
    cases hg : s'.roots.get? root with
    | none => exact Nat.lt_of_le_of_lt h'.length_le (h.length_lt hd hg)
    | some d' => exact Nat.lt_of_lt_of_le (h'.length_lt hg hn) h.length_le

theorem releaseAll_ended (roots : List RootId) (r : Run ω) : Ended roots r.state (releaseAll W roots r).2.state := by
  induction roots generalizing r with
  | nil =>
    refine ⟨by simp, fun _ h => h, fun _ _ h => h, Nat.le_refl _, ?_⟩
    intro root d hd hn
    rw [releaseAll, hd] at hn
    cases hn
  | cons root roots ih => exact (release_ended root r).trans (ih (release W root r).2)

end Release

/-! ## Asking for blocks -/

section Fetch

variable {q : List Arrival} {u w : List BlockId} {o : List Child} {m : List (RootId × FormatError)} {r : Run ω}

theorem mem_interested {pending : PendingIndex} (hw : pending.WF) {blocks : List BlockId} {root : RootId} :
    root ∈ interested pending blocks ↔ ∃ id ∈ blocks, pending.positions id root ≠ [] := by
  unfold interested
  rw [List.mem_eraseDups, List.mem_flatMap]
  refine exists_congr fun id => and_congr_right fun _ => ?_
  unfold PendingIndex.positions
  cases hg : pending.get? id with
  | none => simp [Table.keys, Awaiting.positions, Table.get?]
  | some awaiting =>
    have ha := hw id awaiting hg
    rw [Option.getD_some]
    constructor
    · intro hm
      obtain ⟨e, he, rfl⟩ := List.mem_map.1 hm
      rw [Awaiting.positions_of_mem ha he]
      exact ha.filled e he
    · intro hne
      by_contra hm
      rw [Awaiting.positions, Table.get?_eq_none_iff.2 hm] at hne
      exact hne rfl

/-- Who waits for one of the blocks is interested, and in flight. -/
theorem exists_interested {s : State} (hb : Books rules o s) {blocks : List BlockId} {id : BlockId} (hid : id ∈ blocks)
    (hp : s.pending.Has id) : ∃ root ∈ interested s.pending blocks, ∃ d, s.roots.get? root = some d := by
  obtain ⟨root, hpos⟩ := (PendingIndex.has_iff_positions hb.pending).1 hp
  obtain ⟨d, hd, -⟩ := hb.waiter hpos
  exact ⟨root, (mem_interested hb.pending).2 ⟨id, hid, hpos⟩, d, hd⟩

/-- Nobody waits for the blocks when the downloads of all that did have ended. -/
theorem Ended.not_has {roots : List RootId} {s s' : State} (h : Ended roots s s') (hw : s.pending.WF)
    (hb : Books rules o s') {blocks : List BlockId} (hroots : ∀ root ∈ interested s.pending blocks, root ∈ roots)
    {id : BlockId} (hid : id ∈ blocks) : ¬ s'.pending.Has id := by
  intro hp
  obtain ⟨root, hm, d, hd⟩ := exists_interested hb hid hp
  obtain ⟨j, hj, hpos⟩ := (mem_interested hb.pending).1 hm
  have hbefore := (mem_interested hw).2 ⟨j, hj, h.positions j root hpos⟩
  rw [h.gone root (hroots root hbefore)] at hd
  cases hd

/-- Blocks that nobody waits for need not be asked for. -/
theorem settle (gone : List BlockId) {left : List BlockId} (hgone : ∀ id ∈ gone, ¬ r.state.pending.Has id) :
    Step W rules ⟨q, u, gone ++ w ++ left, o, m⟩ r
      ⟨q, u, left.filter (fun id => decide (r.state.pending.Has id)) ++ w, o, m⟩ r := by
  refine .settled _ ?_ ?_
  · intro id hid hp
    rcases List.mem_append.1 hid with hid | hid
    · rcases List.mem_append.1 hid with hid | hid
      · exact absurd hp (hgone id hid)
      · exact List.mem_append_right _ hid
    · exact List.mem_append_left _ (List.mem_filter.2 ⟨hid, by simpa using hp⟩)
  · have hkept : (left.filter (fun id => decide (r.state.pending.Has id)) ++ w).Subperm (left ++ w) :=
      (List.subperm_append_right w).2 List.filter_sublist.subperm
    rw [List.append_assoc]
    exact hkept.trans (List.perm_append_comm.subperm.trans (List.sublist_append_right gone _).subperm)

/-- Asking for blocks leaves nothing of them to ask for, if there are fewer downloads than fuel. -/
theorem fetchWithin_leads (fuel : Nat) (blocks rest : List BlockId) (r : Run ω)
    (h : InOrder rules ⟨q, u, blocks ++ rest, o, m⟩ r)
    (hne : blocks ≠ []) (hhas : ∀ id ∈ blocks, r.state.pending.Has id) (hfuel : r.state.roots.length < fuel) :
    Leads W rules ⟨q, u, blocks ++ rest, o, m⟩ r ⟨q, u, rest, o, m⟩ (fetchWithin W fuel blocks r) := by
  induction fuel generalizing blocks r with
  | zero => omega
  | succ fuel ih =>
    rw [fetchWithin]
    have harr : Step W rules ⟨q, u, blocks ++ rest, o, m⟩ r ⟨q, u, blocks ++ rest, o, m⟩ _ :=
      .arranged (interested r.state.pending blocks)
    have hperm := W.arrange_perm (interested r.state.pending blocks) r.world
    rw [← Run.call_fst] at hperm
    have hstate := Run.call_state r (W.arrange (interested r.state.pending blocks))
    rcases hc₀ : r.call (W.arrange (interested r.state.pending blocks)) with ⟨roots, r₀⟩
    rw [hc₀] at harr hperm hstate
    dsimp only at harr hperm hstate ⊢
    rw [← hstate] at hhas hfuel hperm
    replace h := h.step harr
    refine .head harr ?_
    clear hstate harr
    have hb := h.books
    rcases hf : roots.findSome? fun root => r₀.state.roots.get? root with _ | d
    · -- somebody waits for the first of the blocks
      obtain ⟨id, hid⟩ := List.exists_mem_of_ne_nil _ hne
      obtain ⟨root, hmem, d, hd⟩ := exists_interested hb hid (hhas id hid)
      have := List.findSome?_eq_none_iff.1 hf root (hperm.mem_iff.2 hmem)
      rw [hd] at this
      cases this
    · obtain ⟨root, hmem, hd⟩ := List.exists_of_findSome?_eq_some hf
      -- accepted, the call settles `blocks`; refused, it leaves them to be asked for
      have hcall : ∀ left, (∀ id ∈ blocks ++ rest, id ∈ left ∨ id ∈ blocks ∧
          (W.fetch d.session (!decide (r₀.state.Cancelled d.session)) blocks r₀.world).1 = .ok ()) →
          ((W.fetch d.session (!decide (r₀.state.Cancelled d.session)) blocks r₀.world).1 = .ok () →
            (blocks ++ left).Subperm (blocks ++ rest)) →
          Step W rules ⟨q, u, blocks ++ rest, o, m⟩ r₀ ⟨q, u, left, o, m⟩ (r₀.fetch W d.session blocks).2 :=
        fun left => .fetched root d blocks left (hperm.mem_iff.1 hmem) hd hhas
      have hfst : (r₀.fetch W d.session blocks).1 =
        (W.fetch d.session (!decide (r₀.state.Cancelled d.session)) blocks r₀.world).1 := rfl
      have hstate := fetch_state r₀ W d.session blocks
      dsimp only
      rcases hc : r₀.fetch W d.session blocks with ⟨outcome, r₁⟩
      rw [hc] at hfst hstate hcall
      dsimp only at hfst hstate hcall
      cases outcome with
      | ok _ =>
        refine .single (hcall rest ?_ fun _ => .refl _)
        intro id hid
        rcases List.mem_append.1 hid with hid | hid
        · exact .inr ⟨hid, hfst.symm⟩
        · exact .inl hid
      | error e =>
        have hend := releaseAll_ended (W := W) roots (r₁.log (.fetchFailed blocks.length roots.length e))
        have hrefused : Step W rules ⟨q, u, blocks ++ rest, o, m⟩ r₀ ⟨q, u, blocks ++ rest, o, m⟩ r₁ := by
          refine hcall _ (fun id hid => .inl hid) ?_
          intro hok
          rw [← hfst] at hok
          cases hok
        have hlead := Leads.head hrefused
          (.head (.logged (.fetchFailed blocks.length roots.length e) id) (releaseAll_leads roots _))
        dsimp only
        rcases hc₂ : releaseAll W roots (r₁.log (.fetchFailed blocks.length roots.length e)) with ⟨left, r₂⟩
        rw [hc₂] at hend hlead
        rw [Run.log_state, hstate] at hend
        dsimp only at hlead hend ⊢
        have h₂ := h.leads hlead
        have hsettle : Step W rules ⟨q, u, blocks ++ rest ++ left, o, m⟩ r₂
            ⟨q, u, left.filter (fun id => decide (r₂.state.pending.Has id)) ++ rest, o, m⟩ r₂ :=
          settle blocks fun id => hend.not_has hb.pending h₂.books fun root hroot => hperm.mem_iff.2 hroot
        refine hlead.trans (.head hsettle ?_)
        split
        · next hempty =>
          rw [List.isEmpty_iff.1 hempty, List.nil_append]
          exact .refl
        · next hsome =>
          refine ih _ _ (h₂.step hsettle) (fun hnil => hsome (List.isEmpty_iff.2 hnil)) ?_ ?_
          · intro id hid
            simpa using (List.mem_filter.1 hid).2
          · -- the download that the call was made for has ended
            have := hend.length_lt hd (hend.gone root hmem)
            omega

theorem fetch_leads (blocks rest : List BlockId) (h : InOrder rules ⟨q, u, blocks ++ rest, o, m⟩ r)
    (hne : blocks ≠ []) (hhas : ∀ id ∈ blocks, r.state.pending.Has id) :
    Leads W rules ⟨q, u, blocks ++ rest, o, m⟩ r ⟨q, u, rest, o, m⟩ (fetch W blocks r) :=
  fetchWithin_leads _ blocks rest r h hne hhas (Nat.lt_succ_self _)

theorem refetch_leads {left : List BlockId} (h : InOrder rules ⟨q, u, w ++ left, o, m⟩ r) :
    Leads W rules ⟨q, u, w ++ left, o, m⟩ r ⟨q, u, w, o, m⟩ (refetch W left r) := by
  have hsettle : Step W rules ⟨q, u, w ++ left, o, m⟩ r
      ⟨q, u, left.filter (fun id => decide (r.state.pending.Has id)) ++ w, o, m⟩ r :=
    settle [] (by simp)
  refine .head hsettle ?_
  unfold refetch
  dsimp only
  split
  · next hempty =>
    rw [List.isEmpty_iff.1 hempty, List.nil_append]
    exact .refl
  · next hsome =>
    refine fetch_leads _ _ (h.step hsettle) (fun hnil => hsome (List.isEmpty_iff.2 hnil)) ?_
    intro id hid
    simpa using (List.mem_filter.1 hid).2

/-- Ending a download that is in flight asks again for what it leaves behind. -/
theorem free_of_get? {root : RootId} {d : Download} (hd : r.state.roots.get? root = some d) (W : World ω) :
    free W root r = (true, refetch W
      ((W.arrange d.descendants.toList r.world).1.filter fun id => decide ((dismiss root d r).state.pending.Has id))
      ((dismiss root d r).call (W.arrange d.descendants.toList)).2) := by
  unfold free release
  rw [hd]
  rfl

/-- Ending a download leaves as much to do as before, and the root out of flight. -/
theorem free_leads (h : InOrder rules ⟨q, u, w, o, m⟩ r) (root : RootId) :
    Leads W rules ⟨q, u, w, o, m⟩ r ⟨q, u, w, o, m⟩ (free W root r).2 ∧
      (free W root r).2.state.roots.get? root = none := by
  have hrel : Leads W rules ⟨q, u, w, o, m⟩ r ⟨q, u, w ++ (release W root r).1.getD [], o, m⟩ (release W root r).2 :=
    release_leads root r
  have hstate := release_state (W := W) root r
  unfold free
  rcases hc : release W root r with ⟨answer, r'⟩
  rw [hc] at hrel hstate
  cases answer with
  | none =>
    rw [Option.getD_none, List.append_nil] at hrel
    refine ⟨hrel, ?_⟩
    rcases hstate with ⟨hn, hs⟩ | ⟨d, hd, -⟩
    · rw [← hn]
      exact congrArg (fun s => s.roots.get? root) hs
    · unfold release at hc
      rw [hd] at hc
      cases hc
  | some left =>
    rw [Option.getD_some] at hrel
    have hre := refetch_leads (W := W) (h.leads hrel)
    refine ⟨hrel.trans hre, hre.get?_eq_none ?_⟩
    rcases hstate with ⟨hn, hs⟩ | ⟨d, hd, hs⟩
    · rw [← hn]
      exact congrArg (fun s => s.roots.get? root) hs
    · have : r'.state.roots = r.state.roots.erase root := congrArg State.roots hs
      rw [this, Table.get?_erase, if_pos rfl]

end Fetch

/-! ## Judging a block -/

section Handle

variable {w : List BlockId} {o : List Child} {m : List (RootId × FormatError)} {p : Pass} {r : Run ω}

/-- Giving up malformed roots takes all of them out of flight. -/
theorem abandonAll_leads {q : List Arrival} {u : List BlockId} (h : InOrder rules ⟨q, u, w, o, m⟩ r)
    (id : BlockId) {doomed : List (RootId × FormatError)} (hsub : ∀ x ∈ doomed, x ∈ m) :
    Leads W rules ⟨q, u, w, o, m⟩ r ⟨q, u, w, o, m⟩ (Pass.abandonAll W id doomed r) ∧
      ∀ x ∈ doomed, (Pass.abandonAll W id doomed r).state.roots.get? x.1 = none := by
  induction doomed generalizing r with
  | nil => exact ⟨.refl, by simp⟩
  | cons x doomed ih =>
    obtain ⟨root, e⟩ := x
    have hlog : Step W rules ⟨q, u, w, o, m⟩ r ⟨q, u, w, o, m⟩ (r.log (.malformed root id e)) :=
      .logged _ not_false
    have hfree := free_leads (W := W) (h.step hlog) root
    rw [Pass.abandonAll]
    rcases hc : free W root (r.log (.malformed root id e)) with ⟨inFlight, r₁⟩
    rw [hc] at hfree
    dsimp only at hfree ⊢
    have hnotify : Leads W rules ⟨q, u, w, o, m⟩ r₁ ⟨q, u, w, o, m⟩
        (if inFlight then r₁.notify (.broken root) else r₁) := by
      split
      · exact .single (.broke root e (hsub _ List.mem_cons_self))
      · exact .refl
    have hlead := Leads.head hlog (hfree.1.trans hnotify)
    obtain ⟨hrest, hgone⟩ := ih (h.leads hlead) fun y hy => hsub y (List.mem_cons_of_mem _ hy)
    refine ⟨hlead.trans hrest, ?_⟩
    intro y hy
    rcases List.mem_cons.1 hy with rfl | hy
    · exact (hnotify.trans hrest).get?_eq_none hfree.2
    · exact hgone y hy

theorem expand_leads (child : Child) (p : Pass) (r : Run ω) :
    Leads W rules ⟨p.queue, [], p.wanted, child :: o, []⟩ r
      ⟨(Pass.expand W child p r).1.queue, [], (Pass.expand W child p r).1.wanted, o, []⟩
      (Pass.expand W child p r).2 := by
  unfold Pass.expand
  cases hd : r.state.roots.get? child.root with
  | none => exact .single (.orphaned child hd)
  | some d =>
    have hstep : Step W rules ⟨p.queue, [], p.wanted, child :: o, []⟩ r _ _ := .expanded child d hd
    refine .head hstep ?_
    dsimp only
    by_cases hw : r.state.pending.Has child.id
    · simp only [hw, decide_true, if_true]
      exact .refl
    · simp only [hw, decide_false, if_false, Bool.false_eq_true]
      have hlooked := Leads.lookup W rules p.queue [] p.wanted o [] child.id (Pass.await child d r)
      rcases hc : (Pass.await child d r).call (W.view child.id) with ⟨outcome, r₁⟩
      rw [hc] at hlooked
      rcases outcome with (e | raw)
      · cases e with
        | notFound id => exact hlooked
        | statusConflict | backend => exact hlooked.trans (.single (.logged _ not_false))
      · exact hlooked

theorem expandAll_leads (children : List Child) (p : Pass) (r : Run ω) :
    Leads W rules ⟨p.queue, [], p.wanted, children, []⟩ r
      ⟨(Pass.expandAll W children p r).1.queue, [], (Pass.expandAll W children p r).1.wanted, [], []⟩
      (Pass.expandAll W children p r).2 := by
  induction children generalizing p r with
  | nil => exact .refl
  | cons child children ih => exact (expand_leads child p r).trans (ih _ _)

theorem resolveAll_pass (awaiting : Awaiting) (p : Pass) (r : Run ω) :
    (Pass.resolveAll awaiting p r).1.queue = p.queue ∧ (Pass.resolveAll awaiting p r).1.wanted = p.wanted := by
  have htouch : ∀ (p : Pass) (root : RootId), (p.touch root).queue = p.queue ∧ (p.touch root).wanted = p.wanted := by
    intro p root
    unfold Pass.touch
    split <;> exact ⟨rfl, rfl⟩
  induction awaiting generalizing p r with
  | nil => exact ⟨rfl, rfl⟩
  | cons e awaiting ih =>
    obtain ⟨root, positions⟩ := e
    rw [Pass.resolveAll]
    split
    · exact ih p r
    · obtain ⟨hq, hw⟩ := ih (p.touch root) _
      exact ⟨hq.trans (htouch p root).1, hw.trans (htouch p root).2⟩

/-- What is left to do of an awaited block that was judged leads to what the pass has still to do. -/
theorem handle_leads_after {q : List Arrival} {a : Arrival} {awaiting : Awaiting}
    (h : InOrder rules ⟨a :: q, [], p.wanted, [], []⟩ r) (hq : p.queue = q)
    (ha : r.state.pending.get? a.id = some awaiting) {p' : Pass} {r' : Run ω}
    (hr : Pass.handle W rules a awaiting p (r.setPending (r.state.pending.without a.id)) = (p', r')) :
    Leads W rules
      ⟨q, [], p.wanted, (Pass.take W rules a awaiting p r).1.children, (Pass.take W rules a awaiting p r).1.malformed⟩
      (Pass.take W rules a awaiting p r).2.2 ⟨p'.queue, [], p'.wanted, [], []⟩ r' := by
  have hjudged : Step W rules ⟨a :: q, [], p.wanted, [], []⟩ r _ _ := .judged a awaiting p ha
  have hpass : (Pass.take W rules a awaiting p r).2.1.queue = q ∧
      (Pass.take W rules a awaiting p r).2.1.wanted = p.wanted := by
    rw [← hq]
    exact resolveAll_pass _ _ _
  unfold Pass.handle at hr
  rcases hc : Pass.take W rules a awaiting p r with ⟨verdict, p₁, r₁⟩
  rw [hc] at hjudged hpass
  rw [Pass.take] at hc
  rw [hc] at hr
  dsimp only at hjudged hpass hr
  have h₁ := h.step hjudged
  have harr : Step W rules ⟨q, [], p.wanted, verdict.children, verdict.malformed⟩ r₁ _ _ := .arranged verdict.malformed
  have hperm := W.arrange_perm verdict.malformed r₁.world
  rw [← Run.call_fst] at hperm
  rcases hc₂ : r₁.call (W.arrange verdict.malformed) with ⟨doomed, r₂⟩
  rw [hc₂] at harr hperm hr
  dsimp only at harr hperm hr
  obtain ⟨habandon, hgone⟩ := abandonAll_leads (h₁.step harr) a.id fun x hx => hperm.mem_iff.1 hx
  have hspared : Step W rules ⟨q, [], p.wanted, verdict.children, verdict.malformed⟩ (Pass.abandonAll W a.id doomed r₂)
      ⟨q, [], p.wanted, verdict.children, []⟩ (Pass.abandonAll W a.id doomed r₂) := by
    refine .spared ?_
    intro x hx hin
    have := hgone x (hperm.mem_iff.2 hx)
    rw [State.InFlight, Table.has_iff_get?, this] at hin
    cases hin
  -- the pass goes on with what it had, which judging and giving up did not touch
  have hexpand : Leads W rules ⟨p₁.queue, [], p₁.wanted, verdict.children, []⟩ (Pass.abandonAll W a.id doomed r₂) _ _ :=
    expandAll_leads verdict.children p₁ _
  rw [hpass.1, hpass.2, hr] at hexpand
  exact .head harr (habandon.trans (.head hspared hexpand))

/-- Handling an awaited block leads to what the pass has still to do, in fewer rounds. -/
theorem handle_leads {q : List Arrival} {a : Arrival} {awaiting : Awaiting}
    (h : InOrder rules ⟨a :: q, [], p.wanted, [], []⟩ r) (hq : p.queue = q)
    (ha : r.state.pending.get? a.id = some awaiting) {p' : Pass} {r' : Run ω}
    (hr : Pass.handle W rules a awaiting p (r.setPending (r.state.pending.without a.id)) = (p', r')) :
    Leads W rules ⟨a :: q, [], p.wanted, [], []⟩ r ⟨p'.queue, [], p'.wanted, [], []⟩ r' ∧
      potential ⟨p'.queue, [], p'.wanted, [], []⟩ r'.state < potential ⟨a :: q, [], p.wanted, [], []⟩ r.state := by
  have hjudged : Step W rules ⟨a :: q, [], p.wanted, [], []⟩ r _ _ := .judged a awaiting p ha
  have hlead := handle_leads_after h hq ha hr
  refine ⟨.head hjudged hlead, ?_⟩
  exact Nat.lt_of_le_of_lt (hlead.potential_le (h.step hjudged)) (h.books.potential_take_lt ha W p)

/-- A round drops the next block, or handles it for those that await it. -/
theorem next_cases {p' : Pass} {r' : Run ω} (hn : Pass.next W rules p r = some (p', r')) :
    ∃ a queue, p.queue = a :: queue ∧ ((¬ r.state.pending.Has a.id ∧ p' = { p with queue } ∧ r' = r) ∨
      ∃ awaiting, r.state.pending.get? a.id = some awaiting ∧
        Pass.handle W rules a awaiting { p with queue } (r.setPending (r.state.pending.without a.id)) = (p', r')) := by
  unfold Pass.next at hn
  split at hn
  · cases hn
  · next a queue hq =>
    refine ⟨a, queue, hq, ?_⟩
    dsimp only at hn
    cases hg : r.state.pending.get? a.id with
    | none =>
      have hnot : ¬ r.state.pending.Has a.id := by
        rw [PendingIndex.has_iff_get?, hg]
        simp
      rw [PendingIndex.take_of_not_has hnot] at hn
      cases hn
      exact .inl ⟨hnot, rfl, rfl⟩
    | some awaiting =>
      rw [PendingIndex.take_of_get? hg] at hn
      exact .inr ⟨awaiting, rfl, Option.some.inj hn⟩

/-- A round leads to what the pass has still to do, in fewer rounds. -/
theorem next_leads (h : InOrder rules ⟨p.queue, [], p.wanted, [], []⟩ r) {p' : Pass} {r' : Run ω}
    (hn : Pass.next W rules p r = some (p', r')) :
    Leads W rules ⟨p.queue, [], p.wanted, [], []⟩ r ⟨p'.queue, [], p'.wanted, [], []⟩ r' ∧
      potential ⟨p'.queue, [], p'.wanted, [], []⟩ r'.state < potential ⟨p.queue, [], p.wanted, [], []⟩ r.state := by
  obtain ⟨a, queue, hq, ⟨hnot, rfl, rfl⟩ | ⟨awaiting, ha, hh⟩⟩ := next_cases hn
  · rw [hq]
    refine ⟨.single (.discarded a hnot), ?_⟩
    simp only [potential, List.length_cons]
    omega
  · rw [hq] at h ⊢
    exact handle_leads (p := { p with queue }) h rfl ha hh

/-- Enough rounds leave no block to be judged. -/
theorem rounds_leads (fuel : Nat) (p : Pass) (r : Run ω)
    (h : InOrder rules ⟨p.queue, [], p.wanted, [], []⟩ r)
    (hfuel : potential ⟨p.queue, [], p.wanted, [], []⟩ r.state ≤ fuel) :
    Leads W rules ⟨p.queue, [], p.wanted, [], []⟩ r ⟨[], [], (p.rounds W rules fuel r).1.wanted, [], []⟩
      (p.rounds W rules fuel r).2 := by
  induction fuel generalizing p r with
  | zero =>
    have hq : p.queue = [] := by
      simp only [potential] at hfuel
      exact List.length_eq_zero_iff.1 (by omega)
    rw [hq, Pass.rounds]
    exact .refl
  | succ fuel ih =>
    rw [Pass.rounds]
    cases hn : Pass.next W rules p r with
    | none =>
      have hq : p.queue = [] := by
        unfold Pass.next at hn
        split at hn
        · next hq => exact hq
        · split at hn <;> cases hn
      rw [hq]
      exact .refl
    | some next =>
      obtain ⟨p', r'⟩ := next
      obtain ⟨hlead, hlt⟩ := next_leads h hn
      exact hlead.trans (ih p' r' (h.leads hlead) (by omega))

end Handle

/-! ## The end of a pass -/

section Finish

variable {r : Run ω}

theorem complete_leads (h : InOrder rules .idle r) {root : RootId} {d : Download}
    (hd : r.state.roots.get? root = some d) (hc : d.Complete) :
    Leads W rules .idle r .idle (complete W root r) := by
  have hstep : Step W rules .idle r ⟨[], [], [] ++ d.descendants.toList, [], []⟩ (dismiss root d (mark W root r)) :=
    .completed root d hd hc
  have hsettle : Leads W rules ⟨[], [], [] ++ d.descendants.toList, [], []⟩ (dismiss root d (mark W root r)) _ _ :=
    leads_settle _ _
  have hlead := Leads.head hstep hsettle
  have hre := refetch_leads (W := W) (h.leads hlead)
  have hmarked : ∃ m ∈ (dismiss root d (mark W root r)).trace, ∃ outcome, m.effect = .marked root outcome := by
    obtain ⟨new, hn, -⟩ := mark_trace root r W
    refine ⟨⟨.marked root (W.setStatus root .full r.world).1, (mark W root r).world, r.state⟩,
      List.mem_cons_of_mem _ ?_, _, rfl⟩
    rw [hn]
    exact List.mem_append_right _ List.mem_cons_self
  -- the root is still in flight when it is freed
  rw [← mark_state root r W] at hd
  unfold complete
  rw [free_of_get? hd W]
  refine hlead.trans (hre.trans (.head (.logged (.completed root) not_false) (.single (.finished root ?_))))
  obtain ⟨m, hm, ho⟩ := hmarked
  exact ⟨m, List.mem_cons_of_mem _ ((hsettle.trans hre).mem_trace hm), ho⟩

theorem completeAll_leads {roots : List RootId} (h : InOrder rules .idle r) :
    Leads W rules .idle r .idle (Pass.completeAll W roots r) := by
  induction roots generalizing r with
  | nil => exact .refl
  | cons root roots ih =>
    rw [Pass.completeAll]
    cases hd : r.state.roots.get? root with
    | none => exact ih h
    | some d =>
      have hlead : Leads W rules .idle r .idle (if d.Complete then complete W root r else r) := by
        split
        · next hc => exact complete_leads h hd hc
        · exact .refl
      exact hlead.trans (ih (h.leads hlead))

theorem finish_leads {p : Pass} (h : InOrder rules ⟨[], [], p.wanted, [], []⟩ r) :
    Leads W rules ⟨[], [], p.wanted, [], []⟩ r .idle (p.finish W r) := by
  have hask := refetch_leads (W := W) (w := []) h
  have hcall : Step W rules .idle (refetch W p.wanted r) .idle ((refetch W p.wanted r).call (W.arrange p.touched)).2 :=
    .arranged p.touched
  exact hask.trans (.head hcall (completeAll_leads ((h.leads hask).step hcall)))

/-- A pass over a block leaves nothing to do. -/
theorem process_leads {a : Arrival} (h : InOrder rules ⟨[a], [], [], [], []⟩ r) :
    Leads W rules ⟨[a], [], [], [], []⟩ r .idle (process W rules a r) := by
  have hfuel : potential ⟨[a], [], [], [], []⟩ r.state ≤ Pass.roundBound r.state :=
    h.books.potential_le (Nat.le_refl 1)
  have hrounds := rounds_leads (W := W) (Pass.roundBound r.state) (Pass.start a) r h hfuel
  exact hrounds.trans (finish_leads (h.leads hrounds))

end Finish

/-! ## Events -/

section Events

variable {r : Run ω}

/-- Looking up the root of a download that was just put in flight. -/
theorem request_leads {root : RootId} (h : InOrder rules ⟨[], [root], [], [], []⟩ r)
    (hp : r.state.pending.Has root) : Leads W rules ⟨[], [root], [], [], []⟩ r .idle (request W rules root r) := by
  have hlooked := Leads.lookup W rules [] [] [] [] [] root r
  have hstate := Run.call_state r (W.view root)
  unfold request
  rcases hc : r.call (W.view root) with ⟨outcome, r₁⟩
  rw [hc] at hlooked hstate
  dsimp only at hlooked hstate
  have hhas : ∀ id ∈ [root], r₁.state.pending.Has id := by
    intro id hid
    rw [List.mem_singleton.1 hid, hstate]
    exact hp
  have hlogged : ∀ e, Step W rules ⟨[], [], [root], [], []⟩ r₁ ⟨[], [], [root], [], []⟩
      (r₁.log (.lookupFailed root e)) := fun _ => .logged _ not_false
  rcases outcome with (e | raw)
  · cases e with
    | notFound id => exact hlooked.trans (fetch_leads [root] [] (h.leads hlooked) (List.cons_ne_nil _ _) hhas)
    | statusConflict | backend =>
      exact hlooked.trans (.head (hlogged _)
        (fetch_leads [root] [] ((h.leads hlooked).step (hlogged _)) (List.cons_ne_nil _ _) hhas))
  · exact hlooked.trans (process_leads (h.leads hlooked))

theorem decline_leads (root : RootId) (r : Run ω) : Leads W rules .idle r .idle (decline W root r) := by
  have hasked : Step W rules .idle r .idle (r.call (W.getStatus root)).2 := .asked root
  have hannounced : (W.getStatus root r.world).1 = .ok (some .full) → Step W rules .idle r .idle _ := .announced root
  rw [← Run.call_fst] at hannounced
  unfold decline
  rcases hc : r.call (W.getStatus root) with ⟨outcome, r₁⟩
  rw [hc] at hasked hannounced
  rcases outcome with (e | _ | _ | _)
  · exact .head hasked (.single (.logged _ not_false))
  · exact .single hasked
  · exact .single hasked
  · exact .single (hannounced rfl)

/-- A kind without limits is no alarm. -/
theorem timeLimit_calm (rules : Rules) (root : RootId) (tag : DataTag) :
    ∀ entry ∈ (timeLimit rules root tag).1, ¬ entry.Alarm := by
  intro entry he
  unfold timeLimit at he
  split at he
  · cases he
  · rw [List.mem_singleton.1 he]
    exact not_false

/-- The pass that an event begins with, if it is one: over a block that is delivered under its name, or
over the block of a root that goes in flight, where the store has it and nobody waits for it yet. -/
inductive Begins (W : World ω) (rules : Rules) : Event → Run ω → Arrival → Run ω → Prop
  | delivered (id : BlockId) (raw : Bytes) (r : Run ω) : id.Names raw →
      Begins W rules (.delivered id raw) r ⟨id, raw, true⟩ r
  | found (root : RootId) (tag : DataTag) (entries : List LogEntry) (timeout : Nat) (raw : Bytes) (r r₁ r₂ : Run ω) :
      ¬ r.state.InFlight root → timeLimit rules root tag = (entries, timeout) →
      (r.logAll entries).call (W.setStatus root .part) = (.ok (), r₁) → ¬ r₁.state.pending.Has root →
      (launch root tag timeout r₁).call (W.view root) = (.ok raw, r₂) →
      Begins W rules (.kickoff root tag) r ⟨root, raw, false⟩ r₂

/-- Something that is done before blocks are judged or asked for, or downloads end. -/
def Moment.Early (m : Moment ω) : Prop :=
  (∃ entry, m.effect = .logged entry) ∨ (∃ update, m.effect = .notified update) ∨
    (∃ session root timeout, m.effect = .opened session root timeout) ∨
      ∃ root id position, m.effect = .awaited root id position

/-- What handling an event comes to: it begins a pass, or asks for a root that was put in flight, or gives
up a download, or none of these. -/
inductive Response (W : World ω) (rules : Rules) (Delivers : Bytes → Prop) (event : Event) (r : Run ω) : Run ω → Prop
  | pass {a r₁} : Begins W rules event r a r₁ → Proceeds W rules Delivers r ⟨[a], [], [], [], []⟩ r₁ →
      Run.Adds Moment.Early r r₁ → Response W rules Delivers event r (process W rules a r₁)
  | asks {root r₁} : Proceeds W rules Delivers r ⟨[], [], [root], [], []⟩ r₁ → r₁.state.pending.Has root →
      Run.Adds Moment.Early r r₁ → Run.Shows (fun m => m.effect = .awaited root root 0) r r₁ →
      Response W rules Delivers event r (fetch W [root] r₁)
  | frees {r₁} (root : RootId) : Proceeds W rules Delivers r .idle r₁ → Run.Adds Moment.Early r r₁ →
      Response W rules Delivers event r (free W root r₁).2
  | rests {r'} : Proceeds W rules Delivers r .idle r' → Run.Adds Moment.Early r r' →
      Response W rules Delivers event r r'

theorem launch_early (root : RootId) (tag : DataTag) (timeout : Nat) (r : Run ω) :
    Run.Adds Moment.Early r (launch root tag timeout r) := by
  refine ⟨_, launch_trace _ _ _ _, ?_⟩
  simp [Moment.Early]

theorem decline_early (root : RootId) (r : Run ω) : Run.Adds Moment.Early r (decline W root r) := by
  have hasked : Run.Adds Moment.Early r (r.call (W.getStatus root)).2 := .refl rfl
  unfold decline
  rcases hc : r.call (W.getStatus root) with ⟨outcome, r₁⟩
  rw [hc] at hasked
  rcases outcome with (e | _ | _ | _)
  · exact hasked.trans (.emit (.inl ⟨_, rfl⟩))
  · exact hasked
  · exact hasked
  · exact hasked.trans (.emit (.inr (.inl ⟨_, rfl⟩)))

/-- A root that was put in flight is looked up. -/
theorem request_response {event : Event} {r₁ : Run ω} {root : RootId}
    (h : Proceeds W rules Delivers r ⟨[], [root], [], [], []⟩ r₁) (hp : r₁.state.pending.Has root)
    (hearly : Run.Adds Moment.Early r r₁) (hawaited : Run.Shows (fun m => m.effect = .awaited root root 0) r r₁)
    (hbegins : ∀ raw r₂, r₁.call (W.view root) = (.ok raw, r₂) → Begins W rules event r ⟨root, raw, false⟩ r₂) :
    Response W rules Delivers event r (request W rules root r₁) := by
  have hlooked := Leads.lookup W rules [] [] [] [] [] root r₁
  have hstate := Run.call_state r₁ (W.view root)
  have hcall : Run.Adds Moment.Early r₁ (r₁.call (W.view root)).2 := .refl rfl
  unfold request
  rcases hc : r₁.call (W.view root) with ⟨outcome, r₂⟩
  rw [hc] at hlooked hstate hcall
  dsimp only at hlooked hstate hcall
  rw [← hstate] at hp
  rcases outcome with (e | raw)
  · have hlogged : Step W rules ⟨[], [], [root], [], []⟩ r₂ ⟨[], [], [root], [], []⟩ (r₂.log (.lookupFailed root e)) :=
      .logged _ not_false
    have hfailed : Run.Adds Moment.Early r₁ (r₂.log (.lookupFailed root e)) := hcall.trans (.emit (.inl ⟨_, rfl⟩))
    cases e with
    | notFound id => exact .asks (h.more hlooked) hp (hearly.trans hcall) (hawaited.later hcall)
    | statusConflict | backend =>
      exact .asks ((h.more hlooked).step hlogged) hp (hearly.trans hfailed) (hawaited.later hfailed)
  · exact .pass (hbegins raw r₂ hc) (h.more hlooked) (hearly.trans hcall)

theorem kickoff_response (W : World ω) (rules : Rules) (Delivers : Bytes → Prop) (root : RootId) (tag : DataTag)
    (r : Run ω) : Response W rules Delivers (.kickoff root tag) r (kickoff W rules root tag r) := by
  unfold kickoff
  split
  · exact .rests (.leads .refl) (.refl rfl)
  · next hfree =>
    rcases htime : timeLimit rules root tag with ⟨entries, timeout⟩
    have hcalm := timeLimit_calm rules root tag
    rw [htime] at hcalm
    have hlogged : Leads W rules .idle r .idle (r.logAll entries) := .logAll .idle r hcalm
    have hearly : Run.Adds Moment.Early r (r.logAll entries) := .logAll entries fun entry => .inl ⟨entry, rfl⟩
    have hfree₀ : ¬ (r.logAll entries).state.InFlight root := by
      rw [Run.logAll_state]
      exact hfree
    have hrefused : ∀ e, (W.setStatus root .part (r.logAll entries).world).1 = .error e →
        Step W rules .idle (r.logAll entries) .idle _ := fun e => .refused root e
    have hlaunched : (W.setStatus root .part (r.logAll entries).world).1 = .ok () →
        Opening W Delivers (r.logAll entries) _ _ := .launched root tag timeout hfree₀
    have hstate := Run.call_state (r.logAll entries) (W.setStatus root .part)
    have hcalled : Run.Adds Moment.Early r ((r.logAll entries).call (W.setStatus root .part)).2 :=
      hearly.trans (.refl rfl)
    rw [← Run.call_fst] at hrefused hlaunched
    dsimp only
    rcases hc : (r.logAll entries).call (W.setStatus root .part) with ⟨outcome, r₁⟩
    rw [hc] at hrefused hlaunched hstate hcalled
    dsimp only at hrefused hlaunched hstate hcalled ⊢
    rw [← hstate] at hlaunched
    cases outcome with
    | error e =>
      exact .rests (.leads (hlogged.trans (.head (hrefused e rfl) (decline_leads root r₁))))
        (hcalled.trans (decline_early root r₁))
    | ok _ =>
      have h₁ := Proceeds.opened hlogged (hlaunched rfl) .refl
      have hearly₁ := hcalled.trans (launch_early root tag timeout r₁)
      by_cases hw : r₁.state.pending.Has root
      · simp only [hw, decide_true, if_true] at h₁ ⊢
        exact .rests h₁ hearly₁
      · simp only [hw, decide_false, if_false, Bool.false_eq_true] at h₁ ⊢
        refine request_response h₁ ?_ hearly₁ (.earlier hcalled ⟨_, launch_trace _ _ _ _, ?_⟩) ?_
        · rw [launch_pending, PendingIndex.has_insert]
          exact .inl rfl
        · simp
        · exact fun raw r₂ hview => .found root tag entries timeout raw r r₁ r₂ hfree htime hc hw hview

/-- Handling an event comes to one of four things, whatever the state. -/
theorem handle_response (W : World ω) (rules : Rules) (event : Event) (r : Run ω)
    (hdeliver : ∀ {id raw}, event = .delivered id raw → Delivers raw) :
    Response W rules Delivers event r (handle W rules event r) := by
  have hlogged : ∀ {entry : LogEntry}, ¬ entry.Alarm → Proceeds W rules Delivers r .idle (r.log entry) :=
    fun hcalm => .leads (.single (.logged _ hcalm))
  have hearly : ∀ {entry : LogEntry}, Run.Adds Moment.Early r (r.log entry) := .emit (.inl ⟨_, rfl⟩)
  cases event with
  | kickoff root tag => exact kickoff_response W rules Delivers root tag r
  | delivered id raw =>
    rw [handle, deliver]
    split
    · next hn =>
      have hopened : Opening W Delivers r ⟨[⟨id, raw, true⟩], [], [], [], []⟩ r := .delivered id raw hn (hdeliver rfl)
      exact .pass (.delivered id raw r hn) (.opened .refl hopened .refl) (.refl rfl)
    · exact .rests (hlogged not_false) hearly
  | deadline root session =>
    rw [handle, expire]
    split
    · exact .rests (.leads .refl) (.refl rfl)
    · split
      · exact .frees root (hlogged not_false) hearly
      · exact .rests (.leads .refl) (.refl rfl)

/-- An event is handled in steps, and leaves nothing to do. -/
theorem Response.proceeds {event : Event} {r' : Run ω} (h : Response W rules Delivers event r r')
    (hin : InOrder rules .idle r) : Proceeds W rules Delivers r .idle r' := by
  cases h with
  | pass _ hp => exact hp.more (process_leads (hin.proceeds hp))
  | @asks root r₁ hp hhas =>
    refine hp.more (fetch_leads [root] [] (hin.proceeds hp) (List.cons_ne_nil _ _) ?_)
    intro id hid
    rw [List.mem_singleton.1 hid]
    exact hhas
  | frees root hp => exact hp.more (free_leads (hin.proceeds hp) root).1
  | rests hp => exact hp

/-- Handling an event, the downloader goes its course, and leaves nothing to do. -/
theorem handle_reached (h : Reached W rules Delivers world .idle r) {event : Event}
    (hdeliver : ∀ {id raw}, event = .delivered id raw → Delivers raw) :
    Reached W rules Delivers world .idle (handle W rules event r) :=
  h.proceeds ((handle_response W rules event r hdeliver).proceeds h.inOrder)

theorem play_reached (h : Reached W rules Delivers world .idle r) {events : List Event}
    (hdeliver : ∀ {id raw}, .delivered id raw ∈ events → Delivers raw) :
    Reached W rules Delivers world .idle (play W rules events r) := by
  induction events generalizing r with
  | nil => exact h
  | cons event events ih =>
    refine ih (handle_reached h ?_) fun hm => hdeliver (List.mem_cons_of_mem _ hm)
    rintro id raw rfl
    exact hdeliver List.mem_cons_self

end Events

/-- The bytes that the network delivers in the course of `events`. -/
def DeliveredIn (events : List Event) (raw : Bytes) : Prop := ∃ id, .delivered id raw ∈ events

/-- Whatever the events are, the downloader goes its course. -/
theorem history_reached (W : World ω) (rules : Rules) (events : List Event) (world : ω) :
    Reached W rules (DeliveredIn events) world .idle (history W rules events world) :=
  play_reached .start fun hm => ⟨_, hm⟩

end BlockDag.Downloader
