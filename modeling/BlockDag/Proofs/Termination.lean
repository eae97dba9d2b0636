/-
Handling an event ends. The model bounds how often a failed call for blocks leads to another one, and
how many rounds a pass takes. Here both recursions stand without a bound, and the handlers do what
they do: failed calls nest at most once for each root in flight, and a pass takes at most as many
entries out of the index as there are positions in the trees of the roots that await its first block.
The store and the network may answer anything, each time anew: nothing is assumed of the bytes but
that positions grow along links and stay below what the header of the tree declares.
-/
import BlockDag.Proofs.Lifecycle
import BlockDag.Proofs.Restart

namespace BlockDag.Downloader

variable {ω : Type} {W : World ω} {rules : Rules} {Delivers : Bytes → Prop} {world : ω}
variable {σ σ' : Stage} {r r' : Run ω} {root : RootId}

/-! ## Asking for blocks -/

/-- Asking for blocks, with `n` calls that are refused, each one in handling the one before. -/
inductive Asks (W : World ω) : (n : Nat) → (blocks : List BlockId) → Run ω → Run ω → Prop
  | nobody {blocks : List BlockId} {r r₀ : Run ω} {roots : List RootId} :
      r.call (W.arrange (interested r.state.pending blocks)) = (roots, r₀) →
      (roots.findSome? fun root => r₀.state.roots.get? root) = none →
      Asks W 0 blocks r (r₀.log (.nobodyToFetchFor blocks.length))
  | accepted {blocks : List BlockId} {r r₀ r₁ : Run ω} {roots : List RootId} {d : Download} :
      r.call (W.arrange (interested r.state.pending blocks)) = (roots, r₀) →
      (roots.findSome? fun root => r₀.state.roots.get? root) = some d →
      r₀.fetch W d.session blocks = (.ok (), r₁) → Asks W 0 blocks r r₁
  /-- The roots that waited for the blocks are given up, and nobody waits for what they leave behind. -/
  | refused {blocks left : List BlockId} {r r₀ r₁ r₂ : Run ω} {roots : List RootId} {d : Download} {e : FetchError} :
      r.call (W.arrange (interested r.state.pending blocks)) = (roots, r₀) →
      (roots.findSome? fun root => r₀.state.roots.get? root) = some d →
      r₀.fetch W d.session blocks = (.error e, r₁) →
      releaseAll W roots (r₁.log (.fetchFailed blocks.length roots.length e)) = (left, r₂) →
      (left.filter fun id => decide (r₂.state.pending.Has id)) = [] → Asks W 1 blocks r r₂
  /-- Others wait for what they leave behind, so that is asked for. -/
  | again {n : Nat} {blocks left : List BlockId} {r r₀ r₁ r₂ r' : Run ω} {roots : List RootId} {d : Download}
      {e : FetchError} :
      r.call (W.arrange (interested r.state.pending blocks)) = (roots, r₀) →
      (roots.findSome? fun root => r₀.state.roots.get? root) = some d →
      r₀.fetch W d.session blocks = (.error e, r₁) →
      releaseAll W roots (r₁.log (.fetchFailed blocks.length roots.length e)) = (left, r₂) →
      (left.filter fun id => decide (r₂.state.pending.Has id)) ≠ [] →
      Asks W n (left.filter fun id => decide (r₂.state.pending.Has id)) r₂ r' → Asks W (n + 1) blocks r r'

/-- With more fuel than roots in flight, the recursion ends by itself: each refused call gives up the
root that it was made for. -/
theorem fetchWithin_asks (W : World ω) (fuel : Nat) (blocks : List BlockId) (r : Run ω)
    (h : r.state.roots.length < fuel) :
    ∃ n ≤ r.state.roots.length, Asks W n blocks r (fetchWithin W fuel blocks r) := by
  induction fuel generalizing blocks r with
  | zero => omega
  | succ fuel ih =>
    rw [fetchWithin]
    have hstate := Run.call_state r (W.arrange (interested r.state.pending blocks))
    rcases hc₀ : r.call (W.arrange (interested r.state.pending blocks)) with ⟨roots, r₀⟩
    rw [hc₀] at hstate
    dsimp only at hstate ⊢
    rcases hf : roots.findSome? fun root => r₀.state.roots.get? root with _ | d
    · exact ⟨0, Nat.zero_le _, .nobody hc₀ hf⟩
    · obtain ⟨root, hmem, hd⟩ := List.exists_of_findSome?_eq_some hf
      have hasked := fetch_state r₀ W d.session blocks
      dsimp only
      rcases hc : r₀.fetch W d.session blocks with ⟨outcome, r₁⟩
      rw [hc] at hasked
      cases outcome with
      | ok _ => exact ⟨0, Nat.zero_le _, .accepted hc₀ hf hc⟩
      | error e =>
        have hend := releaseAll_ended (W := W) roots (r₁.log (.fetchFailed blocks.length roots.length e))
        dsimp only
        rcases hc₂ : releaseAll W roots (r₁.log (.fetchFailed blocks.length roots.length e)) with ⟨left, r₂⟩
        rw [hc₂, Run.log_state, hasked] at hend
        dsimp only at hend ⊢
        have hlt : r₂.state.roots.length < r.state.roots.length := by
          rw [← hstate]
          exact hend.length_lt hd (hend.gone root hmem)
        split
        · next hempty => exact ⟨1, by omega, .refused hc₀ hf hc hc₂ (List.isEmpty_iff.1 hempty)⟩
        · next hsome =>
          obtain ⟨n, hn, hagain⟩ := ih (left.filter fun id => decide (r₂.state.pending.Has id)) r₂ (by omega)
          refine ⟨n + 1, by omega, .again hc₀ hf hc hc₂ ?_ hagain⟩
          exact fun hnil => hsome (List.isEmpty_iff.2 hnil)

/-! ## Rounds -/

/-- The rounds of a pass up to the last, with `n` entries taken out of the index. -/
inductive Turns (W : World ω) (rules : Rules) : (n : Nat) → Pass → Run ω → Pass → Run ω → Prop
  | done {p : Pass} {r : Run ω} : p.queue = [] → Turns W rules 0 p r p r
  /-- Nobody waits for the next block any more. -/
  | dropped {n : Nat} {p p' : Pass} {r r' : Run ω} {a : Arrival} {queue : List Arrival} {pending : PendingIndex} :
      p.queue = a :: queue → r.state.pending.take a.id = (none, pending) →
      Turns W rules n { p with queue } r p' r' → Turns W rules n p r p' r'
  | taken {n : Nat} {p p₁ p' : Pass} {r r₁ r' : Run ω} {a : Arrival} {queue : List Arrival} {awaiting : Awaiting}
      {pending : PendingIndex} :
      p.queue = a :: queue → r.state.pending.take a.id = (some awaiting, pending) →
      Pass.handle W rules a awaiting { p with queue } (r.setPending pending) = (p₁, r₁) →
      Turns W rules n p₁ r₁ p' r' → Turns W rules (n + 1) p r p' r'

/-- The blocks to be judged are awaited by the given roots only, and the children owed are theirs. -/
structure Within (roots : List RootId) (σ : Stage) (s : State) : Prop where
  queue : ∀ a ∈ σ.queue, ∀ root, s.pending.positions a.id root ≠ [] → root ∈ roots
  unseen : ∀ id ∈ σ.unseen, ∀ root, s.pending.positions id root ≠ [] → root ∈ roots
  owed : ∀ c ∈ σ.owed, c.root ∈ roots

/-- An upper bound on the rounds that are left, where these roots only are concerned. -/
def worth (roots : List RootId) (σ : Stage) (s : State) : Nat :=
  σ.queue.length + σ.unseen.length + (roots.map (load σ.owed s)).sum

namespace Within

variable {roots : List RootId}

/-- Nobody waits for more, and no more is to be done. -/
theorem carry {s s' : State} (h : Within roots σ s) (hqueue : ∀ a ∈ σ'.queue, a ∈ σ.queue)
    (hunseen : ∀ id ∈ σ'.unseen, id ∈ σ.unseen) (howed : ∀ c ∈ σ'.owed, c ∈ σ.owed)
    (hpos : ∀ id root, s'.pending.positions id root ≠ [] → s.pending.positions id root ≠ []) : Within roots σ' s' :=
  ⟨fun a ha root hne => h.queue a (hqueue a ha) root (hpos _ _ hne),
    fun id hid root hne => h.unseen id (hunseen id hid) root (hpos _ _ hne), fun c hc => h.owed c (howed c hc)⟩

/-- The children of a judged block belong to roots that awaited it. -/
theorem take {q : List Arrival} {w : List BlockId} {a : Arrival} {awaiting : Awaiting}
    (h : Within roots ⟨a :: q, [], w, [], []⟩ r.state) (hb : Books rules [] r.state)
    (ha : r.state.pending.get? a.id = some awaiting) (W : World ω) (p : Pass) :
    Within roots
      ⟨q, [], w, (Pass.take W rules a awaiting p r).1.children, (Pass.take W rules a awaiting p r).1.malformed⟩
      (Pass.take W rules a awaiting p r).2.2.state := by
  refine ⟨?_, by simp, ?_⟩
  · intro b hm root hne
    rw [Pass.take_pending, PendingIndex.positions_without] at hne
    split at hne
    · exact absurd rfl hne
    · exact h.queue b (List.mem_cons_of_mem _ hm) root hne
  · intro c hc
    dsimp only at hc
    rw [Pass.take_verdict (hb.pending _ _ ha).nodup] at hc
    obtain ⟨positions, hm⟩ := Verdict.mem_awaiting_of_child hc
    obtain ⟨hne, hpos, -⟩ := hb.of_mem_awaiting ha ((W.arrange_perm awaiting r.world).mem_iff.1 hm)
    exact h.queue a List.mem_cons_self c.root (hpos.symm ▸ hne)

/-- A child is looked up only where nobody waited for it, so that its root alone waits for it then. -/
theorem await {q : List Arrival} {w : List BlockId} {o : List Child} {child : Child} {d : Download}
    (h : Within roots ⟨q, [], w, child :: o, []⟩ r.state) (hb : Books rules (child :: o) r.state) :
    Within roots ⟨q, if r.state.pending.Has child.id then [] else [child.id], w, o, []⟩
      (Pass.await child d r).state := by
  have hself : child.root ∈ roots := h.owed child List.mem_cons_self
  have hmore : ∀ {id root}, (Pass.await child d r).state.pending.positions id root ≠ [] →
      root ∈ roots ∨ r.state.pending.positions id root ≠ [] := by
    intro id root hne
    rw [await_pending, PendingIndex.positions_insert] at hne
    split at hne
    · next heq => exact .inl (heq.2 ▸ hself)
    · exact .inr hne
  refine ⟨?_, ?_, fun c hc => h.owed c (List.mem_cons_of_mem _ hc)⟩
  · exact fun a ha root hne => (hmore hne).elim id (h.queue a ha root)
  · intro id hid root hne
    dsimp only at hid
    split at hid
    · cases hid
    · next hnew =>
      rw [List.mem_singleton.1 hid] at hne
      refine (hmore hne).resolve_right fun hpos => hnew ?_
      exact (PendingIndex.has_iff_positions hb.pending).2 ⟨root, hpos⟩

end Within

theorem worth_take_lt (roots : List RootId) {q : List Arrival} {w : List BlockId} {a : Arrival} {awaiting : Awaiting}
    (hb : Books rules [] r.state) (ha : r.state.pending.get? a.id = some awaiting) (W : World ω) (p : Pass) :
    worth roots
        ⟨q, [], w, (Pass.take W rules a awaiting p r).1.children, (Pass.take W rules a awaiting p r).1.malformed⟩
        (Pass.take W rules a awaiting p r).2.2.state < worth roots ⟨a :: q, [], w, [], []⟩ r.state := by
  have := List.sum_le_sum (l := roots) fun root _ => hb.load_take_le ha W p root
  simp only [worth, List.length_cons]
  omega

/-- No step adds to the rounds that are left. -/
theorem Step.worth_le {roots : List RootId} (hb : Books rules σ.owed r.state) (h : Within roots σ r.state)
    (hs : Step W rules σ r σ' r') : Within roots σ' r'.state ∧ worth roots σ' r'.state ≤ worth roots σ r.state := by
  have hdismiss : ∀ {r : Run ω} {other : RootId} {d : Download} (id root),
      (dismiss other d r).state.pending.positions id root ≠ [] → r.state.pending.positions id root ≠ [] := by
    intro r other d id root hne
    rw [dismiss_pending, PendingIndex.positions_removeRoot] at hne
    split at hne
    · exact absurd rfl hne
    · exact hne
  cases hs with
  | logged | arranged | asked | announced | refused | fetched | settled | broke | spared | finished =>
    exact ⟨h.carry (fun _ => id) (fun _ => id) (fun _ => id) fun _ _ => id, Nat.le_refl _⟩
  | @found q u w o m r id raw =>
    refine ⟨⟨?_, fun j hj => h.unseen j (List.mem_cons_of_mem _ hj), h.owed⟩, ?_⟩
    · intro a ha root hne
      rcases List.mem_append.1 ha with ha | ha
      · exact h.queue a ha root hne
      · rw [List.mem_singleton.1 ha] at hne
        exact h.unseen id List.mem_cons_self root hne
    · simp only [worth, Run.call_state, List.length_append, List.length_cons, List.length_nil]
      omega
  | missed j =>
    refine ⟨h.carry (fun _ => id) (fun _ => List.mem_cons_of_mem _) (fun _ => id) fun _ _ => id, ?_⟩
    simp only [worth, Run.call_state, List.length_cons]
    omega
  | discarded a =>
    refine ⟨h.carry (fun _ => List.mem_cons_of_mem _) (fun _ => id) (fun _ => id) fun _ _ => id, ?_⟩
    simp only [worth, List.length_cons]
    omega
  | judged a awaiting p ha => exact ⟨h.take hb ha W p, Nat.le_of_lt (worth_take_lt roots hb ha W p)⟩
  | @expanded q w o r child d hd =>
    refine ⟨h.await hb, ?_⟩
    have := Books.sum_load_await o hd (h.owed child List.mem_cons_self)
    simp only [worth]
    split
    · simp only [List.length_nil]
      omega
    · simp only [List.length_cons, List.length_nil]
      omega
  | @orphaned q u w o m r child hn =>
    refine ⟨h.carry (fun _ => id) (fun _ => id) (fun _ => List.mem_cons_of_mem _) fun _ _ => id, ?_⟩
    simp only [worth]
    rw [List.map_congr_left fun root _ => Books.load_cons_of_none o hn root]
  | @released q u w o m r other d hd =>
    refine ⟨h.carry (fun _ => id) (fun _ => id) (fun _ => id) hdismiss, ?_⟩
    have := List.sum_le_sum (l := roots) fun root _ => Books.load_dismiss_le o other root d r
    simp only [worth]
    omega
  | @completed w r other d hd =>
    have hmarked := fun root => Books.load_dismiss_le [] other root d (mark W other r)
    rw [mark_state] at hmarked
    refine ⟨⟨by simp, by simp, by simp⟩, ?_⟩
    have := List.sum_le_sum (l := roots) fun root _ => hmarked root
    simp only [worth]
    omega

theorem Leads.worth_le {roots : List RootId} (hb : InOrder rules σ r) (h : Within roots σ r.state)
    (hl : Leads W rules σ r σ' r') : Within roots σ' r'.state ∧ worth roots σ' r'.state ≤ worth roots σ r.state := by
  induction hl with
  | refl => exact ⟨h, Nat.le_refl _⟩
  | tail hl hs ih =>
    obtain ⟨hw, hle⟩ := ih
    obtain ⟨hw', hle'⟩ := hs.worth_le (hb.leads hl).books hw
    exact ⟨hw', hle'.trans hle⟩

/-- Rounds end by themselves within the bound they are run with, and each entry that is taken out of
the index spends one position. -/
theorem rounds_turns (roots : List RootId) (fuel : Nat) (p : Pass) (r : Run ω)
    (hb : InOrder rules ⟨p.queue, [], p.wanted, [], []⟩ r) (h : Within roots ⟨p.queue, [], p.wanted, [], []⟩ r.state)
    (hfuel : potential ⟨p.queue, [], p.wanted, [], []⟩ r.state ≤ fuel) :
    ∃ n ≤ worth roots ⟨p.queue, [], p.wanted, [], []⟩ r.state,
      Turns W rules n p r (p.rounds W rules fuel r).1 (p.rounds W rules fuel r).2 := by
  induction fuel generalizing p r with
  | zero =>
    have hq : p.queue = [] := by
      simp only [potential] at hfuel
      exact List.length_eq_zero_iff.1 (by omega)
    exact ⟨0, Nat.zero_le _, .done hq⟩
  | succ fuel ih =>
    rw [Pass.rounds]
    cases hn : Pass.next W rules p r with
    | none =>
      have hq : p.queue = [] := by
        unfold Pass.next at hn
        split at hn
        · next hq => exact hq
        · split at hn <;> cases hn
      exact ⟨0, Nat.zero_le _, .done hq⟩
    | some next =>
      obtain ⟨p₁, r₁⟩ := next
      obtain ⟨hlead, hlt⟩ := next_leads hb hn
      obtain ⟨n, hle, hturns⟩ := ih p₁ r₁ (hb.leads hlead) (hlead.worth_le hb h).1 (by omega)
      obtain ⟨a, queue, hq, ⟨hnot, rfl, rfl⟩ | ⟨awaiting, ha, hh⟩⟩ := next_cases hn
      · exact ⟨n, hle.trans (hlead.worth_le hb h).2, .dropped hq (PendingIndex.take_of_not_has hnot) hturns⟩
      · refine ⟨n + 1, ?_, .taken hq (PendingIndex.take_of_get? ha) hh hturns⟩
        rw [hq] at hb h ⊢
        -- judging spends a round, and what follows adds none
        have hafter := handle_leads_after (p := { p with queue }) hb rfl ha hh
        have hjudged : Step W rules ⟨a :: queue, [], p.wanted, [], []⟩ r _ _ := .judged a awaiting { p with queue } ha
        have hspent := (hafter.worth_le (hb.step hjudged) (hjudged.worth_le hb.books h).1).2
        have := worth_take_lt roots (q := queue) (w := p.wanted) hb.books ha W { p with queue }
        omega

/-! ## How many positions there are -/

/-- How many positions the tree of a download has, where the block `raw` arrives: as many as its shape
says, or, while that is unknown, as the header of the block says; one, if that is rejected. -/
def treeSize (rules : Rules) (raw : Bytes) (d : Download) : Nat :=
  match d.schema? with
  | some t => t.totalBlocks
  | none =>
    match Block.decode raw with
    | .error _ => 1
    | .ok block =>
      match Judgement.rootSchema rules d.tag block.data with
      | .error _ => 1
      | .ok t => t.totalBlocks

/-- The positions of all trees whose roots await the block `a`. -/
def positionsAwaiting (rules : Rules) (a : Arrival) (s : State) : Nat :=
  ((Table.keys ((s.pending.get? a.id).getD [])).map fun root =>
    match s.roots.get? root with
    | none => 0
    | some d => treeSize rules a.raw d).sum

theorem treeSize_pos (rules : Rules) (raw : Bytes) (d : Download) : 0 < treeSize rules raw d := by
  unfold treeSize
  split
  · next t _ => exact t.totalBlocks_pos
  · split
    · exact Nat.one_pos
    · split
      · exact Nat.one_pos
      · next t _ => exact t.totalBlocks_pos

/-- The subtrees of the positions that a root waits at have room in its tree side by side. -/
structure Apart (s : State) : Prop where
  requested : ∀ {root d}, s.roots.get? root = some d → d.phase = .requested → (s.pending.waits root).length ≤ 1
  expanding : ∀ {root d t}, s.roots.get? root = some d → d.phase = .expanding t →
    ((s.pending.waits root).map fun w => (t.subtree w.2).length).sum ≤ t.totalBlocks

theorem Ledger.apart (h : Ledger rules .idle r) : Apart r.state := by
  constructor
  · intro root d hd hp
    have htiled := h.tiled root d hd (by simp [Stage.idle])
    rw [hp] at htiled
    cases htiled with
    | requested _ _ hw _ =>
      have hlength := congrArg List.length hw
      rw [State.waitsAt, List.length_map] at hlength
      exact hlength.le
  · intro root d t hd hp
    have htiled := h.tiled root d hd (by simp [Stage.idle])
    rw [hp] at htiled
    cases htiled with
    | expanding _ _ _ htiles =>
      have hlength := htiles.length_eq
      rw [List.length_append, List.length_flatMap, List.length_range] at hlength
      simp only [State.waitsAt, owedAt, Stage.idle, List.filter_nil, List.map_nil, List.append_nil, List.map_map,
        Function.comp_def] at hlength
      omega

theorem Apart.launch (h : Apart r.state) (hb : Books rules [] r.state) (hn : ¬ r.state.InFlight root) (tag : DataTag)
    (timeout : Nat) : Apart (Downloader.launch root tag timeout r).state := by
  have hnone : r.state.roots.get? root = none := State.not_inFlight_iff.1 hn
  constructor
  · intro other d hd hp
    rw [launch_pending]
    rcases Table.get?_insert_eq_some_iff.1 hd with ⟨rfl, rfl⟩ | ⟨hne, hd⟩
    · rw [(PendingIndex.waits_insert _ _ _ _).length_eq, hb.waits_eq_nil hnone]
      exact Nat.le_refl 1
    · rw [(PendingIndex.waits_insert_of_ne hne _ _).length_eq]
      exact h.requested hd hp
  · intro other d t hd hp
    rw [launch_pending]
    rcases Table.get?_insert_eq_some_iff.1 hd with ⟨rfl, rfl⟩ | ⟨hne, hd⟩
    · cases hp
    · rw [((PendingIndex.waits_insert_of_ne hne _ _).map _).sum_eq]
      exact h.expanding hd hp

/-- When a block is judged, a root that awaited it keeps less to be carried than its tree has
positions. -/
theorem Apart.load_take_lt {a : Arrival} {awaiting : Awaiting} (h : Apart r.state) (hb : Books rules [] r.state)
    (ha : r.state.pending.get? a.id = some awaiting) (W : World ω) (p : Pass) {d : Download}
    (hd : r.state.roots.get? root = some d) (hne : r.state.pending.positions a.id root ≠ []) :
    load (Pass.take W rules a awaiting p r).1.children (Pass.take W rules a awaiting p r).2.2.state root <
      treeSize rules a.raw d := by
  have hpending := Pass.take_pending W rules a awaiting p r
  have hkeys := Pass.take_keys W rules a awaiting p r
  have hfate := hb.fate ha W p
  generalize (Pass.take W rules a awaiting p r).1 = v at *
  generalize (Pass.take W rules a awaiting p r).2.2 = r' at *
  obtain ⟨d', hd'⟩ := mem_keys_iff_get?.1 (hkeys ▸ Table.mem_keys_of_get? hd)
  obtain ⟨d₀, hd₀, hf⟩ := hfate hd'
  obtain rfl : d = d₀ := Option.some.inj (hd.symm.trans hd₀)
  -- each position carries one less than its subtree has, and the root awaited the block somewhere
  have hshaped : ∀ t, d.phase = .expanding t → ((r.state.pending.waits root).map fun w =>
      burden (.expanding t) w.2).sum + (r.state.pending.positions a.id root).length ≤ t.totalBlocks := by
    intro t hp
    have hroom := h.expanding hd hp
    have hsub : ∀ w ∈ r.state.pending.waits root, (t.subtree w.2).length = burden (.expanding t) w.2 + 1 := by
      intro w hw
      obtain ⟨hs, -, hfit⟩ := hb.expanding hd hp
      have hlt := (hfit (.inl (PendingIndex.mem_waits.1 hw))).2
      rw [burden_expanding, hs.fits.subtree_eq hlt, List.length_cons]
      rfl
    rw [List.map_congr_left hsub, List.sum_map_add] at hroom
    have hsplit := (r.state.pending.waits_split a.id root).length_eq
    rw [List.length_append, List.length_map] at hsplit
    simp only [List.map_const', List.sum_replicate_nat, Nat.mul_one] at hroom
    omega
  have hlength : 0 < (r.state.pending.positions a.id root).length := List.length_pos_iff.2 hne
  rw [load_of_get? hd', hpending]
  cases hf with
  | passed hnone => exact absurd hnone hne
  | broken e _ _ hc =>
    rw [hc]
    dsimp only
    simp only [List.map_nil, List.sum_nil, Nat.add_zero]
    cases hp : d.phase with
    | requested =>
      rw [hb.waits_take_eq_nil hd hp hne]
      exact treeSize_pos rules a.raw d
    | expanding t =>
      have hsum := Books.sum_waits_take a.id r.state root fun w => burden (.expanding t) w.2
      have := hshaped t hp
      unfold treeSize Download.schema?
      rw [hp]
      dsimp only at hsum ⊢
      omega
  | grown block t _ hopen hphase hc =>
    obtain ⟨hs, hsize⟩ := hb.small_of_phase hd hphase
    rw [hc]
    dsimp only
    rw [Books.sum_load_children hs hsize hopen]
    rcases hphase with hp | ⟨hp, hroot⟩
    · have hsum := Books.sum_waits_take a.id r.state root fun w => burden (.expanding t) w.2
      have := hshaped t hp
      unfold treeSize Download.schema?
      rw [hp]
      dsimp only at hsum ⊢
      rw [Nat.add_comm, ← hsum]
      omega
    · -- the root waited at its own position only, and all others are below that
      obtain ⟨ix, hix⟩ := List.exists_mem_of_ne_nil _ hne
      have hzero := (hb.requested hd hp (.inl hix)).2
      have hdecode : Block.decode a.raw = .ok block := (Join.openBlock_eq_ok_iff.1 (hopen ix hix)).1
      have hone : r.state.pending.positions a.id root = [0] := by
        have hsplit := (r.state.pending.waits_split a.id root).length_eq
        have := h.requested hd hp
        rw [List.length_append, List.length_map] at hsplit
        obtain ⟨jx, hjx⟩ := List.length_eq_one_iff.1 (show (r.state.pending.positions a.id root).length = 1 by omega)
        rw [hjx, List.mem_singleton] at hix
        rw [hjx, ← hix, hzero]
      unfold treeSize Download.schema?
      rw [hb.waits_take_eq_nil hd hp hne, hone, hp]
      dsimp only
      rw [hdecode]
      dsimp only
      rw [hroot]
      simp only [List.map_nil, List.sum_nil, List.map_cons, Nat.zero_add, burden_expanding]
      rw [hs.fits.subtree_zero_perm.length_eq, List.length_range]
      exact Nat.sub_lt t.totalBlocks_pos Nat.one_pos

/-- Among the roots that await a block, there is one position more than is left to be carried, for each. -/
theorem Apart.worth_take_lt {a : Arrival} {awaiting : Awaiting} (h : Apart r.state) (hb : Books rules [] r.state)
    (ha : r.state.pending.get? a.id = some awaiting) (W : World ω) (p : Pass) :
    worth (Table.keys awaiting)
      ⟨[], [], [], (Pass.take W rules a awaiting p r).1.children, (Pass.take W rules a awaiting p r).1.malformed⟩
      (Pass.take W rules a awaiting p r).2.2.state < positionsAwaiting rules a r.state := by
  have hw := hb.pending _ _ ha
  have hlt : ∀ root ∈ Table.keys awaiting,
      load (Pass.take W rules a awaiting p r).1.children (Pass.take W rules a awaiting p r).2.2.state root <
        match r.state.roots.get? root with
        | none => 0
        | some d => treeSize rules a.raw d := by
    intro root hroot
    obtain ⟨⟨_, positions⟩, hm, rfl⟩ := List.mem_map.1 hroot
    obtain ⟨hne, hpos, d, hd⟩ := hb.of_mem_awaiting ha hm
    dsimp only
    rw [hd]
    exact h.load_take_lt hb ha W p hd (hpos.symm ▸ hne)
  obtain ⟨root, hroot⟩ := List.exists_mem_of_ne_nil (Table.keys awaiting) (by simpa [Table.keys] using hw.nonempty)
  unfold positionsAwaiting
  rw [ha, Option.getD_some]
  simp only [worth, List.length_nil, Nat.zero_add]
  exact List.sum_lt_sum _ _ (fun root hroot => (hlt root hroot).le) ⟨root, hroot, hlt root hroot⟩

/-- A pass ends by itself, and takes out of the index at most as many entries as the roots that await
its first block have positions. -/
theorem process_turns (W : World ω) (a : Arrival) (hb : Books rules [] r.state) (h : Apart r.state) :
    ∃ n p r', Turns W rules n (Pass.start a) r p r' ∧ process W rules a r = p.finish W r' ∧
      n ≤ positionsAwaiting rules a r.state := by
  have hin : InOrder rules ⟨[a], [], [], [], []⟩ r := hb
  have hbound : potential ⟨[a], [], [], [], []⟩ r.state ≤ Pass.roundBound r.state := hb.potential_le (Nat.le_refl 1)
  have hnext : ∃ p₁ r₁, Pass.next W rules (Pass.start a) r = some (p₁, r₁) := by
    unfold Pass.next
    dsimp only [Pass.start]
    split
    · exact ⟨_, _, rfl⟩
    · exact ⟨_, _, rfl⟩
  obtain ⟨p₁, r₁, hn⟩ := hnext
  have hlead : Leads W rules ⟨[a], [], [], [], []⟩ r ⟨p₁.queue, [], p₁.wanted, [], []⟩ r₁ ∧
      potential ⟨p₁.queue, [], p₁.wanted, [], []⟩ r₁.state < potential ⟨[a], [], [], [], []⟩ r.state :=
    next_leads hin hn
  obtain ⟨hlead, hlt⟩ := hlead
  have hb₁ := hin.leads hlead
  obtain ⟨fuel, hfuel⟩ : ∃ fuel, Pass.roundBound r.state = fuel + 1 := ⟨_, Nat.add_comm _ _⟩
  have hprocess : process W rules a r = (p₁.rounds W rules fuel r₁).1.finish W (p₁.rounds W rules fuel r₁).2 := by
    unfold process
    rw [hfuel, Pass.rounds, hn]
  rw [hprocess]
  obtain ⟨b, queue, hq, hcases⟩ := next_cases hn
  obtain ⟨rfl, rfl⟩ : b = a ∧ queue = [] := by
    obtain ⟨h1, h2⟩ := List.cons.inj hq
    exact ⟨h1.symm, h2.symm⟩
  rcases hcases with ⟨hnot, rfl, rfl⟩ | ⟨awaiting, ha, hh⟩
  · obtain ⟨n, hle, hturns⟩ := rounds_turns [] fuel _ r₁ hb₁ ⟨by simp, by simp, by simp⟩ (by omega)
    refine ⟨n, _, _, .dropped rfl (PendingIndex.take_of_not_has hnot) hturns, rfl, ?_⟩
    exact hle.trans (Nat.zero_le _)
  · have hjudged : Step W rules ⟨[b], [], [], [], []⟩ r _ _ := .judged b awaiting ⟨[], [], []⟩ ha
    have hwithin : Within (Table.keys awaiting) ⟨[b], [], [], [], []⟩ r.state := by
      refine ⟨?_, by simp, by simp⟩
      intro c hc root hne
      rw [List.mem_singleton.1 hc, ← Books.positions_of_get? ha] at hne
      by_contra hm
      rw [Awaiting.positions, Table.get?_eq_none_iff.2 hm] at hne
      exact hne rfl
    have hafter := handle_leads_after (p := ⟨[], [], []⟩) hin rfl ha hh
    obtain ⟨hwithin₁, hspent⟩ := hafter.worth_le (hin.step hjudged) (hjudged.worth_le hb hwithin).1
    obtain ⟨n, hle, hturns⟩ := rounds_turns _ fuel p₁ r₁ hb₁ hwithin₁ (by omega)
    refine ⟨n + 1, _, _, .taken rfl (PendingIndex.take_of_get? ha) hh hturns, rfl, ?_⟩
    have := h.worth_take_lt hb ha W ⟨[], [], []⟩
    omega

/-! ## Events -/

/-- The books of a downloader with a past are those of a new one. -/
theorem Past.books {owed : List Child} {s : State} (past : Past ω) (h : Books rules owed s) :
    Books rules owed (past.state s) := by
  have hget : ∀ {root d'}, (past.state s).roots.get? root = some d' →
      ∃ d, s.roots.get? root = some d ∧ past.download d = d' := by
    intro root d' hd'
    rw [show (past.state s).roots.get? root = _ from past.get?_map s.roots root] at hd'
    exact Option.map_eq_some_iff.1 hd'
  refine ⟨h.pending, ?_, ?_, ?_, ?_, ?_⟩
  · have hkeys : (past.state s).roots.keys = s.roots.keys := by simp [Past.state, Table.keys]
    rw [hkeys]
    exact h.roots
  · intro id root hne
    obtain ⟨d, hd, hm⟩ := h.waiter hne
    exact ⟨past.download d, (past.get?_map s.roots root).trans (by rw [hd]; rfl), hm⟩
  · intro root d' hd'
    obtain ⟨d, hd, rfl⟩ := hget hd'
    have haccount := h.account hd
    exact haccount
  · intro root d' hd' hp id ix ho
    obtain ⟨d, hd, rfl⟩ := hget hd'
    exact h.requested hd hp ho
  · intro root d' t hd' hp
    obtain ⟨d, hd, rfl⟩ := hget hd'
    exact h.expanding hd hp

theorem Past.apart {s : State} (past : Past ω) (h : Apart s) : Apart (past.state s) := by
  have hget : ∀ {root d'}, (past.state s).roots.get? root = some d' →
      ∃ d, s.roots.get? root = some d ∧ past.download d = d' := by
    intro root d' hd'
    rw [show (past.state s).roots.get? root = _ from past.get?_map s.roots root] at hd'
    exact Option.map_eq_some_iff.1 hd'
  constructor
  · intro root d' hd' hp
    obtain ⟨d, hd, rfl⟩ := hget hd'
    exact h.requested hd hp
  · intro root d' t hd' hp
    obtain ⟨d, hd, rfl⟩ := hget hd'
    exact h.expanding hd hp

/-- Between commands, over a whole lifetime, the books are in order and the positions lie apart. -/
theorem lifetime_apart (W : World ω) (rules : Rules) (commands : List Command) (world : ω) :
    Books rules [] (lifetime W rules commands world).state ∧ Apart (lifetime W rules commands world).state := by
  rcases lifetime_cases W rules commands world with ⟨events, heq⟩ | ⟨past, events, world', heq⟩
  · rw [heq]
    have h := history_reached W rules events world
    exact ⟨h.books, h.ledger.apart⟩
  · rw [heq]
    have h := history_reached (W.after past.opened) rules events world'
    exact ⟨past.books h.books, past.apart h.ledger.apart⟩

/-- No block is judged here. -/
def Moment.Unjudged (m : Moment ω) : Prop := ∀ id awaiting verdict, m.effect ≠ .judged id awaiting verdict

/-- How an event is handled: with a pass that ends by itself, within the number of positions, or, where
the event begins none, without judging a block. -/
inductive Handled (W : World ω) (rules : Rules) (event : Event) (r r' : Run ω) : Prop
  | pass (a : Arrival) (r₁ : Run ω) (n : Nat) (p : Pass) (r₂ : Run ω) : Begins W rules event r a r₁ →
      Turns W rules n (Pass.start a) r₁ p r₂ → n ≤ positionsAwaiting rules a r₁.state → r' = p.finish W r₂ →
      Handled W rules event r r'
  | passless : (∀ a r₁, ¬ Begins W rules event r a r₁) → Run.Adds Moment.Unjudged r r' → Handled W rules event r r'

theorem Begins.handled {event : Event} {a : Arrival} (h : Begins W rules event r a r')
    (hb : Books rules [] r.state) (hapart : Apart r.state) : Handled W rules event r (handle W rules event r) := by
  have hpass : handle W rules event r = process W rules a r' ∧ Books rules [] r'.state ∧ Apart r'.state := by
    cases h with
    | delivered id raw _ hn =>
      rw [handle, deliver, if_pos hn]
      exact ⟨rfl, hb, hapart⟩
    | found root tag entries timeout raw _ r₁ _ hout htime hmarked hfree hview =>
      have hstate : r₁.state = r.state := by
        have := Run.call_state (r.logAll entries) (W.setStatus root .part)
        rw [hmarked, Run.logAll_state] at this
        exact this
      have hviewed : r'.state = (launch root tag timeout r₁).state := by
        have := Run.call_state (launch root tag timeout r₁) (W.view root)
        rw [hview] at this
        exact this
      have heq : handle W rules (.kickoff root tag) r = process W rules ⟨root, raw, false⟩ r' := by
        rw [handle, kickoff, if_neg hout, htime]
        dsimp only
        rw [hmarked]
        simp only [hfree, decide_false, if_false, Bool.false_eq_true]
        rw [request, hview]
      rw [← hstate] at hb hapart hout
      exact ⟨heq, hviewed ▸ hb.launch hout tag timeout, hviewed ▸ hapart.launch hb hout tag timeout⟩
  obtain ⟨heq, hb₁, hapart₁⟩ := hpass
  obtain ⟨n, p, r₂, hturns, hprocess, hle⟩ := process_turns W a hb₁ hapart₁
  exact .pass a r' n p r₂ h hturns hle (heq.trans hprocess)

/-- Where no block is to be judged, looked up or waited for, none is judged. -/
theorem Step.unjudged (hσ : σ.Settled) (hs : Step W rules σ r σ' r') : Run.Adds Moment.Unjudged r r' := by
  cases hs with
  | logged | broke | finished => exact .emit (by simp [Moment.Unjudged])
  | arranged | asked | refused | found | missed | discarded | orphaned | settled | spared => exact .refl rfl
  | announced => exact .trans (.refl rfl) (.emit (by simp [Moment.Unjudged]))
  | judged => cases hσ.queue
  | expanded => cases hσ.owed
  | fetched => exact .cons rfl (by simp [Moment.Unjudged])
  | released => exact dismiss_adds _ _ _ (by simp [Moment.Unjudged])
  | completed =>
    exact (mark_adds _ _ W (by simp [Moment.Unjudged]) fun _ => by simp [Moment.Unjudged]).trans
      (dismiss_adds _ _ _ (by simp [Moment.Unjudged]))

theorem Leads.unjudged (hσ : σ.Settled) (h : Leads W rules σ r σ' r') : Run.Adds Moment.Unjudged r r' :=
  h.adds_of_settled hσ fun _ hσ hs => hs.unjudged hσ

theorem Moment.Early.unjudged {m : Moment ω} (h : m.Early) : m.Unjudged := by
  rintro _ _ _ he
  simp [Early, he] at h

/-- An event that begins no pass judges no block. -/
theorem handle_unjudged (event : Event) (hb : Books rules [] r.state) (h : ∀ a r₁, ¬ Begins W rules event r a r₁) :
    Run.Adds Moment.Unjudged r (handle W rules event r) := by
  have hin : InOrder rules .idle r := hb
  have hearly : ∀ {r₁ : Run ω}, Run.Adds Moment.Early r r₁ → Run.Adds Moment.Unjudged r r₁ := fun ha =>
    ha.mono fun _ => Moment.Early.unjudged
  have hresponse := handle_response W rules event r fun _ => trivial
  generalize handle W rules event r = r' at hresponse
  cases hresponse with
  | pass hbegins => exact absurd hbegins (h _ _)
  | @asks root r₁ hp hhas ha =>
    have hsettled : Stage.Settled ⟨[], [], [root], [], []⟩ := ⟨rfl, rfl, rfl⟩
    refine (hearly ha).trans ((fetch_leads [root] [] (hin.proceeds hp) (List.cons_ne_nil _ _) ?_).unjudged hsettled)
    intro id hid
    rw [List.mem_singleton.1 hid]
    exact hhas
  | frees root hp ha => exact (hearly ha).trans ((free_leads (hin.proceeds hp) root).1.unjudged ⟨rfl, rfl, rfl⟩)
  | rests hp ha => exact hearly ha

/-- Handling an event ends, after any commands, whatever bytes the store answers with each time and
whichever calls for blocks the network refuses. Wherever blocks are asked for, refused calls nest at
most once for each root in flight; and a pass takes out of the index at most as many entries as there
are positions in the trees of the roots that await its first block, one for a root whose header is
rejected. -/
theorem handling_ends (W : World ω) (rules : Rules) (commands : List Command) (world : ω) (event : Event) :
    (∀ blocks r, ∃ n ≤ r.state.roots.length, Asks W n blocks r (fetch W blocks r)) ∧
      Handled W rules event (lifetime W rules commands world)
        (handle W rules event (lifetime W rules commands world)) := by
  obtain ⟨hb, hapart⟩ := lifetime_apart W rules commands world
  refine ⟨fun blocks r => fetchWithin_asks W _ blocks r (Nat.lt_succ_self _), ?_⟩
  by_cases h : ∃ a r₁, Begins W rules event (lifetime W rules commands world) a r₁
  · obtain ⟨a, r₁, h⟩ := h
    exact h.handled hb hapart
  · have hnone : ∀ a r₁, ¬ Begins W rules event (lifetime W rules commands world) a r₁ :=
      fun a r₁ hbegins => h ⟨a, r₁, hbegins⟩
    exact .passless hnone (handle_unjudged event hb hnone)

end BlockDag.Downloader
