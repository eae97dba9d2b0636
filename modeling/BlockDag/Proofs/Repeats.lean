/-
Blocks that are asked for more than once in handling one event. A block is asked for once for all that
are made wait for it, and that call stands for as long as somebody waits for the block or the store has
it. Any further call was left to others by a download that had asked for the block and was given up.
-/
import BlockDag.Proofs.Leftovers
import BlockDag.Proofs.Resident

namespace BlockDag.Downloader

variable {ω ν : Type} {W : World ω} {N : Outside ν} {rules : Rules} {Delivers : Bytes → Prop}
variable {world : MemoryStore × ν} {id : BlockId}

/-- `root` is made wait for the block `id` here. -/
def Moment.Awaits (root : RootId) (id : BlockId) (m : Moment ω) : Prop := ∃ ix, m.effect = .awaited root id ix

/-- Somebody is made wait for the block `id` here. -/
def Moment.Seeks (id : BlockId) (m : Moment ω) : Prop := ∃ root, m.Awaits root id

/-- The download of `root` ends here. -/
def Moment.Releases (root : RootId) (m : Moment ω) : Prop := ∃ session, m.effect = .released session root

/-- No root is marked here. -/
def Moment.Unmarked (m : Moment ω) : Prop := ∀ root outcome, m.effect ≠ .marked root outcome

theorem Moment.Early.unmarked {m : Moment ω} (h : m.Early) : m.Unmarked := by
  intro root outcome he
  simp [Moment.Early, he] at h

/-! ## Who asked for a block -/

/-- The download of `root` had asked for the block `id` at `r₀`, or was made wait for it since. -/
def AskedSince (id : BlockId) (root : RootId) (r₀ r : Run ω) : Prop :=
  (∃ d, r₀.state.roots.get? root = some d ∧ id ∈ d.descendants) ∨ Run.Shows (Moment.Awaits root id) r₀ r

theorem AskedSince.later {root : RootId} {r₀ r r' : Run ω} (h : AskedSince id root r₀ r) {Q : Moment ω → Prop}
    (hadds : Run.Adds Q r r') : AskedSince id root r₀ r' :=
  h.imp_right fun hshows => hshows.later hadds

/-- A download asks for a block only where its root is made wait for it. -/
structure Traced (r r' : Run ω) : Prop where
  grows : Run.Adds (fun _ => True) r r'
  asked : ∀ {root d id}, r'.state.roots.get? root = some d → id ∈ d.descendants → AskedSince id root r r'

namespace Traced

variable {r r' r'' : Run ω}

/-- Where the downloads at the end were there at the start, with all that they asked for. -/
theorem of_fewer (hgrows : Run.Adds (fun _ => True) r r')
    (h : ∀ {root d}, r'.state.roots.get? root = some d →
      ∃ d₀, r.state.roots.get? root = some d₀ ∧ d.descendants = d₀.descendants) : Traced r r' := by
  refine ⟨hgrows, fun {root d id} hd hid => ?_⟩
  obtain ⟨d₀, hd₀, heq⟩ := h hd
  exact .inl ⟨d₀, hd₀, heq ▸ hid⟩

theorem refl (r : Run ω) : Traced r r := .of_fewer (.refl rfl) fun hd => ⟨_, hd, rfl⟩

theorem trans (h : Traced r r') (h' : Traced r' r'') : Traced r r'' := by
  refine ⟨h.grows.trans h'.grows, fun {root d id} hd hid => ?_⟩
  rcases h'.asked hd hid with ⟨d', hd', hid'⟩ | hshows
  · exact (h.asked hd' hid').later h'.grows
  · exact .inr (.earlier h.grows hshows)

end Traced

theorem Step.traced {σ σ' : Stage} {r r' : Run ω} (hs : Step W rules σ r σ' r') : Traced r r' := by
  have hgrows := hs.trace
  cases hs with
  | logged | arranged | asked | announced | refused | found | missed | discarded | orphaned | fetched | settled | broke
  | spared | finished => exact .of_fewer hgrows fun hd => ⟨_, hd, rfl⟩
  | judged a awaiting p =>
    refine .of_fewer hgrows fun hd => ?_
    obtain ⟨d₀, hd₀, -, -, heq⟩ := (Pass.take_tuned W rules a awaiting p r).downloads hd
    exact ⟨d₀, hd₀, heq⟩
  | expanded child d hd =>
    refine ⟨hgrows, fun {root e id} he hid => ?_⟩
    rcases Table.get?_insert_eq_some_iff.1 he with ⟨rfl, rfl⟩ | ⟨-, he⟩
    · rcases Std.ExtTreeSet.mem_insert.1 hid with hid | hid
      · obtain rfl : child.id = id := Std.LawfulEqCmp.compare_eq_iff_eq.1 hid
        exact .inr (.emit ⟨child.position, rfl⟩)
      · exact .inl ⟨d, hd, hid⟩
    · exact .inl ⟨e, he, hid⟩
  | released => exact .of_fewer hgrows fun hd => ⟨_, (get?_of_dismiss hd).2, rfl⟩
  | completed =>
    refine .of_fewer hgrows fun hd => ?_
    obtain ⟨-, hd⟩ := get?_of_dismiss hd
    rw [mark_state] at hd
    exact ⟨_, hd, rfl⟩

theorem Leads.traced {σ σ' : Stage} {r r' : Run ω} (h : Leads W rules σ r σ' r') : Traced r r' := by
  induction h with
  | refl => exact .refl _
  | tail _ hs ih => exact ih.trans hs.traced

theorem Opening.traced {σ' : Stage} {r r' : Run ω} (ho : Opening W Delivers r σ' r') : Traced r r' := by
  cases ho with
  | launched root tag timeout =>
    have hlaunch := launch_trace root (r.call (W.setStatus root .part)).2 tag timeout
    refine ⟨⟨_, hlaunch, by simp⟩, fun {other d id} hd hid => ?_⟩
    rcases Table.get?_insert_eq_some_iff.1 hd with ⟨rfl, rfl⟩ | ⟨-, hd⟩
    · obtain rfl : root = id := by simpa [Download.start] using hid
      exact .inr ⟨_, hlaunch, by simp [Moment.Awaits]⟩
    · exact .inl ⟨d, hd, hid⟩
  | delivered => exact .refl r

theorem Proceeds.traced {σ' : Stage} {r r' : Run ω} (h : Proceeds W rules Delivers r σ' r') : Traced r r' := by
  cases h with
  | leads hl => exact hl.traced
  | opened hl ho hl' => exact hl.traced.trans (ho.traced.trans hl'.traced)

theorem Clears.traced {again again' : List BlockId} {r r' : Run ω} (h : Clears W again r again' r') : Traced r r' :=
  .of_fewer h.grows fun hd => ⟨_, h.fewer hd, rfl⟩

/-! ## What the calls are for -/

/-- How often `id` was asked for or is still to be asked for. -/
def spent (id : BlockId) (again : List BlockId) (r : Run ω) : Nat := (listed r.trace).count id + again.count id

/-- The block was asked for and is to be asked for at most `n` times since `r₀`, or once more for all that
were made wait for it since: that call stands while somebody waits for the block or the store has it. -/
def Paid (id : BlockId) (r₀ : Run (MemoryStore × ν)) (again : List BlockId) (r : Run (MemoryStore × ν)) (n : Nat) :
    Prop :=
  spent id again r ≤ spent id [] r₀ + n ∨
    Run.Shows (Moment.Seeks id) r₀ r ∧ (r.state.pending.Has id ∨ r.world.1.Holds id) ∧
      spent id again r ≤ spent id [] r₀ + n + 1

/-- The download of `root` ended since `r₀`, and had asked for the block `id`. -/
structure Departed (id : BlockId) (r₀ r : Run ω) (root : RootId) : Prop where
  out : r.state.roots.get? root = none
  ended : Run.Shows (Moment.Releases root) r₀ r
  asked : AskedSince id root r₀ r

theorem Departed.later {r₀ r r' : Run ω} {root : RootId} {Q : Moment ω → Prop} (h : Departed id r₀ r root)
    (hadds : Run.Adds Q r r') (hout : r'.state.roots.get? root = none) : Departed id r₀ r' root :=
  ⟨hout, h.ended.later hadds, h.asked.later hadds⟩

/-- Since `r₀` no root was marked, and the roots `gone` were given up, which had asked for the block. It was
asked for and is to be asked for only for these, but for the call that stands. -/
structure Tally (id : BlockId) (r₀ : Run (MemoryStore × ν)) (again : List BlockId) (r : Run (MemoryStore × ν))
    (gone : List RootId) : Prop where
  unmarked : Run.Adds Moment.Unmarked r₀ r
  nodup : gone.Nodup
  departed : ∀ root ∈ gone, Departed id r₀ r root
  paid : Paid id r₀ again r gone.length

/-- What was asked for since `r₀` and is still to be asked for is accounted for. -/
def Sparing (id : BlockId) (r₀ : Run (MemoryStore × ν)) (again : List BlockId) (r : Run (MemoryStore × ν)) : Prop :=
  ∃ gone, Tally id r₀ again r gone

/-- Where no download ends, only what was paid changes. -/
theorem Tally.keep {r₀ r r' : Run (MemoryStore × ν)} {again again' : List BlockId} {gone : List RootId}
    (h : Tally id r₀ again r gone) (hadds : Run.Adds Moment.Unmarked r r')
    (hout : ∀ {root}, r.state.roots.get? root = none → r'.state.roots.get? root = none)
    (hpaid : Paid id r₀ again' r' gone.length) : Tally id r₀ again' r' gone where
  unmarked := h.unmarked.trans hadds
  nodup := h.nodup
  departed root hroot := (h.departed root hroot).later hadds (hout (h.departed root hroot).out)
  paid := hpaid

namespace Sparing

variable {r₀ r r' : Run (MemoryStore × ν)} {again again' : List BlockId}

/-- Where no download ends and the block is not asked for any more than before. -/
theorem carry (h : Sparing id r₀ again r) (hadds : Run.Adds Moment.Unmarked r r')
    (hspent : spent id again' r' ≤ spent id again r)
    (hout : ∀ {root}, r.state.roots.get? root = none → r'.state.roots.get? root = none)
    (hstands : Run.Shows (Moment.Seeks id) r₀ r → r.state.pending.Has id ∨ r.world.1.Holds id →
      r'.state.pending.Has id ∨ r'.world.1.Holds id) : Sparing id r₀ again' r' := by
  obtain ⟨gone, h⟩ := h
  refine ⟨gone, h.keep hadds hout ?_⟩
  rcases h.paid with hpaid | ⟨hsought, hthere, hpaid⟩
  · exact .inl (hspent.trans hpaid)
  · exact .inr ⟨hsought.later hadds, hstands hsought hthere, hspent.trans hpaid⟩

/-- Where only the world outside the store changes, and no call is made. -/
theorem quiet (h : Sparing id r₀ again r) (hadds : Run.Adds (fun m => m.lists = [] ∧ m.Unmarked) r r')
    (hstate : r'.state = r.state) (hstore : r'.world.1 = r.world.1) : Sparing id r₀ again r' := by
  have hlisted := listed_of_adds (hadds.mono fun _ hm => hm.1)
  refine h.carry (hadds.mono fun _ hm => hm.2) ?_ ?_ ?_
  · rw [spent, hlisted, spent]
  · rw [hstate]
    exact fun hn => hn
  · rw [hstate, hstore]
    exact fun _ hthere => hthere

/-- At the start nothing was given up yet, and what is to be asked for was waited for since. -/
theorem of_early (h : Run.Adds Moment.Early r₀ r) (hagain : ∀ j ∈ again, again = [j] ∧
    Run.Shows (Moment.Seeks j) r₀ r ∧ r.state.pending.Has j) : Sparing id r₀ again r := by
  have hlisted := listed_of_adds (h.mono fun _ hm => hm.lists)
  have hspent : spent id again r = spent id [] r₀ + again.count id := by
    rw [spent, hlisted, spent, List.count_nil, Nat.add_zero]
  refine ⟨[], h.mono fun _ hm => hm.unmarked, .nil, by simp, ?_⟩
  by_cases hid : id ∈ again
  · obtain ⟨heq, hsought, hhas⟩ := hagain id hid
    refine .inr ⟨hsought, .inl hhas, ?_⟩
    rw [hspent, heq, List.count_singleton_self, List.length_nil, Nat.add_zero]
  · refine .inl ?_
    rw [hspent, List.count_eq_zero_of_not_mem hid, List.length_nil]

end Sparing

/-! ## Clearing away -/

section Clearing

variable {r₀ r r' : Run (MemoryStore × ν)} {again again' : List BlockId} {owed : List Child}

/-- A block that a download did not ask for is waited for by others, who wait for it still when that ends. -/
theorem has_dismiss {root : RootId} {d : Download} (hw : r.state.pending.WF) (hid : id ∉ d.descendants)
    (hhas : r.state.pending.Has id) : (dismiss root d r).state.pending.Has id := by
  obtain ⟨other, hne⟩ := (PendingIndex.has_iff_positions hw).1 hhas
  have hwaits : (dismiss root d r).state.pending.positions id other ≠ [] := by
    rw [dismiss_pending, PendingIndex.positions_removeRoot, if_neg]
    · exact hne
    · rintro ⟨-, hmem⟩
      exact hid (Std.ExtTreeSet.mem_toList.1 hmem)
  exact PendingIndex.has_of_positions hwaits

section Released

variable {root : RootId} {d : Download} {left : List BlockId}

theorem get?_dismiss_eq_none {other : RootId} (hn : r.state.roots.get? other = none) :
    (dismiss root d r).state.roots.get? other = none := by
  rw [dismiss_roots, Table.get?_erase, hn, ite_self]

theorem dismiss_unmarked : Run.Adds Moment.Unmarked r (dismiss root d r) :=
  dismiss_adds _ _ _ (by simp [Moment.Unmarked])

theorem spent_dismiss : spent id (left ++ again) (dismiss root d r) = left.count id + spent id again r := by
  have hlisted : listed (dismiss root d r).trace = listed r.trace :=
    listed_of_adds (dismiss_adds _ _ _ (Moment.lists_eq_nil (by simp)))
  rw [spent, spent, hlisted, List.count_append]
  omega

/-- A download that asked for the block, and ends, is one more for which it may be asked for. -/
theorem Tally.released {gone : List RootId} (h : Tally id r₀ again r gone) (hd : r.state.roots.get? root = some d)
    (hasked : AskedSince id root r₀ r) (hnodup : left.Nodup)
    (hleft : ∀ j ∈ left, (dismiss root d r).state.pending.Has j) :
    Tally id r₀ (left ++ again) (dismiss root d r) (root :: gone) := by
  refine ⟨h.unmarked.trans dismiss_unmarked, List.nodup_cons.2 ⟨?_, h.nodup⟩, ?_, ?_⟩
  · intro hroot
    have hout := (h.departed root hroot).out
    rw [hd] at hout
    cases hout
  · intro other hother
    rcases List.mem_cons.1 hother with rfl | hother
    · have hout : (dismiss other d r).state.roots.get? other = none := by
        rw [dismiss_roots, Table.get?_erase, if_pos rfl]
      exact ⟨hout, .earlier h.unmarked (.emit ⟨d.session, rfl⟩), hasked.later dismiss_unmarked⟩
    · have hdeparted := h.departed other hother
      exact hdeparted.later dismiss_unmarked (get?_dismiss_eq_none hdeparted.out)
  · have honce : left.count id ≤ 1 := List.nodup_iff_count_le_one.1 hnodup id
    rw [Paid, spent_dismiss, List.length_cons]
    rcases h.paid with hpaid | ⟨hsought, -, hpaid⟩
    · left
      omega
    · by_cases hmem : id ∈ left
      · exact .inr ⟨hsought.later dismiss_unmarked, .inl (hleft id hmem), by omega⟩
      · left
        rw [List.count_eq_zero_of_not_mem hmem]
        omega

/-- Ending a download leaves its blocks to the others, each once. -/
theorem Sparing.released (hb : Books rules owed r.state) (htraced : Traced r₀ r) (h : Sparing id r₀ again r)
    (hd : r.state.roots.get? root = some d) (hnodup : left.Nodup)
    (hleft : ∀ j ∈ left, j ∈ d.descendants ∧ (dismiss root d r).state.pending.Has j) :
    Sparing id r₀ (left ++ again) (dismiss root d r) := by
  by_cases hid : id ∈ d.descendants
  · obtain ⟨gone, h⟩ := h
    exact ⟨root :: gone, h.released hd (htraced.asked hd hid) hnodup fun j hj => (hleft j hj).2⟩
  · refine h.carry dismiss_unmarked ?_ get?_dismiss_eq_none fun _ hthere =>
      hthere.imp_left fun hhas => has_dismiss hb.pending hid hhas
    have hnone : left.count id = 0 := List.count_eq_zero_of_not_mem fun hmem => hid (hleft id hmem).1
    rw [spent_dismiss, hnone, Nat.zero_add]

end Released

theorem Clearing.sparing (h : Clearing (World.over MemoryStore.operations N) again r again' r')
    (hb : Books rules owed r.state) (htraced : Traced r₀ r) (hs : Sparing id r₀ again r) : Sparing id r₀ again' r' := by
  cases h with
  | logged | notified =>
    exact hs.quiet (.emit ⟨Moment.lists_eq_nil (by simp), by simp [Moment.Unmarked]⟩) rfl rfl
  | arranged => exact hs.quiet (.refl rfl) rfl rfl
  | released root d left hd hnodup hleft => exact hs.released hb htraced hd hnodup hleft
  | asked session blocks =>
    refine hs.carry (.cons rfl (by simp [Moment.Unmarked])) (Nat.le_of_eq ?_) (fun hn => hn) fun _ hthere => hthere
    have hlisted : listed (r.fetch (World.over MemoryStore.operations N) session blocks).2.trace =
        blocks ++ listed r.trace := rfl
    rw [spent, spent, hlisted, List.count_append, List.count_append]
    omega
  | dropped hsub =>
    exact hs.carry (.refl rfl) (Nat.add_le_add_left (hsub.count_le id) _) (fun hn => hn) fun _ hthere => hthere

theorem Clears.sparing (h : Clears (World.over MemoryStore.operations N) again r again' r')
    (hb : Books rules owed r.state) (htraced : Traced r₀ r) (hs : Sparing id r₀ again r) : Sparing id r₀ again' r' := by
  induction h with
  | refl => exact hs
  | tail hl hc ih => exact hc.sparing (hl.books hb) (htraced.trans hl.traced) ih

end Clearing

/-! ## Passes -/

section Pass

variable {r₀ r r' : Run (MemoryStore × ν)}

/-- A judged block is there as it was before: if somebody was made wait for it since, it is from the store. -/
theorem take_sparing {q : List Arrival} {w : List BlockId} {a : Arrival} {awaiting : Awaiting} {p : Pass}
    {again : List BlockId}
    (hr : Reached (World.over MemoryStore.operations N) rules Delivers world ⟨a :: q, [], w, [], []⟩ r)
    (ha : r.state.pending.get? a.id = some awaiting)
    (hlocal : a.received = false ∨ ¬ Run.Shows (Moment.Seeks id) r₀ r) (h : Sparing id r₀ again r) :
    Sparing id r₀ again (Pass.take (World.over MemoryStore.operations N) rules a awaiting p r).2.2 := by
  have hjudged : Step (World.over MemoryStore.operations N) rules ⟨a :: q, [], w, [], []⟩ r _ _ :=
    .judged a awaiting p ha
  have hle := take_le (World.over_memoryLike N) rules a awaiting p r
  have hunmarked : Run.Adds Moment.Unmarked r
      (Pass.take (World.over MemoryStore.operations N) rules a awaiting p r).2.2 := by
    refine (Pass.take_adds (World.over MemoryStore.operations N) rules a awaiting p r).mono ?_
    rintro m ⟨⟨e, he⟩ | ⟨awaiting', he⟩, -⟩
    · simp [Moment.Unmarked, he]
    · simp [Moment.Unmarked, he]
  refine h.carry hunmarked ?_ hjudged.get?_eq_none ?_
  · rw [spent, spent, listed_take]
  · intro hsought hthere
    have hresident := (hr.stock (World.over_memoryLike N)).resident a List.mem_cons_self
      (hlocal.resolve_right (not_not.2 hsought))
    rcases hthere with hhas | hholds
    · by_cases heq : id = a.id
      · subst heq
        exact .inr (hle.holds (MemoryStore.holds_iff.2 ⟨a.raw, hresident⟩))
      · rw [Pass.take_pending, PendingIndex.has_without]
        exact .inl ⟨heq, hhas⟩
    · exact .inr (hle.holds hholds)

section Expand

variable {again : List BlockId} {child : Child} {d : Download}

/-- No root goes out of flight where one is made wait for a child. -/
theorem get?_await_eq_none (hd : r.state.roots.get? child.root = some d) {root : RootId}
    (hn : r.state.roots.get? root = none) : (Pass.await child d r).state.roots.get? root = none := by
  rw [await_roots, Table.get?_insert, if_neg]
  · exact hn
  · rintro rfl
    rw [hn] at hd
    cases hd

theorem await_unmarked (child : Child) (d : Download) (r : Run (MemoryStore × ν)) :
    Run.Adds Moment.Unmarked r (Pass.await child d r) :=
  await_adds _ _ _ (by simp [Moment.Unmarked])

theorem await_sparing (h : Sparing id r₀ again r) (hd : r.state.roots.get? child.root = some d) :
    Sparing id r₀ again (Pass.await child d r) := by
  refine h.carry (await_unmarked child d r) ?_ (get?_await_eq_none hd) ?_
  · rw [spent, spent, listed_await]
  · intro _ hthere
    rw [await_pending, PendingIndex.has_insert]
    exact hthere.imp_left .inr

/-- A child that nobody waited for, and that is not in the store, is to be asked for. -/
theorem seek_sparing (h : Sparing id r₀ again r) (hd : r.state.roots.get? child.root = some d)
    (hnew : ¬ r.state.pending.Has child.id) (haway : ¬ r.world.1.Holds child.id) :
    Sparing id r₀ (again ++ [child.id]) (Pass.await child d r) := by
  have hspent : spent id (again ++ [child.id]) (Pass.await child d r) = spent id again r + [child.id].count id := by
    rw [spent, spent, listed_await, List.count_append, Nat.add_assoc]
  by_cases heq : child.id = id
  · subst heq
    rw [List.count_singleton_self] at hspent
    obtain ⟨gone, h⟩ := h
    -- no call stands, so that one more is not too many
    have hpaid := h.paid.resolve_right fun hc => hc.2.1.elim hnew haway
    refine ⟨gone, h.keep (await_unmarked child d r) (get?_await_eq_none hd) (.inr ⟨?_, ?_, ?_⟩)⟩
    · exact .earlier h.unmarked (.emit ⟨child.root, child.position, rfl⟩)
    · rw [await_pending, PendingIndex.has_insert]
      exact .inl (.inl rfl)
    · omega
  · refine (await_sparing h hd).carry (.refl rfl) ?_ (fun hn => hn) fun _ hthere => hthere
    rw [spent, List.count_append, List.count_singleton, if_neg (by simpa using heq), Nat.add_zero, spent]

theorem expand_sparing (child : Child) {p : Pass} (h : Sparing id r₀ p.wanted r) :
    Sparing id r₀ (Pass.expand (World.over MemoryStore.operations N) child p r).1.wanted
      (Pass.expand (World.over MemoryStore.operations N) child p r).2 := by
  unfold Pass.expand
  split
  · exact h
  · next d hd =>
    have hawait := await_sparing h hd
    dsimp only
    split
    · exact hawait
    · next hwaited =>
      have hnew : ¬ r.state.pending.Has child.id := by simpa using hwaited
      have hcall := Run.call_fst (Pass.await child d r) ((World.over MemoryStore.operations N).view child.id)
      have hlooked : ∀ {again}, Sparing id r₀ again (Pass.await child d r) → Sparing id r₀ again
          ((Pass.await child d r).call ((World.over MemoryStore.operations N).view child.id)).2 :=
        fun hs => hs.quiet (.refl rfl) rfl rfl
      rcases hc : (Pass.await child d r).call ((World.over MemoryStore.operations N).view child.id) with ⟨outcome, r₁⟩
      rw [hc] at hcall hlooked
      dsimp only at hcall hlooked
      rcases outcome with (e | raw)
      · have haway : ¬ r.world.1.Holds child.id := by
          intro hholds
          obtain ⟨raw, hraw⟩ := MemoryStore.holds_iff.1 hholds
          exact absurd (hcall.trans hraw) (by simp)
        have hsought := hlooked (seek_sparing h hd hnew haway)
        cases e with
        | notFound => exact hsought
        | statusConflict | backend =>
          exact hsought.quiet (.emit ⟨Moment.lists_eq_nil (by simp), by simp [Moment.Unmarked]⟩) rfl rfl
      · exact hlooked hawait

theorem expandAll_sparing (children : List Child) {p : Pass} (h : Sparing id r₀ p.wanted r) :
    Sparing id r₀ (Pass.expandAll (World.over MemoryStore.operations N) children p r).1.wanted
      (Pass.expandAll (World.over MemoryStore.operations N) children p r).2 := by
  induction children generalizing p r with
  | nil => exact h
  | cons child children ih => exact ih (expand_sparing child h)

end Expand

/-- Before a round, the blocks to be asked for are accounted for; and none to be judged is from the network,
unless nobody was made wait for the block `id` yet. -/
structure Pass.Settling (N : Outside ν) (rules : Rules) (id : BlockId) (r₀ : Run (MemoryStore × ν)) (p : Pass)
    (r : Run (MemoryStore × ν)) : Prop where
  course : Proceeds (World.over MemoryStore.operations N) rules (fun _ => True) r₀ ⟨p.queue, [], p.wanted, [], []⟩ r
  sparing : Sparing id r₀ p.wanted r
  stocked : (∀ a ∈ p.queue, a.received = false) ∨ ¬ Run.Shows (Moment.Seeks id) r₀ r

theorem Pass.Settling.next {p p' : Pass}
    (hr : Reached (World.over MemoryStore.operations N) rules (fun _ => True) world .idle r₀)
    (h : Pass.Settling N rules id r₀ p r)
    (hn : Pass.next (World.over MemoryStore.operations N) rules p r = some (p', r')) :
    Pass.Settling N rules id r₀ p' r' := by
  have hr₁ := hr.proceeds h.course
  have hcourse := h.course.more (next_leads hr₁.inOrder hn).1
  obtain ⟨a, queue, hq, ⟨-, rfl, rfl⟩ | ⟨awaiting, ha, hh⟩⟩ := next_cases hn
  · exact ⟨hcourse, h.sparing, h.stocked.imp_left fun hl b hb => hl b (hq ▸ List.mem_cons_of_mem _ hb)⟩
  have hlocal := h.stocked.imp_left fun hl => hl a (hq ▸ List.mem_cons_self)
  have hcourse₁ := h.course
  rw [hq] at hr₁ hcourse₁
  have hjudged : Step (World.over MemoryStore.operations N) rules ⟨a :: queue, [], p.wanted, [], []⟩ r _ _ :=
    .judged a awaiting { p with queue } ha
  have hafter := handle_leads_after (p := { p with queue }) hr₁.inOrder rfl ha hh
  have htaken : Sparing id r₀ p.wanted _ := take_sparing (p := { p with queue }) hr₁ ha hlocal h.sparing
  obtain ⟨r₁, hclears, -, hexpand⟩ := handle_clears hh
  have hcleared := (hclears p.wanted).sparing (hr₁.step hjudged).books (hcourse₁.step hjudged).traced htaken
  have hpass : (Pass.take (World.over MemoryStore.operations N) rules a awaiting { p with queue } r).2.1.wanted =
      p.wanted := (resolveAll_pass _ _ _).2
  have hexpanded := expandAll_sparing (N := N)
    (Pass.take (World.over MemoryStore.operations N) rules a awaiting { p with queue } r).1.children
    (p := (Pass.take (World.over MemoryStore.operations N) rules a awaiting { p with queue } r).2.1)
    (hpass.symm ▸ hcleared)
  rw [hexpand] at hexpanded
  refine ⟨hcourse, hexpanded, .inl (hafter.keeps_blocks fun b hb => ?_).2⟩
  -- what is queued behind another block is from the store
  exact Bool.eq_false_iff.2 (hr₁.sought.not_received hb)

end Pass

/-! ## The end of an event -/

section Finish

variable {r₀ r : Run (MemoryStore × ν)}

/-- No call is made here, and no root is marked but one that was in flight at `r`. -/
def Moment.Concludes (r : Run ω) (m : Moment ω) : Prop :=
  m.lists = [] ∧ ∀ root outcome, m.effect = .marked root outcome → r.state.InFlight root

/-- A root that completes leaves nothing behind to ask for: all its blocks are in the store. -/
theorem Reached.complete_concludes (hr : Reached (World.over MemoryStore.operations N) rules Delivers world .idle r)
    {root : RootId} {d : Download} (hd : r.state.roots.get? root = some d) (hc : d.Complete) :
    Run.Adds (Moment.Concludes r) r (complete (World.over MemoryStore.operations N) root r) := by
  refine (complete_of_free (World.over MemoryStore.operations N) hd ?_).mono ?_
  · intro j hj hhas
    have hwaited := PendingIndex.has_of_has_removeRoot hr.books.pending hhas
    exact hr.sought.not_holds_of_idle hwaited (hr.holds_of_complete hd hc hj)
  · rintro m ⟨hsilent, hmarks⟩
    refine ⟨Moment.lists_eq_nil fun call he => hsilent ⟨call, he⟩, fun other outcome he => ?_⟩
    rw [hmarks other outcome he]
    exact State.inFlight_iff.2 ⟨_, State.runs_iff.2 ⟨d, hd, rfl⟩⟩

theorem Reached.completeAll_concludes (hr : Reached (World.over MemoryStore.operations N) rules Delivers world .idle r)
    (roots : List RootId) :
    Run.Adds (Moment.Concludes r) r (Pass.completeAll (World.over MemoryStore.operations N) roots r) := by
  induction roots generalizing r with
  | nil => exact .refl rfl
  | cons root roots ih =>
    rw [Pass.completeAll]
    cases hd : r.state.roots.get? root with
    | none => exact ih hr
    | some d =>
      dsimp only
      split
      · next hc =>
        have hlead := complete_leads (W := World.over MemoryStore.operations N) hr.inOrder hd hc
        refine (hr.complete_concludes hd hc).trans ((ih (hr.leads hlead)).mono ?_)
        rintro m ⟨hsilent, hmarks⟩
        refine ⟨hsilent, fun other outcome he => ?_⟩
        by_contra hout
        have hnone := hlead.get?_eq_none (State.not_inFlight_iff.1 hout)
        exact State.not_inFlight_iff.2 hnone (hmarks other outcome he)
      · exact ih hr

theorem finish_sparing {p : Pass}
    (hr : Reached (World.over MemoryStore.operations N) rules Delivers world ⟨[], [], p.wanted, [], []⟩ r)
    (htraced : Traced r₀ r) (h : Sparing id r₀ p.wanted r) :
    ∃ r₁, Sparing id r₀ [] r₁ ∧
      Run.Adds (Moment.Concludes r₁) r₁ (p.finish (World.over MemoryStore.operations N) r) := by
  have hclears := refetch_clears (World.over MemoryStore.operations N) p.wanted [] r
  rw [List.append_nil] at hclears
  have hasked := hclears.sparing hr.books htraced h
  have hidle := hr.leads (refetch_leads (w := []) hr.inOrder)
  exact ⟨((refetch _ p.wanted r).call ((World.over MemoryStore.operations N).arrange p.touched)).2,
    hasked.quiet (.refl rfl) rfl rfl, (hidle.step (.arranged p.touched)).completeAll_concludes _⟩

theorem process_sparing {a : Arrival}
    (hr : Reached (World.over MemoryStore.operations N) rules (fun _ => True) world .idle r₀)
    (hcourse : Proceeds (World.over MemoryStore.operations N) rules (fun _ => True) r₀ ⟨[a], [], [], [], []⟩ r)
    (h : Sparing id r₀ [] r) (hfirst : a.received = false ∨ ¬ Run.Shows (Moment.Seeks id) r₀ r) :
    ∃ r₁, Sparing id r₀ [] r₁ ∧
      Run.Adds (Moment.Concludes r₁) r₁ (process (World.over MemoryStore.operations N) rules a r) := by
  have hstart : Pass.Settling N rules id r₀ (Pass.start a) r := by
    refine ⟨hcourse, h, hfirst.imp_left fun hl b hb => ?_⟩
    rw [List.mem_singleton.1 hb]
    exact hl
  have hend := Pass.rounds_next (C := Pass.Settling N rules id r₀) (fun h hn => h.next hr hn)
    (Pass.roundBound r.state) hstart
  have hin := (hr.proceeds hcourse).inOrder
  have hrounds := hcourse.more (rounds_leads (W := World.over MemoryStore.operations N) (Pass.roundBound r.state)
    (Pass.start a) r hin (hin.books.potential_le (Nat.le_refl 1)))
  exact finish_sparing (hr.proceeds hrounds) hrounds.traced hend.sparing

/-- Handling an event, all that is asked for is accounted for at last, and only then roots complete. -/
theorem Reached.handle_sparing
    (hr : Reached (World.over MemoryStore.operations N) rules (fun _ => True) world .idle r) (event : Event)
    (id : BlockId) :
    ∃ r₁, Sparing id r [] r₁ ∧
      Run.Adds (Moment.Concludes r₁) r₁ (handle (World.over MemoryStore.operations N) rules event r) := by
  have hresponse := handle_response (World.over MemoryStore.operations N) rules event r fun _ => trivial
  generalize handle (World.over MemoryStore.operations N) rules event r = r' at hresponse
  cases hresponse with
  | pass hbegins hcourse hearly =>
    refine process_sparing hr hcourse (.of_early hearly (by simp)) ?_
    cases hbegins with
    | delivered =>
      -- the event begins with the block, so that nothing was done before
      right
      rintro ⟨new, hnew, m, hm, -⟩
      rw [List.self_eq_append_left.1 hnew] at hm
      cases hm
    | found => exact .inl rfl
  | @asks root r₁ hcourse hhas hearly hawaited =>
    have hclears := fetch_clears (World.over MemoryStore.operations N) [root] [] r₁
    refine ⟨_, hclears.sparing (hr.proceeds hcourse).books hcourse.traced (.of_early hearly ?_), .refl rfl⟩
    intro j hj
    rw [List.mem_singleton.1 hj]
    exact ⟨rfl, hawaited.mono fun m he => ⟨root, 0, he⟩, hhas⟩
  | @frees r₁ root hcourse hearly =>
    have hclears := free_clears (World.over MemoryStore.operations N) [] root r₁
    exact ⟨_, hclears.sparing (hr.proceeds hcourse).books hcourse.traced (.of_early hearly (by simp)), .refl rfl⟩
  | rests _ hearly => exact ⟨_, .of_early hearly (by simp), .refl rfl⟩

end Finish

/-- In the course of `new`, after the state `s`, the download of `root` ends and does not complete, and before
it had asked for the block `id`. -/
structure GivenUp (id : BlockId) (s : State) (new : List (Moment ω)) (root : RootId) : Prop where
  asked : (∃ d, s.roots.get? root = some d ∧ id ∈ d.descendants) ∨ ∃ m ∈ new, m.Awaits root id
  ended : ∃ m ∈ new, m.Releases root
  unmarked : ∀ m ∈ new, ∀ outcome, m.effect ≠ .marked root outcome

/-- In the course of `new`, after the state `s`, every block is asked for at most once for all that are made
wait for it, if any are, and once for each root given up that had asked for it. -/
def Excused (s : State) (new : List (Moment ω)) : Prop :=
  ∀ id, ∃ roots : List RootId, roots.Nodup ∧ (∀ root ∈ roots, GivenUp id s new root) ∧
    ((listed new).count id ≤ roots.length ∨ (∃ m ∈ new, m.Seeks id) ∧ (listed new).count id ≤ roots.length + 1)

/-- What was accounted for stays so while roots complete. -/
theorem Sparing.excused {r₀ r r' : Run (MemoryStore × ν)} {new : List (Moment (MemoryStore × ν))}
    (h : Sparing id r₀ [] r) (hend : Run.Adds (Moment.Concludes r) r r') (hnew : r'.trace = new ++ r₀.trace) :
    ∃ roots : List RootId, roots.Nodup ∧ (∀ root ∈ roots, GivenUp id r₀.state new root) ∧
      ((listed new).count id ≤ roots.length ∨ (∃ m ∈ new, m.Seeks id) ∧ (listed new).count id ≤ roots.length + 1) := by
  obtain ⟨gone, h⟩ := h
  have hcount : (listed r.trace).count id = (listed new).count id + (listed r₀.trace).count id := by
    rw [← listed_of_adds (hend.mono fun _ hm => hm.1), hnew, ← List.count_append]
    exact congrArg _ List.flatMap_append
  refine ⟨gone, h.nodup, fun root hroot => ⟨?_, ?_, ?_⟩, ?_⟩
  · exact ((h.departed root hroot).asked.later hend).imp_right fun hshows => (Run.Does.of_shows hshows).holds hnew
  · exact (Run.Does.of_shows ((h.departed root hroot).ended.later hend)).holds hnew
  · -- a root that is out of flight does not complete
    have hunmarked : Run.Adds (fun m => ∀ outcome, m.effect ≠ .marked root outcome) r₀ r' := by
      refine (h.unmarked.mono fun m hm => hm root).trans (hend.mono fun m hm outcome he => ?_)
      exact State.not_inFlight_iff.2 (h.departed root hroot).out (hm.2 root outcome he)
    exact (Run.Does.of_adds hunmarked).holds hnew
  · have hpaid := h.paid
    simp only [Paid, spent, List.count_nil] at hpaid
    rcases hpaid with hpaid | ⟨hsought, -, hpaid⟩
    · left
      omega
    · exact .inr ⟨(Run.Does.of_shows (hsought.later hend)).holds hnew, by omega⟩

namespace Past

variable (past : Past ω)

theorem effect_eq_awaited_iff {e : Effect} {root : RootId} {ix : Nat} :
    past.effect e = .awaited root id ix ↔ e = .awaited root id ix := by
  cases e <;> simp [effect]

theorem effect_eq_marked_iff {e : Effect} {root : RootId} {outcome : Except StoreError Unit} :
    past.effect e = .marked root outcome ↔ e = .marked root outcome := by
  cases e <;> simp [effect]

theorem givenUp {s : State} {new : List (Moment ω)} {root : RootId} (h : GivenUp id s new root) :
    GivenUp id (past.state s) (new.map past.moment) root := by
  refine ⟨h.asked.imp ?_ ?_, ?_, ?_⟩
  · rintro ⟨d, hd, hid⟩
    exact ⟨past.download d, (past.get?_map s.roots root).trans (by rw [hd]; rfl), hid⟩
  · rintro ⟨m, hm, ix, he⟩
    exact ⟨past.moment m, List.mem_map_of_mem hm, ix, past.effect_eq_awaited_iff.2 he⟩
  · obtain ⟨m, hm, session, he⟩ := h.ended
    refine ⟨past.moment m, List.mem_map_of_mem hm, past.opened + session, ?_⟩
    change past.effect m.effect = _
    rw [he]
    rfl
  · intro m hm outcome he
    obtain ⟨m₀, hm₀, rfl⟩ := List.mem_map.1 hm
    exact h.unmarked m₀ hm₀ outcome (past.effect_eq_marked_iff.1 he)

theorem listed_map (new : List (Moment ω)) : listed (new.map past.moment) = listed new := by
  rw [listed, List.flatMap_map, listed]
  exact congrArg (List.flatMap · new) (funext past.lists)

theorem excused {s : State} {new : List (Moment ω)} (h : Excused s new) :
    Excused (past.state s) (new.map past.moment) := by
  intro id
  obtain ⟨roots, hnodup, hgiven, hcount⟩ := h id
  rw [past.listed_map]
  refine ⟨roots, hnodup, fun root hroot => past.givenUp (hgiven root hroot), hcount.imp_right ?_⟩
  rintro ⟨⟨m, hm, root, ix, he⟩, hcount⟩
  exact ⟨⟨past.moment m, List.mem_map_of_mem hm, root, ix, past.effect_eq_awaited_iff.2 he⟩, hcount⟩

end Past

/-- In every lifetime over a store in memory, and whatever an event brings, a block is asked for in handling
it, in all calls together and whatever their sessions, at most once for all that are made wait for it in this
event, and once for each root that is given up in this event and had asked for the block. -/
theorem repeats_excused (N : Outside ν) (rules : Rules) (commands : List Command) (world : MemoryStore × ν)
    (event : Event) :
    Run.Does (Excused (lifetime (World.over MemoryStore.operations N) rules commands world).state)
      (lifetime (World.over MemoryStore.operations N) rules commands world)
      (handle (World.over MemoryStore.operations N) rules event
        (lifetime (World.over MemoryStore.operations N) rules commands world)) := by
  refine lifetime_handle (fun s id => ⟨[], .nil, by simp, by simp [listed]⟩) ?_ (fun past _ _ => past.excused) N
    commands world event
  intro N events world event
  have hr : Reached (World.over MemoryStore.operations N) rules (fun _ => True) world .idle
      (history (World.over MemoryStore.operations N) rules events world) := play_reached .start fun _ => trivial
  have hresponse := handle_response (World.over MemoryStore.operations N) rules event
    (history (World.over MemoryStore.operations N) rules events world) fun _ => trivial
  have hcourse := hresponse.proceeds hr.inOrder
  obtain ⟨new, hnew, -⟩ := hcourse.traced.grows
  refine ⟨new, hnew, fun id => ?_⟩
  obtain ⟨r₁, hsparing, hend⟩ := hr.handle_sparing event id
  exact hsparing.excused hend hnew

/-! ## A block that is asked for twice in one call -/

/-- The twig below two trees, the first leaf of which cannot be asked for. -/
def refused : Bytes := twig (.of [0]) (.of [1])

/-- Three trees wait for the same block, and two of them for the twig as well, which comes in. -/
def crowded : Run (MemoryStore × Simulation.Refusals) :=
  lifetime (World.over MemoryStore.operations Simulation.Refusals.outside) Sample.rules
    [.event (.kickoff (.of (crown 139 (.of [2]) (.of [3]))) .blockBody),
      .event (.delivered (.of (crown 139 (.of [2]) (.of [3]))) (crown 139 (.of [2]) (.of [3]))),
      .event (.kickoff (.of (crown 213 (.of refused) (.of [2]))) .blockBody),
      .event (.delivered (.of (crown 213 (.of refused) (.of [2]))) (crown 213 (.of refused) (.of [2]))),
      .event (.kickoff (.of (crown 212 (.of refused) (.of [2]))) .blockBody),
      .event (.delivered (.of (crown 212 (.of refused) (.of [2]))) (crown 212 (.of refused) (.of [2]))),
      .event (.delivered (.of refused) refused)] (.empty, ⟨false, [.of [0]], false⟩)

/-- The call for the leaves is refused and both trees are given up. Each leaves the block to the third, and
one call lists it twice. -/
theorem block_asked_for_twice : ∃ m ∈ crowded.trace, m.lists = [.of [2], .of [2]] := by
  decide +kernel

end BlockDag.Downloader
