/-
Downloads do not get into each other's way. Had a root never been asked for, a block that comes in would
do to every other root the same, whether it makes the one root complete, malformed or neither: what
becomes of a download is what its prospect says, and that says nothing of other downloads. What differs
is who looks a block up or asks for it, and how often it is asked for.
-/
import BlockDag.Proofs.Prospect
import BlockDag.Proofs.Restart

namespace BlockDag.Downloader

variable {ν : Type} {N N' : Outside ν} {rules : Rules} {start : MemoryStore}
variable {r r₁ r₂ : Run (MemoryStore × ν)} {root other : RootId} {n : ν}

/-! ## A root taken out -/

/-- The state with `root` taken out: without its download, and without any of its positions in the index. -/
def State.without (root : RootId) (s : State) : State :=
  { s with roots := s.roots.erase root, pending := s.pending.removeRoot root s.pending.entries.keys }

/-- The run with `root` taken out of its state. The store stays as it is, and the outside goes on as `n`. -/
def Run.without (root : RootId) (n : ν) (r : Run (MemoryStore × ν)) : Run (MemoryStore × ν) :=
  ⟨(r.world.1, n), r.state.without root, r.trace⟩

section Without

variable {s : State}

theorem State.get?_without (h : root ≠ other) : (s.without root).roots.get? other = s.roots.get? other := by
  rw [State.without, Table.get?_erase, if_neg h]

theorem State.positions_without (h : root ≠ other) (id : BlockId) :
    (s.without root).pending.positions id other = s.pending.positions id other := by
  rw [State.without, PendingIndex.positions_removeRoot, if_neg fun hc => h hc.1]

theorem State.waits_without (h : root ≠ other) : ((s.without root).pending.waits other).Perm (s.pending.waits other) :=
  PendingIndex.waits_removeRoot_of_ne h _

theorem Books.without (h : Books rules [] s) (root : RootId) : Books rules [] (s.without root) :=
  h.drop fun _ hne => Std.ExtTreeMap.mem_keys.2 (PendingIndex.has_of_positions hne)

theorem Sessions.without (h : Sessions s) (root : RootId) : Sessions (s.without root) :=
  h.carry rfl rfl rfl fun hd => ⟨_, (Table.get?_erase_eq_some_iff.1 hd).2, rfl⟩

theorem State.Busy.without (h : s.Busy) (root : RootId) : (s.without root).Busy :=
  fun other d hd => h other d (Table.get?_erase_eq_some_iff.1 hd).2

end Without

/-- All is in order without `root` too. -/
theorem Intact.without {Delivers : Bytes → Prop} (h : Intact rules Delivers start .idle r) (root : RootId) (n : ν) :
    Intact rules Delivers start .idle (r.without root n) where
  books := h.books.without root
  sessions := h.sessions.without root
  ledger := by
    refine h.ledger.carry h.sessions (.refl rfl) rfl ?_
    intro other d hd
    obtain ⟨hne, hd⟩ := Table.get?_erase_eq_some_iff.1 hd
    exact ⟨hd, ((State.waits_without hne).map Prod.snd).symm, rfl, id⟩
  sought := ⟨fun hp => h.sought.resident (PendingIndex.has_of_has_removeRoot h.books.pending hp), h.sought.alone⟩
  stock := ⟨h.stock.origin, h.stock.received, h.stock.resident,
    fun hd => h.stock.part (Table.get?_erase_eq_some_iff.1 hd).2⟩

/-- The others keep their prospects. -/
theorem Prospect.Of.without {c : Prospect} (hc : c.Of other r) (h : root ≠ other) (n : ν) :
    c.Of other (r.without root n) where
  download := (State.get?_without h).trans hc.download
  positions id := (State.positions_without h id).trans (hc.positions id)
  store := hc.store

/-! ## Two runs -/

/-- Two runs leave `root` alike: with the same download, if it is in flight, waiting for the same, and
with the same news. -/
structure Agree (root : RootId) (r r' : Run (MemoryStore × ν)) : Prop where
  download : r'.state.roots.get? root = r.state.roots.get? root
  waits : (r'.state.pending.waits root).Perm (r.state.pending.waits root)
  news : newsOf root r'.trace = newsOf root r.trace

/-- A root that is in flight after neither run waits for nothing after both. -/
theorem Agree.of_out (hb : Books rules [] r₁.state) (hb' : Books rules [] r₂.state)
    (hout : r₁.state.roots.get? root = none) (hout' : r₂.state.roots.get? root = none)
    (hnews : newsOf root r₂.trace = newsOf root r₁.trace) : Agree root r₁ r₂ where
  download := hout'.trans hout.symm
  waits := by rw [hb.waits_eq_nil hout, hb'.waits_eq_nil hout']
  news := hnews

/-- What becomes of a prospect is decided. -/
theorem Outcome.agree {c : Prospect} {r' : Run (MemoryStore × ν)} (hb : Books rules [] r₁.state)
    (hb' : Books rules [] r₂.state) (h : Outcome rules c root r r₁) (h' : Outcome rules c root r' r₂)
    (hnews : newsOf root r'.trace = newsOf root r.trace) : Agree root r₁ r₂ := by
  cases h with
  | continues d h =>
    cases h' with
    | continues d' h' =>
      have hwaits : (r₂.state.pending.waits root).Perm (r₁.state.pending.waits root) := by
        rw [List.perm_ext_iff_of_nodup h'.nodup h.nodup]
        rintro ⟨id, ix⟩
        rw [PendingIndex.mem_waits, PendingIndex.mem_waits, h'.positions, h.positions]
      have hcount : d'.outstanding = d.outstanding := by
        rw [hb'.account h'.download, hb.account h.download, hwaits.length_eq]
      refine ⟨?_, hwaits, by rw [h'.news, hnews, h.news]⟩
      rw [h'.download, h.download, h'.becomes.unique h.becomes hcount]
    | completed _ hnothing =>
      obtain ⟨id, ix, hleaves⟩ := h.leaves
      exact absurd hleaves (hnothing id ix)
    | broken _ hrejected => exact absurd hrejected h.kept
  | completed hout hnothing hkept hnews₁ =>
    cases h' with
    | continues _ h' =>
      obtain ⟨id, ix, hleaves⟩ := h'.leaves
      exact absurd hleaves (hnothing id ix)
    | completed hout' _ _ hnews₂ => exact .of_out hb hb' hout hout' (by rw [hnews₂, hnews, hnews₁])
    | broken _ hrejected => exact absurd hrejected hkept
  | broken hout hrejected hnews₁ =>
    cases h' with
    | continues _ h' => exact absurd hrejected h'.kept
    | completed _ _ hkept => exact absurd hrejected hkept
    | broken hout' _ hnews₂ => exact .of_out hb hb' hout hout' (by rw [hnews₂, hnews, hnews₁])

/-- A block leaves a root that is not in flight as it is. -/
theorem deliver_out (W : World (MemoryStore × ν)) (rules : Rules) (id : BlockId) (raw : Bytes)
    (hout : r.state.roots.get? root = none) : (deliver W rules id raw r).state.roots.get? root = none ∧
      newsOf root (deliver W rules id raw r).trace = newsOf root r.trace := by
  rw [← State.not_inFlight_iff] at hout ⊢
  cases deliver_passes W root rules id raw r with
  | stays hstays =>
    obtain ⟨new, htrace, haside⟩ := hstays.aside
    refine ⟨fun hin => hout (hstays.inFlight_iff.1 hin), ?_⟩
    rw [htrace, newsOf_aside_append haside]
  | departs hdeparts => exact absurd hdeparts.before hout

theorem deliver_grows (W : World (MemoryStore × ν)) (rules : Rules) (id : BlockId) (raw : Bytes)
    (r : Run (MemoryStore × ν)) : Run.Adds (fun _ => True) r (deliver W rules id raw r) := by
  have hlasts : Lasts id r (handle W rules (.delivered id raw) r) := handle_lasts id rules (by simp) r
  exact hlasts.grows

theorem deliver_books (W : World (MemoryStore × ν)) (id : BlockId) (raw : Bytes) (hb : Books rules [] r.state) :
    Books rules [] (deliver W rules id raw r).state := by
  unfold deliver
  split
  · exact InOrder.books (InOrder.leads (σ := ⟨[⟨id, raw, true⟩], [], [], [], []⟩) hb (process_leads hb))
  · exact hb

/-- A block does to the others what it would do had `root` been taken out. -/
theorem Intact.agree (h : Intact rules (fun _ => True) start .idle r) (hbusy : r.state.Busy) (hne : root ≠ other)
    (n : ν) (id : BlockId) (raw : Bytes)
    (haccepted : Run.Adds Moment.Accepted r (deliver (World.over MemoryStore.operations N) rules id raw r))
    (haccepted' : Run.Adds Moment.Accepted (r.without root n)
      (deliver (World.over MemoryStore.operations N') rules id raw (r.without root n))) :
    Agree other (deliver (World.over MemoryStore.operations N) rules id raw r)
      (deliver (World.over MemoryStore.operations N') rules id raw (r.without root n)) := by
  have h' := h.without root n
  have hb := deliver_books (World.over MemoryStore.operations N) id raw h.books
  have hb' := deliver_books (World.over MemoryStore.operations N') id raw h'.books
  have hsame : (r.without root n).state.roots.get? other = r.state.roots.get? other := State.get?_without hne
  cases hd : r.state.roots.get? other with
  | none =>
    obtain ⟨hout, hnews⟩ := deliver_out (World.over MemoryStore.operations N) rules id raw hd
    obtain ⟨hout', hnews'⟩ := deliver_out (World.over MemoryStore.operations N') rules id raw (hsame.trans hd)
    exact .of_out hb hb' hout hout' (hnews'.trans hnews.symm)
  | some d =>
    unfold deliver at hb hb' haccepted haccepted' ⊢
    by_cases hn : id.Names raw
    · rw [if_pos hn] at hb hb' haccepted haccepted' ⊢
      rw [if_pos hn]
      -- one prospect decides on both runs
      obtain ⟨c, harrival, hc⟩ := h.exists_prospect hd id raw
      obtain ⟨rfl, rfl⟩ : c.id = id ∧ c.raw = raw := ⟨congrArg Arrival.id harrival, congrArg Arrival.raw harrival⟩
      exact (hc.outcome h hbusy hn trivial N haccepted).agree hb hb'
        ((hc.without hne n).outcome h' (hbusy.without root) hn trivial N' haccepted') rfl
    · rw [if_neg hn, if_neg hn]
      exact ⟨hsame, State.waits_without hne, rfl⟩

/-! ## After a shutdown -/

section Past

variable (past : Past (MemoryStore × ν))

theorem Past.run_without (root : RootId) (n : ν) (r : Run (MemoryStore × ν)) :
    (past.run r).without root n = past.run (r.without root n) := by
  unfold Run.without Past.run Past.state State.without
  simp only [past.erase_map]

theorem Past.accepted_iff {m : Moment (MemoryStore × ν)} : (past.moment m).Accepted ↔ m.Accepted := by
  unfold Moment.Accepted Past.moment Past.effect
  cases m.effect <;> rfl

theorem Past.newsOf_run (root : RootId) (r : Run (MemoryStore × ν)) :
    newsOf root (past.run r).trace = newsOf root r.trace ++ newsOf root past.trace := by
  have hmoment : ∀ m : Moment (MemoryStore × ν), (past.moment m).effect.newsOf? root = m.effect.newsOf? root := by
    intro m
    unfold Past.moment Past.effect
    cases m.effect <;> rfl
  unfold newsOf Past.run
  rw [List.filterMap_append, List.filterMap_map]
  simp only [Function.comp_def, hmoment]

theorem Agree.run {root : RootId} (h : Agree root r₁ r₂) : Agree root (past.run r₁) (past.run r₂) where
  download := by rw [past.get?_run, past.get?_run, h.download]
  waits := h.waits
  news := by rw [past.newsOf_run, past.newsOf_run, h.news]

end Past

/-- In every lifetime over a store in memory that only the downloader changes, a block from the network,
as long as no call for blocks is refused, leaves every root alike, whether another root is there or was
taken out of the state before. -/
theorem others_unaffected (N N' : Outside ν) (rules : Rules) (commands : List Command) (world : MemoryStore × ν)
    {r : Run (MemoryStore × ν)} (hr : r = lifetime (World.over MemoryStore.operations N) rules commands world)
    (hne : root ≠ other) (n : ν) (id : BlockId) (raw : Bytes)
    (haccepted : Run.Adds Moment.Accepted r
      (handle (World.over MemoryStore.operations N) rules (.delivered id raw) r))
    (haccepted' : Run.Adds Moment.Accepted (r.without root n)
      (handle (World.over MemoryStore.operations N') rules (.delivered id raw) (r.without root n))) :
    Agree other (handle (World.over MemoryStore.operations N) rules (.delivered id raw) r)
      (handle (World.over MemoryStore.operations N') rules (.delivered id raw) (r.without root n)) := by
  -- the outside may deliver any bytes
  have hintact : ∀ (N : Outside ν) events world, Intact rules (fun _ => True) world.1 .idle
      (history (World.over MemoryStore.operations N) rules events world) :=
    fun N events world => (play_reached .start fun _ => trivial).intact
  simp only [handle] at haccepted haccepted' ⊢
  rcases lifetime_cases (World.over MemoryStore.operations N) rules commands world with ⟨events, heq⟩ |
    ⟨past, events, world', heq⟩
  · rw [heq] at hr
    subst hr
    exact (hintact N events world).agree (history_busy _ rules events world) hne n id raw haccepted haccepted'
  · rw [heq, World.over_after] at hr
    subst hr
    have hbusy := history_busy (World.over MemoryStore.operations (N.after past.opened)) rules events world'
    have hintact := hintact (N.after past.opened) events world'
    generalize history (World.over MemoryStore.operations (N.after past.opened)) rules events world' = r at *
    rw [past.run_without] at haccepted' ⊢
    -- both runs are those of a new downloader over the same store
    simp only [past.deliver, World.over_after] at haccepted haccepted' ⊢
    rw [past.adds_iff (deliver_grows _ rules id raw _)] at haccepted haccepted'
    simp only [past.accepted_iff] at haccepted haccepted'
    exact (hintact.agree hbusy hne n id raw haccepted haccepted').run past

/-- A root whose second leaf is shorter than its first, and that names one block as both. -/
def crooked : Bytes :=
  Bytes.ofNat linkCountSize 2 ++
    (common.bytes ++ common.bytes ++ (Bytes.ofNat lengthHeaderSize 109 ++ [DataTag.blockBody.byte]))

/-- It comes in, and so do another root with the same first leaf and the second leaf of that. -/
def converging : List Event :=
  [.kickoff (.of crooked) .blockBody, .delivered (.of crooked) crooked] ++ (Sample.download Sample.leaves).take 2 ++
    (Sample.download Sample.leaves).drop 3

def crossing : Run (MemoryStore × Simulation.Refusals) :=
  lifetime (World.over MemoryStore.operations Simulation.Refusals.outside) Sample.rules (converging.map .event)
    (.empty, Sample.network)

/-- Then comes the leaf for which both are waiting. -/
def crossed (r : Run (MemoryStore × Simulation.Refusals)) : Run (MemoryStore × Simulation.Refusals) :=
  handle (World.over MemoryStore.operations Simulation.Refusals.outside) Sample.rules
    (.delivered common (0 :: 0 :: List.replicate 69 1)) r

theorem crossed_grows (r : Run (MemoryStore × Simulation.Refusals)) : Run.Adds (fun _ => True) r (crossed r) := by
  unfold crossed
  exact deliver_grows _ _ _ _ r

/-- It proves the one root malformed and completes the other, which it does without the one root too. -/
theorem others_unaffected_crossing : crossing.state.InFlight (.of crooked) ∧
    newsOf (.of crooked) (crossed crossing).trace = [.broken (.of crooked)] ∧
    newsOf (Sample.blob Sample.leaves).root (crossed crossing).trace = [.added (Sample.blob Sample.leaves).root] ∧
    BlockId.of crooked ≠ (Sample.blob Sample.leaves).root ∧ Run.Adds Moment.Accepted crossing (crossed crossing) ∧
    Run.Adds Moment.Accepted (crossing.without (.of crooked) Sample.network)
      (crossed (crossing.without (.of crooked) Sample.network)) ∧
    Agree (Sample.blob Sample.leaves).root (crossed crossing)
      (crossed (crossing.without (.of crooked) Sample.network)) := by
  have hne : BlockId.of crooked ≠ (Sample.blob Sample.leaves).root := by decide +kernel
  have haccepted : Run.Adds Moment.Accepted crossing (crossed crossing) :=
    .of_forall (crossed_grows crossing) (by decide +kernel)
  have haccepted' : Run.Adds Moment.Accepted (crossing.without (.of crooked) Sample.network)
      (crossed (crossing.without (.of crooked) Sample.network)) :=
    .of_forall (crossed_grows _) (by decide +kernel)
  refine ⟨by decide +kernel, by decide +kernel, by decide +kernel, hne, haccepted, haccepted', ?_⟩
  exact others_unaffected Simulation.Refusals.outside Simulation.Refusals.outside Sample.rules
    (converging.map .event) (.empty, Sample.network) (show crossing = lifetime _ _ _ _ from rfl) hne Sample.network
    common (0 :: 0 :: List.replicate 69 1) haccepted haccepted'

end BlockDag.Downloader
