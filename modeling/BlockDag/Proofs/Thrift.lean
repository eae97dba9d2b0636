/-
What is asked for over a store in memory. Between events nothing that is waited for is in the store,
so what is asked for is missing; and where every call is accepted and every download that ends has
completed, no block is asked for twice: what was asked for is waited for until it is stored.
-/
import BlockDag.Proofs.Malformed
import BlockDag.Proofs.Soundness

namespace BlockDag.Downloader

variable {ν : Type} {N : Outside ν} {rules : Rules} {Delivers : Bytes → Prop} {world : MemoryStore × ν}
variable {σ σ' : Stage} {r r' : Run (MemoryStore × ν)}

/-! ## What is waited for is missing -/

/-- After any commands, no block that is waited for is in the store, whatever the store had at first. -/
theorem pending_missing (N : Outside ν) (rules : Rules) (commands : List Command) (world : MemoryStore × ν)
    {id : BlockId} (hp : (lifetime (World.over MemoryStore.operations N) rules commands world).state.pending.Has id) :
    ¬ (lifetime (World.over MemoryStore.operations N) rules commands world).world.1.Holds id := by
  rcases lifetime_cases (World.over MemoryStore.operations N) rules commands world with
    ⟨events, heq⟩ | ⟨past, events, world', heq⟩
  · rw [heq] at hp ⊢
    exact (history_reached _ rules events world).sought.not_holds_of_idle hp
  · rw [heq, World.over_after] at hp ⊢
    exact (history_reached _ rules events world').sought.not_holds_of_idle hp

/-- A root and one of its leaves are in the store, as another leaf comes in that belongs nowhere. -/
def halfStocked : Run (MemoryStore × Simulation.Refusals) :=
  lifetime (World.over MemoryStore.operations Simulation.Refusals.outside) Sample.rules
    [.event (.kickoff (Sample.blob Sample.leaves).root .blockBody), .event (.delivered (.of stump) stump)]
    (((Sample.blob Sample.leaves).blocks.take 2).foldl (fun s b => s.put b.1 b.2) .empty, Sample.network)

theorem pending_missing_leaf :
    halfStocked.state.pending.Has (.of (0 :: 0 :: List.replicate 69 2)) ∧
      ¬ halfStocked.world.1.Holds (.of (0 :: 0 :: List.replicate 69 2)) := by
  have hp : halfStocked.state.pending.Has (.of (0 :: 0 :: List.replicate 69 2)) := by decide +kernel
  refine ⟨hp, ?_⟩
  unfold halfStocked at hp ⊢
  exact pending_missing Simulation.Refusals.outside Sample.rules _ _ hp

/-! ## Downloads that complete -/

/-- A download that ends here was marked while it ran, with nothing left to wait for. -/
def Fulfilled {ω : Type} (m : Moment ω) (earlier : List (Moment ω)) : Prop :=
  ∀ session root, m.effect = .released session root → ∃ m' ∈ earlier, m'.Completes root ∧ m'.state.Runs root session

/-- The root that the effect marks, if it marks one. -/
def Effect.marked? : Effect → Option RootId
  | .marked root _ => some root
  | _ => none

/-- Whether nothing is outstanding for `root`, which is in flight. -/
def State.completes (s : State) (root : RootId) : Bool :=
  match s.roots.get? root with
  | some d => decide d.Complete
  | none => false

theorem Moment.completes_iff {ω : Type} {m : Moment ω} {root : RootId} :
    m.Completes root ↔ m.effect.marked? = some root ∧ m.state.completes root = true := by
  obtain ⟨effect, world, state⟩ := m
  unfold Completes State.completes
  cases effect <;> cases state.roots.get? root <;> simp [Effect.marked?]

instance {ω : Type} (m : Moment ω) (root : RootId) : Decidable (m.Completes root) :=
  decidable_of_iff' _ Moment.completes_iff

instance {ω : Type} (earlier : List (Moment ω)) : (m : Moment ω) → Decidable (Fulfilled m earlier)
  | ⟨.released session root, _, _⟩ =>
    decidable_of_iff (∃ m' ∈ earlier, m'.Completes root ∧ m'.state.Runs root session) <| by
      simp [Fulfilled]
  | ⟨.logged _, _, _⟩ | ⟨.notified _, _, _⟩ | ⟨.opened .., _, _⟩ | ⟨.marked .., _, _⟩ | ⟨.awaited .., _, _⟩
  | ⟨.judged .., _, _⟩ | ⟨.fetched _, _, _⟩ => .isTrue (by simp [Fulfilled])

/-- What a download asked for it waits for or has, unless it is to be given up; and none in flight was
marked. -/
structure Running (σ : Stage) (r : Run (MemoryStore × ν)) : Prop where
  descendants : ∀ {root d}, r.state.roots.get? root = some d → ∀ id ∈ d.descendants,
    r.state.pending.positions id root ≠ [] ∨ r.world.1.Holds id ∨ ∃ e, (root, e) ∈ σ.doomed
  unmarked : ∀ {root d}, r.state.roots.get? root = some d → ∀ m ∈ r.trace, m.Completes root →
    ¬ m.state.Runs root d.session

theorem Moment.not_completes {ω : Type} {m : Moment ω} {root : RootId}
    (h : ∀ outcome, m.effect ≠ .marked root outcome) : ¬ m.Completes root := by
  rintro ⟨outcome, d, he, -⟩
  exact h outcome he

namespace Running

/-- Where no download changes and none is marked. -/
theorem carry (h : Running σ r) (hroots : r'.state.roots = r.state.roots)
    (hpending : r'.state.pending = r.state.pending) (hstore : ∀ id, r.world.1.Holds id → r'.world.1.Holds id)
    (hdoomed : ∀ {root d e}, r.state.roots.get? root = some d → (root, e) ∈ σ.doomed → (root, e) ∈ σ'.doomed)
    (hadds : Run.Adds (fun m => ∀ root, ¬ m.Completes root) r r') : Running σ' r' := by
  constructor
  · intro root d hd id hid
    rw [hroots] at hd
    rw [hpending]
    refine (h.descendants hd id hid).imp_right (Or.imp (hstore id) ?_)
    rintro ⟨e, he⟩
    exact ⟨e, hdoomed hd he⟩
  · intro root d hd m hm hc
    rw [hroots] at hd
    exact h.unmarked hd m ((hadds.mem hm).resolve_right fun hn => hn root hc) hc

/-- A judged block is in the store, for those that awaited it and are not given up. -/
theorem take {q : List Arrival} {w : List BlockId} {a : Arrival} {awaiting : Awaiting} {p : Pass}
    (h : Running ⟨a :: q, [], w, [], []⟩ r)
    (hr : Reached (World.over MemoryStore.operations N) rules Delivers world ⟨a :: q, [], w, [], []⟩ r)
    (ha : r.state.pending.get? a.id = some awaiting) :
    Running ⟨q, [], w, (Pass.take (World.over MemoryStore.operations N) rules a awaiting p r).1.children,
        (Pass.take (World.over MemoryStore.operations N) rules a awaiting p r).1.malformed⟩
      (Pass.take (World.over MemoryStore.operations N) rules a awaiting p r).2.2 := by
  have hle := take_le (World.over_memoryLike N) rules a awaiting p r
  have hadds := Pass.take_adds (World.over MemoryStore.operations N) rules a awaiting p r
  constructor
  · intro root d' hd' id hid
    obtain ⟨d, hd, hf⟩ := hr.books.fate ha _ p hd'
    rw [hf.kept.2.2.1] at hid
    rw [Pass.take_pending, PendingIndex.positions_without]
    rcases h.descendants hd id hid with hpos | hholds | ⟨e, he⟩
    · by_cases heq : a.id = id
      · subst heq
        refine .inr ?_
        cases hf with
        | passed hnone => exact absurd hnone hpos
        | broken e _ he => exact .inr ⟨e, he⟩
        | grown block t _ _ _ _ hvalid =>
          have hstored := hr.sought.view_take (hr.stock (World.over_memoryLike N)) ha (List.ne_nil_of_mem hvalid)
          exact .inl (MemoryStore.holds_iff.2 ⟨a.raw, hstored⟩)
      · rw [if_neg heq]
        exact .inl hpos
    · exact .inr (.inl (hle.holds hholds))
    · cases he
  · intro root d' hd' m hm hc
    obtain ⟨d, hd, hf⟩ := hr.books.fate ha _ p hd'
    rw [hf.kept.2.1]
    refine h.unmarked hd m ((hadds.mem hm).resolve_right ?_) hc
    rintro ⟨⟨e, he⟩ | ⟨awaiting', he⟩, -⟩
    · exact Moment.not_completes (by simp [he]) hc
    · exact Moment.not_completes (by simp [he]) hc

theorem await {q : List Arrival} {u w : List BlockId} {o : List Child} {child : Child} {d : Download}
    (h : Running ⟨q, [], w, child :: o, []⟩ r) (hd : r.state.roots.get? child.root = some d) :
    Running ⟨q, u, w, o, []⟩ (Pass.await child d r) := by
  have hmore : ∀ {id root}, r.state.pending.positions id root ≠ [] →
      (Pass.await child d r).state.pending.positions id root ≠ [] := by
    intro id root hpos
    rw [await_pending, PendingIndex.positions_insert]
    split
    · simp
    · exact hpos
  have hadds : Run.Adds (fun m => ∀ root, ¬ m.Completes root) r (Pass.await child d r) :=
    await_adds _ _ _ fun _ => Moment.not_completes (by simp)
  constructor
  · intro root d' hd' id hid
    rcases Table.get?_insert_eq_some_iff.1 hd' with ⟨rfl, rfl⟩ | ⟨-, hd'⟩
    · rcases Std.ExtTreeSet.mem_insert.1 hid with hid | hid
      · obtain rfl : child.id = id := Std.LawfulEqCmp.compare_eq_iff_eq.1 hid
        refine .inl ?_
        rw [await_pending, PendingIndex.positions_insert, if_pos ⟨rfl, rfl⟩]
        simp
      · exact (h.descendants hd id hid).imp_left hmore
    · exact (h.descendants hd' id hid).imp_left hmore
  · intro root d' hd' m hm hc
    have hm₀ := (hadds.mem hm).resolve_right fun hn => hn root hc
    rcases Table.get?_insert_eq_some_iff.1 hd' with ⟨rfl, rfl⟩ | ⟨-, hd'⟩
    · exact h.unmarked hd m hm₀ hc
    · exact h.unmarked hd' m hm₀ hc

/-- Ending a download leaves the others as they are. -/
theorem dismiss {root : RootId} {d : Download} (h : Running σ r) (hdoomed : σ'.doomed = σ.doomed) :
    Running σ' (Downloader.dismiss root d r) := by
  have hadds : Run.Adds (fun m => ∀ root, ¬ m.Completes root) r (Downloader.dismiss root d r) :=
    dismiss_adds _ _ _ fun _ => Moment.not_completes (by simp)
  constructor
  · intro other d' hd' id hid
    obtain ⟨hne, hd'⟩ := get?_of_dismiss hd'
    rw [dismiss_pending, PendingIndex.positions_removeRoot, if_neg fun hc => hne hc.1, hdoomed]
    exact h.descendants hd' id hid
  · intro other d' hd' m hm hc
    exact h.unmarked (get?_of_dismiss hd').2 m ((hadds.mem hm).resolve_right fun hn => hn other hc) hc

/-- A root is marked as it goes out of flight. -/
theorem complete {w w' : List BlockId} {root : RootId} {d : Download} (h : Running ⟨[], [], w, [], []⟩ r) :
    Running ⟨[], [], w', [], []⟩
      (Downloader.dismiss root d (mark (World.over MemoryStore.operations N) root r)) := by
  have hadds : Run.Adds (fun m => ∀ other, root ≠ other → ¬ m.Completes other) r
      (Downloader.dismiss root d (mark (World.over MemoryStore.operations N) root r)) := by
    refine (mark_adds _ _ _ ?_ fun e => ?_).trans (dismiss_adds _ _ _ ?_)
    · rintro other hne ⟨outcome, d', he, -⟩
      cases he
      exact hne rfl
    · exact fun other _ => Moment.not_completes (by simp)
    · exact fun other _ => Moment.not_completes (by simp)
  constructor
  · intro other d' hd' id hid
    obtain ⟨hne, hd'⟩ := get?_of_dismiss hd'
    rw [mark_state] at hd'
    rw [dismiss_pending, PendingIndex.positions_removeRoot, if_neg fun hc => hne hc.1, mark_state, dismiss_world,
      mark_world]
    exact (h.descendants hd' id hid).imp_right (Or.imp_left MemoryStore.holds_setStatus.2)
  · intro other d' hd' m hm hc
    obtain ⟨hne, hd'⟩ := get?_of_dismiss hd'
    rw [mark_state] at hd'
    exact h.unmarked hd' m ((hadds.mem hm).resolve_right fun hn => hn other hne hc) hc

theorem step (hr : Reached (World.over MemoryStore.operations N) rules Delivers world σ r) (h : Running σ r)
    (hs : Step (World.over MemoryStore.operations N) rules σ r σ' r') : Running σ' r' := by
  have hemit : ∀ {e : Effect}, (∀ root outcome, e ≠ .marked root outcome) →
      ∀ {r₀ : Run (MemoryStore × ν)}, Run.Adds (fun m => ∀ root, ¬ m.Completes root) r₀ (r₀.emit e) :=
    fun he _ => .emit fun root => Moment.not_completes (he root)
  cases hs with
  | logged | broke | finished => exact h.carry rfl rfl (fun _ => id) (fun _ => id) (hemit (by simp))
  | arranged | asked | found | missed | discarded | orphaned | settled =>
    exact h.carry rfl rfl (fun _ => id) (fun _ => id) (.refl rfl)
  | announced => exact h.carry rfl rfl (fun _ => id) (fun _ => id) (.trans (.refl rfl) (hemit (by simp)))
  | refused => exact h.carry rfl rfl (fun _ => MemoryStore.holds_setStatus.2) (fun _ => id) (.refl rfl)
  | judged a awaiting p ha => exact h.take hr ha
  | expanded child d hd => exact h.await hd
  | fetched =>
    exact h.carry rfl rfl (fun _ => id) (fun _ => id) (.cons rfl fun root => Moment.not_completes (by simp))
  | released => exact h.dismiss rfl
  | spared hout =>
    refine h.carry rfl rfl (fun _ => id) ?_ (.refl rfl)
    intro root d e hd he
    have hnone := State.not_inFlight_iff.1 (hout _ he)
    rw [hd] at hnone
    cases hnone
  | completed => exact h.complete

theorem opened (hr : Reached (World.over MemoryStore.operations N) rules Delivers world .idle r) (h : Running .idle r)
    (ho : Opening (World.over MemoryStore.operations N) Delivers r σ' r') : Running σ' r' := by
  cases ho with
  | launched root tag timeout hn =>
    have hadds := launch_adds (P := fun m => ∀ root, ¬ m.Completes root) root tag timeout
      (r.call ((World.over MemoryStore.operations N).setStatus root .part)).2
      (fun _ => Moment.not_completes (by simp)) (fun _ => Moment.not_completes (by simp))
      (fun _ => Moment.not_completes (by simp))
    constructor
    · intro other d hd id hid
      rw [launch_pending, PendingIndex.positions_insert, launch_world]
      rcases Table.get?_insert_eq_some_iff.1 hd with ⟨rfl, rfl⟩ | ⟨hne, hd⟩
      · obtain rfl : root = id := by simpa [Download.start] using hid
        rw [if_pos ⟨rfl, rfl⟩]
        exact .inl (by simp)
      · rw [if_neg fun hc => hne hc.2]
        rcases h.descendants hd id hid with hpos | hholds | ⟨e, he⟩
        · exact .inl hpos
        · exact .inr (.inl (MemoryStore.holds_setStatus.2 hholds))
        · cases he
    · intro other d hd m hm hc
      have hm₀ : m ∈ r.trace := (hadds.mem hm).resolve_right fun hn => hn other hc
      rcases Table.get?_insert_eq_some_iff.1 hd with ⟨rfl, rfl⟩ | ⟨-, hd⟩
      · -- no download ran under the new session
        intro hruns
        obtain ⟨d', hd', hsession⟩ := State.runs_iff.1 hruns
        have := hr.ledger.past m hm₀ root d' hd'
        rw [hsession] at this
        exact Nat.not_succ_le_self _ this
      · exact h.unmarked hd m hm₀ hc
  | delivered => exact ⟨h.descendants, h.unmarked⟩

end Running

theorem Reached.running (h : Reached (World.over MemoryStore.operations N) rules Delivers world σ r) : Running σ r := by
  induction h with
  | start => exact ⟨by simp [State.initial, Table.get?], by simp [State.initial, Table.get?]⟩
  | opened hr ho ih => exact ih.opened hr ho
  | step hr hs ih => exact ih.step hr hs

/-- A download that waits for nothing has all that it asked for. -/
theorem Reached.holds_of_complete {w : List BlockId}
    (h : Reached (World.over MemoryStore.operations N) rules Delivers world ⟨[], [], w, [], []⟩ r) {root : RootId}
    {d : Download} (hd : r.state.roots.get? root = some d) (hc : d.Complete) {id : BlockId} (hid : id ∈ d.descendants) :
    r.world.1.Holds id := by
  rcases h.running.descendants hd id hid with hpos | hholds | ⟨e, he⟩
  · exact absurd ((h.books.complete_iff hd).1 hc id) hpos
  · exact hholds
  · cases he

/-! ## What is asked for -/

/-- The blocks that are asked for here. -/
def Moment.lists {ω : Type} (m : Moment ω) : List BlockId :=
  match m.effect with
  | .fetched call => call.blocks
  | _ => []

/-- All blocks that were asked for, call by call. -/
def listed {ω : Type} (trace : List (Moment ω)) : List BlockId := trace.flatMap Moment.lists

theorem Moment.lists_eq_nil {ω : Type} {m : Moment ω} (h : ∀ call, m.effect ≠ .fetched call) : m.lists = [] := by
  unfold lists
  split
  · next call he => exact absurd he (h call)
  · rfl

/-- Where no call is made, nothing more is asked for. -/
theorem listed_of_adds {ω : Type} {r r' : Run ω} (h : Run.Adds (fun m => m.lists = []) r r') :
    listed r'.trace = listed r.trace := by
  obtain ⟨new, hn, hnone⟩ := h
  have hnew : listed new = [] := List.flatMap_eq_nil_iff.2 hnone
  unfold listed at *
  rw [hn, List.flatMap_append, hnew, List.nil_append]

/-- Judging a block asks for nothing. -/
theorem listed_take {ω : Type} (W : World ω) (rules : Rules) (a : Arrival) (awaiting : Awaiting) (p : Pass)
    (r : Run ω) : listed (Pass.take W rules a awaiting p r).2.2.trace = listed r.trace := by
  refine listed_of_adds ((Pass.take_adds W rules a awaiting p r).mono ?_)
  rintro m ⟨⟨e, he⟩ | ⟨awaiting', he⟩, -⟩
  · exact Moment.lists_eq_nil (by simp [he])
  · exact Moment.lists_eq_nil (by simp [he])

/-- Nor does making a root wait. -/
theorem listed_await {ω : Type} (child : Child) (d : Download) (r : Run ω) :
    listed (Pass.await child d r).trace = listed r.trace :=
  listed_of_adds (await_adds _ _ _ (Moment.lists_eq_nil (by simp)))

/-- A block that is waited for, not in the store, and was not asked for. -/
structure Missing (r : Run (MemoryStore × ν)) (id : BlockId) : Prop where
  awaited : r.state.pending.Has id
  away : ¬ r.world.1.Holds id
  unlisted : id ∉ listed r.trace

theorem Missing.carry {id : BlockId} (h : Missing r id)
    (hpending : r.state.pending.Has id → r'.state.pending.Has id) (hstore : r'.world.1.Holds id → r.world.1.Holds id)
    (hlisted : listed r'.trace = listed r.trace) : Missing r' id := by
  refine ⟨hpending h.awaited, fun hh => h.away (hstore hh), ?_⟩
  rw [hlisted]
  exact h.unlisted

/-- Some root is to be given up. -/
def Condemned (σ : Stage) (r : Run (MemoryStore × ν)) : Prop := ∃ x ∈ σ.doomed, r.state.InFlight x.1

/-- What was asked for was not in the store at the `start`, once, and it is waited for until it is
stored. What is to be asked for is missing, but for what a completed download leaves behind. -/
structure Thrifty (start : MemoryStore) (σ : Stage) (r : Run (MemoryStore × ν)) : Prop where
  once : (listed r.trace).Nodup
  fresh : ∀ id ∈ listed r.trace, ¬ start.Holds id
  kept : ∀ id ∈ listed r.trace, r.state.pending.Has id ∨ r.world.1.Holds id ∨ Condemned σ r
  unseen : ∀ id ∈ σ.unseen, r.world.1.Holds id ∨ Missing r id
  wanted : ∀ id ∈ σ.wanted, Missing r id ∨ r.world.1.Holds id ∧ ¬ r.state.pending.Has id ∧
    σ.queue = [] ∧ σ.unseen = [] ∧ σ.owed = []
  single : ∀ id, ¬ r.world.1.Holds id → (σ.unseen ++ σ.wanted).count id ≤ 1
  alone : ∀ a ∈ σ.queue, a.received = true → σ.wanted = []

namespace Thrifty

variable {start : MemoryStore}

/-- Where nothing is asked for, and neither the index nor the blocks of the store change. -/
theorem carry (h : Thrifty start σ r) (hadds : Run.Adds (fun m => m.lists = []) r r')
    (hpending : r'.state.pending = r.state.pending) (hstore : ∀ id, r'.world.1.Holds id ↔ r.world.1.Holds id)
    (hqueue : ∀ a ∈ σ'.queue, a ∈ σ.queue) (hunseen : σ'.unseen = σ.unseen) (hwanted : σ'.wanted = σ.wanted)
    (howed : σ.owed = [] → σ'.owed = []) (hcondemned : Condemned σ r → Condemned σ' r') : Thrifty start σ' r' := by
  have hlisted := listed_of_adds hadds
  have hmissing : ∀ {id}, Missing r id → Missing r' id := by
    intro id hid
    refine hid.carry (fun hp => ?_) (hstore id).1 hlisted
    rw [hpending]
    exact hp
  refine ⟨?_, ?_, ?_, ?_, ?_, ?_, ?_⟩
  · rw [hlisted]
    exact h.once
  · rw [hlisted]
    exact h.fresh
  · intro id hid
    rw [hlisted] at hid
    rw [hpending, hstore]
    exact (h.kept id hid).imp_right (Or.imp_right hcondemned)
  · intro id hid
    rw [hunseen] at hid
    rw [hstore]
    exact (h.unseen id hid).imp_right hmissing
  · intro id hid
    rw [hwanted] at hid
    rw [hstore, hpending, hunseen]
    refine (h.wanted id hid).imp hmissing ?_
    rintro ⟨hholds, hnot, hq, hu, ho⟩
    refine ⟨hholds, hnot, ?_, hu, howed ho⟩
    rw [hq] at hqueue
    exact List.eq_nil_iff_forall_not_mem.2 fun a ha => by cases hqueue a ha
  · intro id hid
    rw [hstore] at hid
    rw [hunseen, hwanted]
    exact h.single id hid
  · intro a ha hc
    rw [hwanted]
    exact h.alone a (hqueue a ha) hc

/-- A block that is to be asked for, and still waited for, is missing. -/
theorem missing_of_awaited (h : Thrifty start σ r) {id : BlockId} (hid : id ∈ σ.wanted) (hp : r.state.pending.Has id) :
    Missing r id :=
  (h.wanted id hid).resolve_right fun hc => hc.2.1 hp

/-- While there is more to do than to ask for blocks, all that is to be asked for is missing. -/
theorem missing_of_busy (h : Thrifty start σ r) {id : BlockId} (hid : id ∈ σ.wanted)
    (hbusy : σ.queue ≠ [] ∨ σ.unseen ≠ [] ∨ σ.owed ≠ []) : Missing r id := by
  refine (h.wanted id hid).resolve_right ?_
  rintro ⟨-, -, hq, hu, ho⟩
  exact hbusy.elim (fun hn => hn hq) fun hbusy => hbusy.elim (fun hn => hn hu) fun hn => hn ho

/-- What was asked for and is not waited for is in the store, if no root is to be given up. -/
theorem holds_of_listed (h : Thrifty start σ r) (hdoomed : σ.doomed = []) {id : BlockId} (hid : id ∈ listed r.trace)
    (hp : ¬ r.state.pending.Has id) : r.world.1.Holds id := by
  rcases h.kept id hid with hawaited | hholds | ⟨x, hx, -⟩
  · exact absurd hawaited hp
  · exact hholds
  · rw [hdoomed] at hx
    cases hx

/-- A judged block is stored, or some root that awaited it is to be given up. -/
theorem stored_or_condemned {q : List Arrival} {w : List BlockId} {a : Arrival} {awaiting : Awaiting} {p : Pass}
    (hr : Reached (World.over MemoryStore.operations N) rules Delivers world ⟨a :: q, [], w, [], []⟩ r)
    (ha : r.state.pending.get? a.id = some awaiting) :
    (Pass.take (World.over MemoryStore.operations N) rules a awaiting p r).2.2.world.1.Holds a.id ∨
      Condemned ⟨q, [], w, (Pass.take (World.over MemoryStore.operations N) rules a awaiting p r).1.children,
          (Pass.take (World.over MemoryStore.operations N) rules a awaiting p r).1.malformed⟩
        (Pass.take (World.over MemoryStore.operations N) rules a awaiting p r).2.2 := by
  by_cases hvalid : (Pass.take (World.over MemoryStore.operations N) rules a awaiting p r).1.validated = []
  · -- somebody awaited it, for whom it is not valid
    refine .inr ?_
    obtain ⟨⟨root, positions⟩, hm⟩ := List.exists_mem_of_ne_nil _ (hr.books.pending _ _ ha).nonempty
    obtain ⟨hne, hpos, d, hd⟩ := hr.books.of_mem_awaiting ha hm
    have hkeys := Pass.take_keys (World.over MemoryStore.operations N) rules a awaiting p r
    obtain ⟨d', hd'⟩ := mem_keys_iff_get?.1 (hkeys ▸ Table.mem_keys_of_get? hd)
    obtain ⟨d₀, -, hf⟩ := hr.books.fate ha (World.over MemoryStore.operations N) p hd'
    cases hf with
    | passed hnone => exact absurd (hpos.symm.trans hnone) hne
    | broken e _ he => exact ⟨(root, e), he, State.inFlight_iff.2 ⟨_, State.runs_iff.2 ⟨_, hd', rfl⟩⟩⟩
    | grown block t _ _ _ _ hmem =>
      rw [hvalid] at hmem
      cases hmem
  · have hview := hr.sought.view_take (hr.stock (World.over_memoryLike N)) ha hvalid
    exact .inl (MemoryStore.holds_iff.2 ⟨a.raw, hview⟩)

/-- Judging a block leaves what is to be asked for as it is. -/
theorem take {q : List Arrival} {w : List BlockId} {a : Arrival} {awaiting : Awaiting} {p : Pass}
    (h : Thrifty start ⟨a :: q, [], w, [], []⟩ r)
    (hr : Reached (World.over MemoryStore.operations N) rules Delivers world ⟨a :: q, [], w, [], []⟩ r)
    (ha : r.state.pending.get? a.id = some awaiting) :
    Thrifty start ⟨q, [], w, (Pass.take (World.over MemoryStore.operations N) rules a awaiting p r).1.children,
        (Pass.take (World.over MemoryStore.operations N) rules a awaiting p r).1.malformed⟩
      (Pass.take (World.over MemoryStore.operations N) rules a awaiting p r).2.2 := by
  have hle := take_le (World.over_memoryLike N) rules a awaiting p r
  have hmem := take_mem (World.over_memoryLike N) rules a awaiting p r
  have hstored := stored_or_condemned (p := p) hr ha
  have hlisted := listed_take (World.over MemoryStore.operations N) rules a awaiting p r
  refine ⟨?_, ?_, ?_, by simp, ?_, ?_, ?_⟩
  · rw [hlisted]
    exact h.once
  · rw [hlisted]
    exact h.fresh
  · intro id hid
    rw [hlisted] at hid
    by_cases heq : id = a.id
    · subst heq
      exact .inr hstored
    · rcases h.kept id hid with hp | hholds | ⟨x, hx, -⟩
      · refine .inl ?_
        rw [Pass.take_pending, PendingIndex.has_without]
        exact ⟨heq, hp⟩
      · exact .inr (.inl (hle.holds hholds))
      · cases hx
  · intro id hid
    -- where there is something to ask for, the judged block is from the store
    have hmissing := h.missing_of_busy hid (.inl (List.cons_ne_nil _ _))
    have hlocal : a.received = false := by
      by_contra hc
      have hnone : w = [] := h.alone a List.mem_cons_self (by simpa using hc)
      rw [hnone] at hid
      cases hid
    have hresident := (hr.stock (World.over_memoryLike N)).resident a List.mem_cons_self hlocal
    have hne : id ≠ a.id := by
      rintro rfl
      exact hmissing.away (MemoryStore.holds_iff.2 ⟨a.raw, hresident⟩)
    have hworld := hmem.resolve_right (by simp [hlocal])
    refine .inl ⟨?_, by rw [hworld]; exact hmissing.away, by rw [hlisted]; exact hmissing.unlisted⟩
    rw [Pass.take_pending, PendingIndex.has_without]
    exact ⟨hne, hmissing.awaited⟩
  · exact fun id hid => h.single id fun hholds => hid (hle.holds hholds)
  · exact fun b hb hc => absurd hc (hr.sought.not_received hb)

/-- A child that nobody waited for is missing, unless it is in the store. -/
theorem await {q : List Arrival} {w : List BlockId} {o : List Child} {child : Child} {d : Download}
    (h : Thrifty start ⟨q, [], w, child :: o, []⟩ r) :
    Thrifty start ⟨q, if r.state.pending.Has child.id then [] else [child.id], w, o, []⟩ (Pass.await child d r) := by
  have hlisted := listed_await child d r
  have hmore : ∀ {id}, r.state.pending.Has id → (Pass.await child d r).state.pending.Has id := by
    intro id hp
    rw [await_pending, PendingIndex.has_insert]
    exact .inr hp
  have hwanted : ∀ id ∈ w, Missing r id := fun id hid => h.missing_of_busy hid (.inr (.inr (List.cons_ne_nil _ _)))
  refine ⟨?_, ?_, ?_, ?_, ?_, ?_, h.alone⟩
  · rw [hlisted]
    exact h.once
  · rw [hlisted]
    exact h.fresh
  · intro id hid
    rw [hlisted] at hid
    rcases h.kept id hid with hp | hholds | ⟨x, hx, -⟩
    · exact .inl (hmore hp)
    · exact .inr (.inl hholds)
    · cases hx
  · intro id hid
    split at hid
    · cases hid
    · next hnew =>
      rw [List.mem_singleton.1 hid]
      by_cases hholds : r.world.1.Holds child.id
      · exact .inl hholds
      · refine .inr ⟨?_, hholds, ?_⟩
        · rw [await_pending, PendingIndex.has_insert]
          exact .inl rfl
        · rw [hlisted]
          exact fun hl => hholds (h.holds_of_listed rfl hl hnew)
  · intro id hid
    obtain ⟨hp, haway, hunlisted⟩ := hwanted id hid
    exact .inl ⟨hmore hp, haway, by rw [hlisted]; exact hunlisted⟩
  · intro id hid
    have hcount := h.single id hid
    split
    · exact hcount
    · next hnew =>
      rw [List.nil_append] at hcount
      rw [List.singleton_append, List.count_cons]
      split
      · next heq =>
        -- what is to be asked for is waited for, which the child was not
        obtain rfl : child.id = id := by simpa using heq
        rw [List.count_eq_zero_of_not_mem fun hm => hnew (hwanted _ hm).awaited]
      · exact hcount

/-- A block that is in the store is to be judged. -/
theorem found {q : List Arrival} {u w : List BlockId} {o : List Child} {m : List (RootId × FormatError)} {id : BlockId}
    {raw : Bytes} (h : Thrifty start ⟨q, id :: u, w, o, m⟩ r) :
    Thrifty start ⟨q ++ [⟨id, raw, false⟩], u, w, o, m⟩ (r.call ((World.over MemoryStore.operations N).view id)).2 := by
  refine ⟨h.once, h.fresh, h.kept, fun j hj => h.unseen j (List.mem_cons_of_mem _ hj), ?_, ?_, ?_⟩
  · exact fun j hj => .inl (h.missing_of_busy hj (.inr (.inl (List.cons_ne_nil _ _))))
  · exact fun j hj => Nat.le_trans ((List.sublist_cons_self _ _).count_le j) (h.single j hj)
  · intro a ha hc
    rcases List.mem_append.1 ha with ha | ha
    · exact h.alone a ha hc
    · rw [List.mem_singleton.1 ha] at hc
      cases hc

/-- A block that is not in the store is missing. -/
theorem missed {q : List Arrival} {u w : List BlockId} {o : List Child} {m : List (RootId × FormatError)} {id : BlockId}
    (h : Thrifty start ⟨q, id :: u, w, o, m⟩ r) (hsought : Sought ⟨q, id :: u, w, o, m⟩ r)
    (haway : ¬ r.world.1.Holds id) :
    Thrifty start ⟨q, u, w ++ [id], o, m⟩ (r.call ((World.over MemoryStore.operations N).view id)).2 := by
  refine ⟨h.once, h.fresh, h.kept, fun j hj => h.unseen j (List.mem_cons_of_mem _ hj), ?_, ?_, ?_⟩
  · intro j hj
    rcases List.mem_append.1 hj with hj | hj
    · exact .inl (h.missing_of_busy hj (.inr (.inl (List.cons_ne_nil _ _))))
    · rw [List.mem_singleton.1 hj]
      exact .inl ((h.unseen id List.mem_cons_self).resolve_left haway)
  · intro j hj
    have hperm : (u ++ (w ++ [id])).Perm (id :: u ++ w) := by
      rw [← List.append_assoc, List.cons_append]
      exact List.perm_append_singleton id (u ++ w)
    rw [hperm.count_eq]
    exact h.single j hj
  · intro a ha hc
    rw [hsought.received_eq_false ha (.inl (List.cons_ne_nil _ _))] at hc
    cases hc

/-- An accepted call lists missing blocks, each once, and leaves none of them to be asked for. -/
theorem fetched {q : List Arrival} {u w left blocks : List BlockId} {o : List Child} {m : List (RootId × FormatError)}
    {session : SessionId} (h : Thrifty start ⟨q, u, w, o, m⟩ r) (hle : start.Le r.world.1)
    (hawaited : ∀ id ∈ blocks, r.state.pending.Has id) (hsub : (blocks ++ left).Subperm w) :
    Thrifty start ⟨q, u, left, o, m⟩ (r.fetch (World.over MemoryStore.operations N) session blocks).2 := by
  have hmem : ∀ {id}, id ∈ blocks ++ left → id ∈ w := fun hid => hsub.subset hid
  have hmissing : ∀ id ∈ blocks, Missing r id :=
    fun id hid => h.missing_of_awaited (hmem (List.mem_append_left _ hid)) (hawaited id hid)
  have hlisted : listed (r.fetch (World.over MemoryStore.operations N) session blocks).2.trace =
      blocks ++ listed r.trace := rfl
  -- a missing block is to be asked for once, so it is not among the others or left
  have hcount : ∀ id, ¬ r.world.1.Holds id → u.count id + (blocks.count id + left.count id) ≤ 1 := by
    intro id haway
    have hone := h.single id haway
    have hle := hsub.count_le id
    rw [List.count_append] at hone hle
    dsimp only at hone
    omega
  have hstays : ∀ {id}, Missing r id → id ∉ blocks →
      Missing (r.fetch (World.over MemoryStore.operations N) session blocks).2 id := by
    intro id hid hnot
    refine ⟨hid.awaited, hid.away, ?_⟩
    rw [hlisted, List.mem_append, not_or]
    exact ⟨hnot, hid.unlisted⟩
  have hapart : ∀ id ∈ blocks, u.count id = 0 ∧ blocks.count id = 1 ∧ left.count id = 0 := by
    intro id hid
    have hpos := List.count_pos_iff.2 hid
    have hone := hcount id (hmissing id hid).away
    omega
  refine ⟨?_, ?_, ?_, ?_, ?_, ?_, ?_⟩
  · rw [hlisted, List.nodup_append']
    refine ⟨List.nodup_iff_count_eq_one.2 fun id hid => (hapart id hid).2.1, h.once, ?_⟩
    exact fun id hid hl => (hmissing id hid).unlisted hl
  · intro id hid
    rw [hlisted] at hid
    rcases List.mem_append.1 hid with hid | hid
    · exact fun hholds => (hmissing id hid).away (hle.holds hholds)
    · exact h.fresh id hid
  · intro id hid
    rw [hlisted] at hid
    rcases List.mem_append.1 hid with hid | hid
    · exact .inl (hawaited id hid)
    · exact h.kept id hid
  · intro id hid
    refine (h.unseen id hid).imp_right fun hm => hstays hm fun hb => ?_
    exact List.count_eq_zero.1 (hapart id hb).1 hid
  · intro id hid
    refine (h.wanted id (hmem (List.mem_append_right _ hid))).imp_left fun hm => hstays hm fun hb => ?_
    exact List.count_eq_zero.1 (hapart id hb).2.2 hid
  · intro id haway
    have hone := hcount id haway
    rw [List.count_append]
    dsimp only
    omega
  · intro a ha hc
    have hnone : w = [] := h.alone a ha hc
    rw [hnone] at hsub
    exact (List.append_eq_nil_iff.1 (List.subperm_nil.1 hsub)).2

/-- Less may be left to be asked for. -/
theorem settled {q : List Arrival} {u w left : List BlockId} {o : List Child} {m : List (RootId × FormatError)}
    (h : Thrifty start ⟨q, u, w, o, m⟩ r) (hsub : left.Subperm w) : Thrifty start ⟨q, u, left, o, m⟩ r := by
  refine ⟨h.once, h.fresh, h.kept, h.unseen, fun id hid => h.wanted id (hsub.subset hid), ?_, ?_⟩
  · intro id haway
    have hone := h.single id haway
    have hle := hsub.count_le id
    rw [List.count_append] at hone ⊢
    dsimp only at hone ⊢
    omega
  · intro a ha hc
    have hnone : w = [] := h.alone a ha hc
    rw [hnone] at hsub
    exact List.subperm_nil.1 hsub

/-- A root that completes leaves nothing behind that anybody would wait for: it has all its blocks. -/
theorem complete {w : List BlockId} {root : RootId} {d : Download} (h : Thrifty start ⟨[], [], w, [], []⟩ r)
    (hr : Reached (World.over MemoryStore.operations N) rules Delivers world ⟨[], [], w, [], []⟩ r)
    (hd : r.state.roots.get? root = some d) (hc : d.Complete) :
    Thrifty start ⟨[], [], w ++ d.descendants.toList, [], []⟩
      (dismiss root d (mark (World.over MemoryStore.operations N) root r)) := by
  have hwaits := (hr.books.complete_iff hd).1 hc
  have hpending : ∀ id, (dismiss root d (mark (World.over MemoryStore.operations N) root r)).state.pending.Has id ↔
      r.state.pending.Has id := by
    intro id
    rw [dismiss_pending, mark_state]
    exact PendingIndex.has_removeRoot_iff hr.books.pending hwaits
  have hstore : ∀ id, (dismiss root d (mark (World.over MemoryStore.operations N) root r)).world.1.Holds id ↔
      r.world.1.Holds id := by
    intro id
    rw [dismiss_world, mark_world]
    exact MemoryStore.holds_setStatus
  have hlisted : listed (dismiss root d (mark (World.over MemoryStore.operations N) root r)).trace =
      listed r.trace := by
    refine listed_of_adds ((mark_adds _ _ _ ?_ fun e => ?_).trans (dismiss_adds _ _ _ ?_))
    all_goals exact Moment.lists_eq_nil (by simp)
  have hmissing : ∀ {id}, Missing r id →
      Missing (dismiss root d (mark (World.over MemoryStore.operations N) root r)) id := by
    intro id hid
    exact hid.carry (hpending id).2 (hstore id).1 hlisted
  have hfull : ∀ id ∈ d.descendants, r.world.1.Holds id := fun id hid => hr.holds_of_complete hd hc hid
  have hidle : ∀ {id}, r.world.1.Holds id → ¬ r.state.pending.Has id := fun hholds hp =>
    hr.sought.not_holds_of_idle hp hholds
  refine ⟨?_, ?_, ?_, by simp, ?_, ?_, by simp⟩
  · rw [hlisted]
    exact h.once
  · rw [hlisted]
    exact h.fresh
  · intro id hid
    rw [hlisted] at hid
    rw [hpending, hstore]
    refine (h.kept id hid).imp_right (Or.imp_right ?_)
    rintro ⟨x, hx, -⟩
    cases hx
  · intro id hid
    rw [hpending, hstore]
    rcases List.mem_append.1 hid with hid | hid
    · exact (h.wanted id hid).imp_left hmissing
    · have hholds := hfull id (Std.ExtTreeSet.mem_toList.1 hid)
      exact .inr ⟨hholds, hidle hholds, rfl, rfl, rfl⟩
  · intro id haway
    rw [hstore] at haway
    have hone := h.single id haway
    have hnone : d.descendants.toList.count id = 0 :=
      List.count_eq_zero.2 fun hm => haway (hfull id (Std.ExtTreeSet.mem_toList.1 hm))
    rw [List.nil_append] at hone ⊢
    rw [List.count_append, hnone]
    exact hone

/-- A step in which every call is accepted, and no download ends but one that completes. -/
theorem step (hr : Reached (World.over MemoryStore.operations N) rules Delivers world σ r) (h : Thrifty world.1 σ r)
    (hs : Step (World.over MemoryStore.operations N) rules σ r σ' r') (haccepted : ∀ m ∈ r'.trace, m.Accepted)
    (hfulfilled : Throughout Fulfilled r'.trace) : Thrifty world.1 σ' r' := by
  have hemit : ∀ {e : Effect}, (∀ call, e ≠ .fetched call) →
      ∀ {r₀ : Run (MemoryStore × ν)}, Run.Adds (fun m => m.lists = []) r₀ (r₀.emit e) :=
    fun he _ => .emit (Moment.lists_eq_nil he)
  cases hs with
  | logged | broke | finished =>
    exact h.carry (hemit (by simp)) rfl (fun _ => .rfl) (fun _ => id) rfl rfl id id
  | arranged | asked => exact h.carry (.refl rfl) rfl (fun _ => .rfl) (fun _ => id) rfl rfl id id
  | announced =>
    exact h.carry (.trans (.refl rfl) (hemit (by simp))) rfl (fun _ => .rfl) (fun _ => id) rfl rfl id id
  | refused => exact h.carry (.refl rfl) rfl (fun _ => MemoryStore.holds_setStatus) (fun _ => id) rfl rfl id id
  | found => exact h.found
  | missed id e he =>
    refine h.missed hr.sought fun hholds => ?_
    obtain ⟨raw, hv⟩ := MemoryStore.holds_iff.1 hholds
    exact absurd (hv.symm.trans he) (by simp)
  | discarded => exact h.carry (.refl rfl) rfl (fun _ => .rfl) (fun _ => List.mem_cons_of_mem _) rfl rfl id id
  | judged a awaiting p ha => exact h.take hr ha
  | expanded => exact h.await
  | orphaned => exact h.carry (.refl rfl) rfl (fun _ => .rfl) (fun _ => id) rfl rfl (fun ho => by cases ho) id
  | fetched root d blocks left _ _ hblocks _ hsub =>
    exact h.fetched (hr.le (World.over_memoryLike N)) hblocks (hsub (haccepted _ List.mem_cons_self))
  | settled left _ hsub => exact h.settled hsub
  | released root d hd =>
    -- no download in flight was marked, so this one does not complete
    obtain ⟨m, hm, hc, hruns⟩ := hfulfilled [] _ _ rfl d.session root rfl
    exact absurd hruns (hr.running.unmarked hd m hm hc)
  | spared hout =>
    refine h.carry (.refl rfl) rfl (fun _ => .rfl) (fun _ => id) rfl rfl id ?_
    rintro ⟨x, hx, hin⟩
    exact absurd hin (hout x hx)
  | completed root d hd hc => exact h.complete hr hd hc

theorem opened (h : Thrifty start .idle r) (ho : Opening (World.over MemoryStore.operations N) Delivers r σ' r') :
    Thrifty start σ' r' := by
  cases ho with
  | launched root tag timeout =>
    have hlisted : listed (launch root tag timeout
        (r.call ((World.over MemoryStore.operations N).setStatus root .part)).2).trace = listed r.trace :=
      listed_of_adds (launch_adds root tag timeout _ (Moment.lists_eq_nil (by simp)) (Moment.lists_eq_nil (by simp))
        (Moment.lists_eq_nil (by simp)))
    have hstore : ∀ id, (launch root tag timeout
        (r.call ((World.over MemoryStore.operations N).setStatus root .part)).2).world.1.Holds id ↔
        r.world.1.Holds id := fun _ => MemoryStore.holds_setStatus
    have hpending : ∀ id, (launch root tag timeout
        (r.call ((World.over MemoryStore.operations N).setStatus root .part)).2).state.pending.Has id ↔
        id = root ∨ r.state.pending.Has id := by
      intro id
      rw [launch_pending, PendingIndex.has_insert]
      rfl
    refine ⟨?_, ?_, ?_, ?_, by simp, ?_, by simp⟩
    · rw [hlisted]
      exact h.once
    · rw [hlisted]
      exact h.fresh
    · intro id hid
      rw [hlisted] at hid
      rw [hpending, hstore]
      rcases h.kept id hid with hp | hholds | ⟨x, hx, -⟩
      · exact .inl (.inr hp)
      · exact .inr (.inl hholds)
      · cases hx
    · intro id hid
      dsimp only at hid
      split at hid
      · cases hid
      · next hnew =>
        rw [List.mem_singleton.1 hid, hstore]
        by_cases hholds : r.world.1.Holds root
        · exact .inl hholds
        · refine .inr ⟨(hpending root).2 (.inl rfl), fun hh => hholds ((hstore root).1 hh), ?_⟩
          rw [hlisted]
          exact fun hl => hholds (h.holds_of_listed rfl hl hnew)
    · intro id _
      dsimp only
      split
      · simp
      · simp only [List.append_nil]
        exact List.count_le_length
  | delivered => exact ⟨h.once, h.fresh, h.kept, by simp, by simp, by simp, by simp⟩

end Thrifty

theorem throughout_of_adds {ω : Type} {P : Moment ω → List (Moment ω) → Prop} {Q : Moment ω → Prop} {r r' : Run ω}
    (h : Throughout P r'.trace) (hadds : Run.Adds Q r r') : Throughout P r.trace := by
  obtain ⟨new, hn, -⟩ := hadds
  rintro later m earlier ht
  refine h (new ++ later) m earlier ?_
  rw [hn, ht, List.append_assoc]

theorem Reached.thrifty (h : Reached (World.over MemoryStore.operations N) rules Delivers world σ r)
    (haccepted : ∀ m ∈ r.trace, m.Accepted) (hfulfilled : Throughout Fulfilled r.trace) : Thrifty world.1 σ r := by
  induction h with
  | start => exact ⟨by simp [listed], by simp [listed], by simp [listed], by simp [Stage.idle], by simp [Stage.idle],
      by simp [Stage.idle], by simp [Stage.idle]⟩
  | opened _ ho ih =>
    have hadds := ho.adds
    exact (ih (fun m hm => haccepted m (hadds.mem_of_mem hm)) (throughout_of_adds hfulfilled hadds)).opened ho
  | step hr hs ih =>
    have hadds := hs.trace
    exact (ih (fun m hm => haccepted m (hadds.mem_of_mem hm)) (throughout_of_adds hfulfilled hadds)).step hr hs
      haccepted hfulfilled

/-- Where every call for blocks is accepted and every download that ends has completed, no block is
asked for twice in all calls together, and none that was in the store at the start. -/
theorem asked_once (N : Outside ν) (rules : Rules) (events : List Event) (world : MemoryStore × ν)
    (haccepted : ∀ m ∈ (history (World.over MemoryStore.operations N) rules events world).trace, m.Accepted)
    (hfulfilled : Throughout Fulfilled (history (World.over MemoryStore.operations N) rules events world).trace) :
    (listed (history (World.over MemoryStore.operations N) rules events world).trace).Nodup ∧
      ∀ id ∈ listed (history (World.over MemoryStore.operations N) rules events world).trace, ¬ world.1.Holds id := by
  have h := (history_reached (World.over MemoryStore.operations N) rules events world).thrifty haccepted hfulfilled
  exact ⟨h.once, h.fresh⟩

/-- Two roots with a leaf in common, and a block that nobody waits for. -/
def overlapping : List Event :=
  (Sample.download Sample.leaves).take 2 ++ .delivered (.of stump) stump :: (Sample.download left).take 2 ++
    (Sample.download Sample.leaves).drop 2

theorem asked_once_overlapping : (∀ m ∈ (Sample.run overlapping).trace, m.Accepted) ∧
    Throughout Fulfilled (Sample.run overlapping).trace ∧ (listed (Sample.run overlapping).trace).length = 4 ∧
    (listed (Sample.run overlapping).trace).Nodup ∧
    ∀ id ∈ listed (Sample.run overlapping).trace, ¬ MemoryStore.empty.Holds id := by
  have haccepted : ∀ m ∈ (Sample.run overlapping).trace, m.Accepted := by decide +kernel
  have hfulfilled : Throughout Fulfilled (Sample.run overlapping).trace := by decide +kernel
  refine ⟨haccepted, hfulfilled, by decide +kernel, ?_⟩
  unfold Sample.run at haccepted hfulfilled ⊢
  exact asked_once _ _ _ _ haccepted hfulfilled

end BlockDag.Downloader
