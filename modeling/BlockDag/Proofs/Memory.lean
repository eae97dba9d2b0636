/-
Worlds with a store in memory. Single calls on the store may fail, and then change nothing; what
the store has, it keeps: blocks with their bytes, and roots that are full. Over a course, what is
stored was there before or was delivered under its name, the blocks to be judged are named or
resident, and every root in flight is partial.
-/
import BlockDag.Blob.Split
import BlockDag.Proofs.Handlers
import BlockDag.Simulation.Scenario
import BlockDag.Store.Memory

namespace BlockDag

/-! ## The store -/

namespace MemoryStore

variable {s t u : MemoryStore} {id j : BlockId} {raw bytes : Bytes} {root other : RootId} {goal : RootStatus}

theorem view_eq_ok_iff : s.view id = .ok raw ↔ s.blocks[id]? = some raw := by
  unfold view
  cases s.blocks[id]? <;> simp

@[simp] theorem view_empty (id : BlockId) : empty.view id = .error (.notFound id) := by
  simp [view, empty]

@[simp] theorem status_empty (root : RootId) : empty.status root = none := rfl

theorem holds_iff : s.Holds id ↔ ∃ raw, s.view id = .ok raw := by
  simp only [view_eq_ok_iff, Holds, Std.ExtTreeMap.mem_iff_isSome_getElem?, Option.isSome_iff_exists]

/-- The first bytes put under an id stay. -/
theorem view_put_eq_ok_iff : (s.put id raw).view j = .ok bytes ↔
    s.view j = .ok bytes ∨ j = id ∧ bytes = raw ∧ ¬ s.Holds id := by
  rw [view_eq_ok_iff, view_eq_ok_iff, put, Std.ExtTreeMap.getElem?_insertIfNew]
  simp only [Std.LawfulEqCmp.compare_eq_iff_eq]
  split
  · next hc =>
    obtain ⟨rfl, hn⟩ := hc
    have hnone : s.blocks[id]? = none := by
      rw [← Option.not_isSome_iff_eq_none, ← Std.ExtTreeMap.mem_iff_isSome_getElem?]
      exact hn
    rw [hnone, Option.some.injEq]
    constructor
    · rintro rfl
      exact .inr ⟨rfl, rfl, hn⟩
    · rintro (h | ⟨-, rfl, -⟩)
      · cases h
      · rfl
  · next hc =>
    constructor
    · exact .inl
    · rintro (h | ⟨rfl, -, hn⟩)
      · exact h
      · exact absurd ⟨rfl, hn⟩ hc

theorem holds_put_iff : (s.put id raw).Holds j ↔ s.Holds j ∨ j = id := by
  unfold Holds put
  rw [Std.ExtTreeMap.mem_insertIfNew, Std.LawfulEqCmp.compare_eq_iff_eq, eq_comm, or_comm]

@[simp] theorem status_put (s : MemoryStore) (id : BlockId) (raw : Bytes) : (s.put id raw).status = s.status := rfl

@[simp] theorem view_setStatus (s : MemoryStore) (root : RootId) (goal : RootStatus) :
    (s.setStatus root goal).2.view = s.view := by
  unfold setStatus
  split <;> rfl

theorem holds_setStatus : (s.setStatus root goal).2.Holds id ↔ s.Holds id := by
  rw [holds_iff, holds_iff, view_setStatus]

/-- A root moves to a status where it can, and no other root does. -/
theorem status_setStatus : (s.setStatus root goal).2.status other =
    if root = other ∧ RootStatus.CanMove (s.status root) goal then some goal else s.status other := by
  unfold setStatus
  by_cases hc : RootStatus.CanMove (s.status root) goal
  · rw [if_pos hc]
    simp only [hc, and_true]
    exact Table.get?_insert s.statuses root other goal
  · rw [if_neg hc, if_neg fun h => hc h.2]

theorem setStatus_eq_ok_iff : (s.setStatus root goal).1 = .ok () ↔ RootStatus.CanMove (s.status root) goal := by
  unfold setStatus
  split <;> simp_all

theorem setStatus_of_error {e : StoreError} (h : (s.setStatus root goal).1 = .error e) :
    (s.setStatus root goal).2 = s := by
  unfold setStatus at h ⊢
  split at h
  · cases h
  · rw [if_neg ‹_›]

/-- `t` has the blocks of `s` with the same bytes, and what is full in `s` is full in `t`. -/
structure Le (s t : MemoryStore) : Prop where
  view : ∀ {id raw}, s.view id = .ok raw → t.view id = .ok raw
  full : ∀ {root}, s.status root = some .full → t.status root = some .full

theorem Le.refl (s : MemoryStore) : s.Le s := ⟨fun h => h, fun h => h⟩

theorem Le.trans (h : s.Le t) (h' : t.Le u) : s.Le u := ⟨fun hv => h'.view (h.view hv), fun hf => h'.full (h.full hf)⟩

theorem Le.holds (h : s.Le t) (hs : s.Holds id) : t.Holds id := by
  obtain ⟨raw, hv⟩ := holds_iff.1 hs
  exact holds_iff.2 ⟨raw, h.view hv⟩

theorem le_put (s : MemoryStore) (id : BlockId) (raw : Bytes) : s.Le (s.put id raw) :=
  ⟨fun h => view_put_eq_ok_iff.2 (.inl h), fun h => h⟩

/-- A full root cannot move. -/
theorem le_setStatus (s : MemoryStore) (root : RootId) (goal : RootStatus) : s.Le (s.setStatus root goal).2 := by
  refine ⟨fun h => by rw [view_setStatus]; exact h, ?_⟩
  intro other hf
  rw [status_setStatus]
  split
  · next hc =>
    rw [hc.1, hf] at hc
    cases hc.2
  · exact hf

end MemoryStore

/-! ## The world -/

/-- A world whose store is the memory `mem`, but that single calls on it may fail and change
nothing. -/
structure World.MemoryLike {ω : Type} (W : World ω) (mem : ω → MemoryStore) : Prop where
  view : ∀ id w, (W.view id w).1 = (mem w).view id ∨ ∃ causes, (W.view id w).1 = .error (.backend causes)
  view_mem : ∀ id w, mem (W.view id w).2 = mem w
  put : ∀ id raw w, (W.put id raw w).1 = .ok () ∧ mem (W.put id raw w).2 = (mem w).put id raw ∨
    (∃ causes, (W.put id raw w).1 = .error (.backend causes)) ∧ mem (W.put id raw w).2 = mem w
  setStatus : ∀ root goal w, (W.setStatus root goal w).1 = ((mem w).setStatus root goal).1 ∧
      mem (W.setStatus root goal w).2 = ((mem w).setStatus root goal).2 ∨
    (∃ causes, (W.setStatus root goal w).1 = .error (.backend causes)) ∧ mem (W.setStatus root goal w).2 = mem w
  getStatus : ∀ root w, (W.getStatus root w).1 = .ok ((mem w).status root) ∨
    ∃ causes, (W.getStatus root w).1 = .error (.backend causes)
  getStatus_mem : ∀ root w, mem (W.getStatus root w).2 = mem w
  fetch_mem : ∀ session live blocks w, mem (W.fetch session live blocks w).2 = mem w
  arrange_mem : ∀ {α : Type} (xs : List α) w, mem (W.arrange xs w).2 = mem w

/-- The world over a store in memory, in which no call fails. -/
theorem World.over_memoryLike {ν : Type} (N : Outside ν) :
    (World.over MemoryStore.operations N).MemoryLike Prod.fst where
  view _ _ := .inl rfl
  view_mem _ _ := rfl
  put _ _ _ := .inl ⟨rfl, rfl⟩
  setStatus _ _ _ := .inl ⟨rfl, rfl⟩
  getStatus _ _ := .inl rfl
  getStatus_mem _ _ := rfl
  fetch_mem _ _ _ _ := rfl
  arrange_mem _ _ := rfl

/-- A world whose store is in memory and can always be read. -/
structure World.InMemory {ν : Type} (W : World (MemoryStore × ν)) : Prop extends W.MemoryLike Prod.fst where
  reads : ∀ id w, (W.view id w).1 = w.1.view id

theorem World.over_inMemory {ν : Type} (N : Outside ν) : (World.over MemoryStore.operations N).InMemory :=
  ⟨World.over_memoryLike N, fun _ _ => rfl⟩

/-- The world over a store in memory with faults in it. -/
theorem World.over_withFaults_memoryLike {ν : Type} (N : Outside ν) :
    (World.over MemoryStore.operations.withFaults N).MemoryLike fun w => w.1.1 := by
  have hfault : ∀ {faults : Faults} {call : StoreCall} {id : BlockId} {e : StoreError},
      faults.failure? call id = some e → ∃ causes, e = .backend causes := by
    intro faults call id e h
    unfold Faults.failure? at h
    split at h
    · exact ⟨_, (Option.some.inj h).symm⟩
    · cases h
  refine ⟨?_, fun _ _ => rfl, ?_, ?_, ?_, fun _ _ => rfl, fun _ _ _ _ => rfl, fun _ _ => rfl⟩
  · intro id w
    simp only [World.over, BlockStore.withFaults]
    split
    · next e he =>
      obtain ⟨causes, rfl⟩ := hfault he
      exact .inr ⟨causes, rfl⟩
    · exact .inl rfl
  · intro id raw w
    simp only [World.over, BlockStore.withFaults]
    split
    · next e he =>
      obtain ⟨causes, rfl⟩ := hfault he
      exact .inr ⟨⟨causes, rfl⟩, rfl⟩
    · exact .inl ⟨rfl, rfl⟩
  · intro root goal w
    simp only [World.over, BlockStore.withFaults]
    split
    · next e he =>
      obtain ⟨causes, rfl⟩ := hfault he
      exact .inr ⟨⟨causes, rfl⟩, rfl⟩
    · exact .inl ⟨rfl, rfl⟩
  · intro root w
    simp only [World.over, BlockStore.withFaults]
    split
    · next e he =>
      obtain ⟨causes, rfl⟩ := hfault he
      exact .inr ⟨causes, rfl⟩
    · exact .inl rfl

namespace World.MemoryLike

variable {ω : Type} {W : World ω} {mem : ω → MemoryStore} {w : ω} {id : BlockId} {raw : Bytes} {root : RootId}
variable {goal : RootStatus}

theorem view_of_ok (hm : W.MemoryLike mem) (h : (W.view id w).1 = .ok raw) : (mem w).view id = .ok raw := by
  rcases hm.view id w with hv | ⟨causes, hv⟩
  · rw [← hv, h]
  · rw [hv] at h
    cases h

theorem status_of_ok (hm : W.MemoryLike mem) {status : Option RootStatus} (h : (W.getStatus root w).1 = .ok status) :
    (mem w).status root = status := by
  rcases hm.getStatus root w with hv | ⟨causes, hv⟩
  · rw [hv] at h
    exact Except.ok.inj h
  · rw [hv] at h
    cases h

theorem setStatus_le (hm : W.MemoryLike mem) (root : RootId) (goal : RootStatus) (w : ω) :
    (mem w).Le (mem (W.setStatus root goal w).2) := by
  rcases hm.setStatus root goal w with ⟨-, h⟩ | ⟨-, h⟩
  · rw [h]
    exact MemoryStore.le_setStatus _ _ _
  · rw [h]
    exact .refl _

theorem view_setStatus (hm : W.MemoryLike mem) (root : RootId) (goal : RootStatus) (w : ω) :
    (mem (W.setStatus root goal w).2).view = (mem w).view := by
  rcases hm.setStatus root goal w with ⟨-, h⟩ | ⟨-, h⟩
  · rw [h, MemoryStore.view_setStatus]
  · rw [h]

theorem status_setStatus_of_ne (hm : W.MemoryLike mem) {other : RootId} (h : root ≠ other) (goal : RootStatus) (w : ω) :
    (mem (W.setStatus root goal w).2).status other = (mem w).status other := by
  rcases hm.setStatus root goal w with ⟨-, hs⟩ | ⟨-, hs⟩
  · rw [hs, MemoryStore.status_setStatus, if_neg (fun hc => h hc.1)]
  · rw [hs]

theorem status_setStatus_of_ok (hm : W.MemoryLike mem) (h : (W.setStatus root goal w).1 = .ok ()) :
    (mem (W.setStatus root goal w).2).status root = some goal := by
  rcases hm.setStatus root goal w with ⟨ho, hs⟩ | ⟨⟨causes, ho⟩, -⟩
  · rw [ho, MemoryStore.setStatus_eq_ok_iff] at h
    rw [hs, MemoryStore.status_setStatus, if_pos ⟨rfl, h⟩]
  · rw [ho] at h
    cases h

theorem mem_setStatus_of_error (hm : W.MemoryLike mem) {e : StoreError} (h : (W.setStatus root goal w).1 = .error e) :
    mem (W.setStatus root goal w).2 = mem w := by
  rcases hm.setStatus root goal w with ⟨ho, hs⟩ | ⟨-, hs⟩
  · rw [ho] at h
    rw [hs, MemoryStore.setStatus_of_error h]
  · exact hs

end World.MemoryLike

/-! ## The store over a course -/

namespace Downloader

variable {ω : Type} {W : World ω} {rules : Rules} {Delivers : Bytes → Prop} {world : ω} {mem : ω → MemoryStore}
variable {σ σ' : Stage} {r r' : Run ω}

/-- Judging stores a block from the network that is valid for somebody, if the store takes it. -/
theorem take_mem (hm : W.MemoryLike mem) (rules : Rules) (a : Arrival) (awaiting : Awaiting) (p : Pass) (r : Run ω) :
    mem (Pass.take W rules a awaiting p r).2.2.world = mem r.world ∨
    a.received = true ∧ mem (Pass.take W rules a awaiting p r).2.2.world = (mem r.world).put a.id a.raw := by
  rw [Pass.take_world]
  split
  · next hc =>
    rcases hm.put a.id a.raw (W.arrange awaiting r.world).2 with ⟨-, hp⟩ | ⟨-, hp⟩
    · rw [hp, hm.arrange_mem]
      exact .inr ⟨hc.1, rfl⟩
    · rw [hp, hm.arrange_mem]
      exact .inl rfl
  · exact .inl (hm.arrange_mem awaiting r.world)

theorem take_le (hm : W.MemoryLike mem) (rules : Rules) (a : Arrival) (awaiting : Awaiting) (p : Pass) (r : Run ω) :
    (mem r.world).Le (mem (Pass.take W rules a awaiting p r).2.2.world) := by
  rcases take_mem hm rules a awaiting p r with h | ⟨-, h⟩
  · rw [h]
    exact .refl _
  · rw [h]
    exact MemoryStore.le_put _ _ _

/-- What a step adds to the trace happens with no less in the store. -/
theorem Step.adds_le (hm : W.MemoryLike mem) (hs : Step W rules σ r σ' r') :
    Run.Adds (fun m => (mem r.world).Le (mem m.world)) r r' := by
  cases hs with
  | logged | broke | finished => exact .emit (.refl _)
  | arranged | asked | refused | found | missed | discarded | orphaned | settled | spared => exact .refl rfl
  | announced root =>
    refine .trans (.refl rfl) (.emit ?_)
    rw [Run.call_world, hm.getStatus_mem]
    exact .refl _
  | judged a awaiting p =>
    refine (Pass.take_adds W rules a awaiting p r).mono ?_
    rintro m ⟨-, -, hw | hw⟩
    · rw [hw, hm.arrange_mem]
      exact .refl _
    · rw [hw]
      exact take_le hm rules a awaiting p r
  | expanded child d => exact await_adds _ _ _ (.refl _)
  | released root d => exact dismiss_adds _ _ _ (.refl _)
  | fetched => exact .cons rfl (.refl _)
  | @completed w r root d =>
    have hle : (mem r.world).Le (mem (mark W root r).world) := by
      rw [mark_world]
      exact hm.setStatus_le root .full r.world
    exact (mark_adds _ _ W hle fun _ => hle).trans (dismiss_adds _ _ _ hle)

theorem Step.le (hm : W.MemoryLike mem) (hs : Step W rules σ r σ' r') : (mem r.world).Le (mem r'.world) := by
  cases hs with
  | logged | discarded | expanded | orphaned | settled | released | broke | spared | finished => exact .refl _
  | arranged xs => rw [Run.call_world, hm.arrange_mem]; exact .refl _
  | asked root => rw [Run.call_world, hm.getStatus_mem]; exact .refl _
  | announced root => rw [Run.notify_world, Run.call_world, hm.getStatus_mem]; exact .refl _
  | refused root => exact hm.setStatus_le root .part r.world
  | found id | missed id => rw [Run.call_world, hm.view_mem]; exact .refl _
  | judged a awaiting p => exact take_le hm rules a awaiting p r
  | fetched root d blocks => exact (congrArg _ (hm.fetch_mem _ _ _ _).symm).mp (.refl _)
  | completed root =>
    rw [dismiss_world, mark_world]
    exact hm.setStatus_le root .full _

theorem Opening.le (hm : W.MemoryLike mem) (ho : Opening W Delivers r σ' r') : (mem r.world).Le (mem r'.world) := by
  cases ho with
  | launched root => exact hm.setStatus_le root .part r.world
  | delivered => exact .refl _

theorem Opening.adds_le (hm : W.MemoryLike mem) (ho : Opening W Delivers r σ' r') :
    Run.Adds (fun m => (mem r.world).Le (mem m.world)) r r' := by
  cases ho with
  | launched root tag timeout =>
    have hle : (mem r.world).Le (mem (W.setStatus root .part r.world).2) := hm.setStatus_le root .part r.world
    exact ⟨_, launch_trace _ _ _ _, by simp [hle]⟩
  | delivered => exact .refl rfl

theorem Leads.le (hm : W.MemoryLike mem) (h : Leads W rules σ r σ' r') : (mem r.world).Le (mem r'.world) := by
  induction h with
  | refl => exact .refl _
  | tail _ hs ih => exact ih.trans (hs.le hm)

/-- The store keeps what it has at the start. -/
theorem Reached.le (hm : W.MemoryLike mem) (h : Reached W rules Delivers world σ r) : (mem world).Le (mem r.world) := by
  induction h with
  | start => exact .refl _
  | opened _ ho ih => exact ih.trans (ho.le hm)
  | step _ hs ih => exact ih.trans (hs.le hm)

/-- Where the blocks come from that are stored or to be judged, and that roots in flight are
partial. `start` is the store at the beginning. -/
structure Stock (mem : ω → MemoryStore) (Delivers : Bytes → Prop) (start : MemoryStore) (σ : Stage) (r : Run ω) :
    Prop where
  origin : ∀ {id raw}, (mem r.world).view id = .ok raw → start.view id = .ok raw ∨ id.Names raw ∧ Delivers raw
  received : ∀ a ∈ σ.queue, a.received = true → a.id.Names a.raw ∧ Delivers a.raw
  resident : ∀ a ∈ σ.queue, a.received = false → (mem r.world).view a.id = .ok a.raw
  part : ∀ {root d}, r.state.roots.get? root = some d → (mem r.world).status root = some .part

namespace Stock

variable {start : MemoryStore}

/-- A block that is to be judged was there at the start or was delivered under its name. -/
theorem origin_of_mem (h : Stock mem Delivers start σ r) {a : Arrival} (ha : a ∈ σ.queue) :
    start.view a.id = .ok a.raw ∨ a.id.Names a.raw ∧ Delivers a.raw := by
  cases hc : a.received with
  | true => exact .inr (h.received a ha hc)
  | false => exact h.origin (h.resident a ha hc)

/-- Judging stores nothing but the block, and that only if it came from the network. -/
theorem take (hm : W.MemoryLike mem) {q : List Arrival} {w : List BlockId} {a : Arrival} {awaiting : Awaiting}
    {p : Pass} {o' : List Child} {m' : List (RootId × FormatError)}
    (h : Stock mem Delivers start ⟨a :: q, [], w, [], []⟩ r) :
    Stock mem Delivers start ⟨q, [], w, o', m'⟩ (Pass.take W rules a awaiting p r).2.2 := by
  have hmem := take_mem hm rules a awaiting p r
  have hle := take_le hm rules a awaiting p r
  refine ⟨?_, fun b hb => h.received b (List.mem_cons_of_mem _ hb),
    fun b hb hc => hle.view (h.resident b (List.mem_cons_of_mem _ hb) hc), ?_⟩
  · intro id raw hv
    rcases hmem with hw | ⟨hc, hw⟩
    · rw [hw] at hv
      exact h.origin hv
    · rw [hw, MemoryStore.view_put_eq_ok_iff] at hv
      rcases hv with hv | ⟨rfl, rfl, -⟩
      · exact h.origin hv
      · exact .inr (h.received a List.mem_cons_self hc)
  · intro root d' hd'
    obtain ⟨d, hd, -⟩ := (Pass.take_tuned W rules a awaiting p r).downloads hd'
    rcases hmem with hw | ⟨-, hw⟩
    · rw [hw]
      exact h.part hd
    · rw [hw, MemoryStore.status_put]
      exact h.part hd

theorem step (hm : W.MemoryLike mem) (h : Stock mem Delivers start σ r) (hs : Step W rules σ r σ' r') :
    Stock mem Delivers start σ' r' := by
  have hflight : ∀ {root d'}, r'.state.roots.get? root = some d' → ∃ d, r.state.roots.get? root = some d := by
    intro root d' hd'
    cases hg : r.state.roots.get? root with
    | some d => exact ⟨d, rfl⟩
    | none =>
      rw [hs.get?_eq_none hg] at hd'
      cases hd'
  -- where the store stays as it is, only the blocks to be judged matter
  have hsame : mem r'.world = mem r.world → (∀ a ∈ σ'.queue, a ∈ σ.queue) → Stock mem Delivers start σ' r' := by
    intro hw hq
    refine ⟨by rw [hw]; exact h.origin, fun a ha => h.received a (hq a ha), ?_, ?_⟩
    · intro a ha hc
      rw [hw]
      exact h.resident a (hq a ha) hc
    · intro root d' hd'
      obtain ⟨d, hd⟩ := hflight hd'
      rw [hw]
      exact h.part hd
  cases hs with
  | logged | orphaned | settled | released | broke | spared | finished | expanded => exact hsame rfl fun _ ha => ha
  | discarded => exact hsame rfl fun _ ha => List.mem_cons_of_mem _ ha
  | arranged xs => exact hsame (hm.arrange_mem xs r.world) fun _ ha => ha
  | asked root | announced root => exact hsame (hm.getStatus_mem root r.world) fun _ ha => ha
  | refused root e he => exact hsame (hm.mem_setStatus_of_error he) fun _ ha => ha
  | missed id => exact hsame (hm.view_mem id r.world) fun _ ha => ha
  | fetched root d blocks => exact hsame (hm.fetch_mem _ _ _ _) fun _ ha => ha
  | found id raw hv =>
    have hw : mem (r.call (W.view id)).2.world = mem r.world := hm.view_mem id r.world
    refine ⟨by rw [hw]; exact h.origin, ?_, ?_, ?_⟩
    · intro a ha hc
      rcases List.mem_append.1 ha with ha | ha
      · exact h.received a ha hc
      · rw [List.mem_singleton.1 ha] at hc
        cases hc
    · intro a ha hc
      rw [hw]
      rcases List.mem_append.1 ha with ha | ha
      · exact h.resident a ha hc
      · rw [List.mem_singleton.1 ha]
        exact hm.view_of_ok hv
    · intro root d hd
      rw [hw]
      exact h.part hd
  | judged => exact h.take hm
  | @completed w r root d =>
    refine ⟨?_, by simp, by simp, ?_⟩
    · intro id raw hv
      rw [dismiss_world, mark_world, hm.view_setStatus] at hv
      exact h.origin hv
    · intro other d' hd'
      obtain ⟨d₀, hd₀⟩ := hflight hd'
      rw [dismiss_world, mark_world, hm.status_setStatus_of_ne (get?_of_dismiss hd').1]
      exact h.part hd₀

theorem opened (hm : W.MemoryLike mem) (h : Stock mem Delivers start .idle r) (ho : Opening W Delivers r σ' r') :
    Stock mem Delivers start σ' r' := by
  cases ho with
  | launched root tag timeout hn hok =>
    refine ⟨?_, by simp, by simp, ?_⟩
    · intro id raw hv
      rw [launch_world, Run.call_world, hm.view_setStatus] at hv
      exact h.origin hv
    · intro other d hd
      rw [launch_world, Run.call_world]
      rcases Table.get?_insert_eq_some_iff.1 hd with ⟨rfl, -⟩ | ⟨hne, hd⟩
      · exact hm.status_setStatus_of_ok hok
      · rw [hm.status_setStatus_of_ne hne]
        exact h.part hd
  | delivered id raw hn hd =>
    refine ⟨h.origin, ?_, ?_, h.part⟩
    · intro a ha _
      rw [List.mem_singleton.1 ha]
      exact ⟨hn, hd⟩
    · intro a ha hc
      rw [List.mem_singleton.1 ha] at hc
      cases hc

end Stock

theorem Reached.stock (hm : W.MemoryLike mem) (h : Reached W rules Delivers world σ r) :
    Stock mem Delivers (mem world) σ r := by
  induction h with
  | start => exact ⟨.inl, by simp [Stage.idle], by simp [Stage.idle], by simp [State.initial, Table.get?]⟩
  | opened _ ho ih => exact ih.opened hm ho
  | step _ hs ih => exact ih.step hm hs

end Downloader

/-! ## A small world -/

namespace Sample

open Downloader

/-- Blocks have room for two links, and payloads at most 1000 bytes. -/
def rules : Rules where
  size := ⟨71, by decide, by decide, by decide⟩
  limits _ := some ⟨1000, 60000⟩

/-- A network that accepts every call. -/
def network : Simulation.Refusals := ⟨false, [], false⟩

/-- Over an empty store. -/
def run (events : List Event) : Run (MemoryStore × Simulation.Refusals) :=
  history (World.over MemoryStore.operations Simulation.Refusals.outside) rules events (.empty, network)

/-- Over an empty store with faults. -/
def runWith (faults : Faults) (events : List Event) : Run ((MemoryStore × Faults) × Simulation.Refusals) :=
  history (World.over MemoryStore.operations.withFaults Simulation.Refusals.outside) rules events
    ((.empty, faults), network)

/-- A payload that fits into its root. -/
def word : Bytes := [104, 101, 108, 108, 111]

/-- A payload of two leaves below its root. -/
def leaves : Bytes := List.replicate 69 1 ++ List.replicate 69 2

/-- What a payload is split into. -/
def blob (payload : Bytes) : EncodedBlob :=
  match EncodedBlob.split rules.size .blockBody payload with
  | .ok blob => blob
  | .error _ => ⟨.of [], []⟩

theorem split_eq {payload : Bytes} (h : (EncodedBlob.split rules.size .blockBody payload).isOk = true) :
    EncodedBlob.split rules.size .blockBody payload = .ok (blob payload) := by
  unfold blob
  cases hs : EncodedBlob.split rules.size .blockBody payload with
  | ok b => rfl
  | error e =>
    rw [hs] at h
    cases h

/-- A payload is asked for, and its blocks come in level order. -/
def download (payload : Bytes) : List Event :=
  .kickoff (blob payload).root .blockBody :: (blob payload).blocks.map fun b => .delivered b.1 b.2

end Sample

end BlockDag
