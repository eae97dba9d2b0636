/-
Blocks that are asked for although the store has them. Where a pass finds a root malformed, the blocks
that it leaves behind are asked for again, and among them may be one that the store has and the pass
has not come to yet. No other call lists a block of the store.
-/
import BlockDag.Proofs.Clearing
import BlockDag.Proofs.Thrift

namespace BlockDag.Downloader

variable {ω ν : Type} {N : Outside ν} {rules : Rules} {Delivers : Bytes → Prop} {world : MemoryStore × ν}
variable {σ σ' : Stage} {r r' : Run (MemoryStore × ν)}

/-! ## Where nothing else is to be done -/

/-- No block that is asked for here is in the store. -/
def Moment.Lacks (m : Moment (MemoryStore × ν)) : Prop := ∀ id ∈ m.lists, ¬ m.world.1.Holds id

theorem Moment.lacks_of_lists {m : Moment (MemoryStore × ν)} (h : m.lists = []) : m.Lacks := by
  simp [Lacks, h]

theorem Moment.Early.lists {m : Moment ω} (h : m.Early) : m.lists = [] := by
  refine Moment.lists_eq_nil fun call he => ?_
  simp [Early, he] at h

/-- Where no block is to be judged, looked up or waited for, all that is waited for is missing. -/
theorem Step.lacks (hσ : σ.Settled) (hsought : Sought σ r)
    (hs : Step (World.over MemoryStore.operations N) rules σ r σ' r') : Run.Adds Moment.Lacks r r' := by
  have hsilent : Run.Adds (fun m => m.lists = []) r r' → Run.Adds Moment.Lacks r r' :=
    Run.Adds.mono fun _ => Moment.lacks_of_lists
  cases hs with
  | logged | broke | finished => exact hsilent (.emit (Moment.lists_eq_nil (by simp)))
  | arranged | asked | refused | found | missed | discarded | orphaned | settled | spared => exact .refl rfl
  | announced => exact hsilent (.trans (.refl rfl) (.emit (Moment.lists_eq_nil (by simp))))
  | judged => cases hσ.queue
  | expanded => cases hσ.owed
  | released => exact hsilent (dismiss_adds _ _ _ (Moment.lists_eq_nil (by simp)))
  | completed =>
    refine hsilent ((mark_adds _ _ _ ?_ fun e => ?_).trans (dismiss_adds _ _ _ ?_))
    all_goals exact Moment.lists_eq_nil (by simp)
  | fetched root d blocks left _ _ hawaited =>
    refine .cons rfl fun id hid hholds => ?_
    rcases hsought.resident (hawaited id hid) hholds with hunseen | ⟨a, ha, -⟩
    · rw [hσ.unseen] at hunseen
      cases hunseen
    · rw [hσ.queue] at ha
      cases ha

theorem Reached.lacks (hr : Reached (World.over MemoryStore.operations N) rules Delivers world σ r) (hσ : σ.Settled)
    (h : Leads (World.over MemoryStore.operations N) rules σ r σ' r') : Run.Adds Moment.Lacks r r' :=
  h.adds_of_settled hσ fun hl hσ₁ hs => hs.lacks hσ₁ (hr.leads hl).sought

/-! ## What is left behind -/

/-- The block `id` was asked for by a download of `s` that is out of flight in `s'`. -/
def Lost (id : BlockId) (s s' : State) : Prop :=
  ∃ root d, s.roots.get? root = some d ∧ id ∈ d.descendants ∧ s'.roots.get? root = none

/-- Only what downloads leave behind that ended since the state `s` is asked for again. -/
theorem Clearing.lost {W : World ω} {again again' : List BlockId} {r r' : Run ω} {s : State}
    (h : Clearing W again r again' r') (hfewer : ∀ {root d}, r.state.roots.get? root = some d →
      s.roots.get? root = some d) (hagain : ∀ id ∈ again, Lost id s r.state) :
    (∀ id ∈ again', Lost id s r'.state) ∧ Run.Adds (fun m => ∀ id ∈ m.lists, Lost id s m.state) r r' := by
  have hsilent : ∀ {r r' : Run ω}, Run.Adds (fun m => m.lists = []) r r' →
      Run.Adds (fun m => ∀ id ∈ m.lists, Lost id s m.state) r r' :=
    fun hadds => hadds.mono fun m hm => by simp [hm]
  cases h with
  | logged | notified => exact ⟨hagain, hsilent (.emit (Moment.lists_eq_nil (by simp)))⟩
  | arranged => exact ⟨hagain, .refl rfl⟩
  | released root d left hd _ hleft =>
    refine ⟨?_, hsilent (dismiss_adds _ _ _ (Moment.lists_eq_nil (by simp)))⟩
    intro id hid
    rcases List.mem_append.1 hid with hid | hid
    · refine ⟨root, d, hfewer hd, (hleft id hid).1, ?_⟩
      rw [dismiss_roots, Table.get?_erase, if_pos rfl]
    · obtain ⟨other, e, he, hasked, hgone⟩ := hagain id hid
      refine ⟨other, e, he, hasked, ?_⟩
      rw [dismiss_roots, Table.get?_erase, hgone, ite_self]
  | asked session blocks =>
    exact ⟨fun id hid => hagain id (List.mem_append_right _ hid),
      .cons rfl fun id hid => hagain id (List.mem_append_left _ hid)⟩
  | dropped hsub => exact ⟨fun id hid => hagain id (hsub.subset hid), .refl rfl⟩

theorem Clears.lost {W : World ω} {again again' : List BlockId} {r r' : Run ω} (h : Clears W again r again' r')
    (hnone : again = []) : (∀ id ∈ again', Lost id r.state r'.state) ∧
      Run.Adds (fun m => ∀ id ∈ m.lists, Lost id r.state m.state) r r' := by
  induction h with
  | refl => exact ⟨by simp [hnone], .refl rfl⟩
  | tail h hs ih =>
    obtain ⟨hagain, hadds⟩ := hs.lost h.fewer ih.1
    exact ⟨hagain, ih.2.trans hadds⟩

/-- Before `m` a block was judged that proved some root malformed, and `id` was asked for by a download
that was in flight then and is out of flight at `m`. -/
def LeftBehind (id : BlockId) (m : Moment ω) (earlier : List (Moment ω)) : Prop :=
  ∃ m' ∈ earlier, (∃ root, m'.Condemns root) ∧ Lost id m'.state m.state

/-- What is asked for is missing, but for what was left behind. -/
def Needed (m : Moment (MemoryStore × ν)) (earlier : List (Moment (MemoryStore × ν))) : Prop :=
  ∀ id ∈ m.lists, m.world.1.Holds id → LeftBehind id m earlier

section Needed

variable {new before : List (Moment (MemoryStore × ν))} {m : Moment (MemoryStore × ν)}

theorem Needed.of_subset (h : Needed m before) (hsub : before ⊆ new) : Needed m new := by
  intro id hid hholds
  obtain ⟨m', hm', hlost⟩ := h id hid hholds
  exact ⟨m', hsub hm', hlost⟩

theorem Moment.Lacks.needed (h : m.Lacks) : Needed m before := fun id hid hholds => absurd hholds (h id hid)

/-- What was needed after the moments `before` alone was needed. -/
theorem needed_append (h : ∀ m ∈ new, Needed m before) (hb : Throughout Needed before) :
    Throughout Needed (new ++ before) := by
  induction new with
  | nil => exact hb
  | cons m new ih =>
    refine throughout_cons.2 ⟨?_, ih fun m' hm' => h m' (List.mem_cons_of_mem _ hm')⟩
    exact (h m List.mem_cons_self).of_subset (List.subset_append_right _ _)

theorem Run.Does.needed (h : Run.Does (Throughout Needed) r r') {r'' : Run (MemoryStore × ν)}
    (h' : Run.Adds Moment.Lacks r' r'') : Run.Does (Throughout Needed) r r'' :=
  h.trans (.of_adds h') fun _ _ hnew hlacks => needed_append (fun m hm => (hlacks m hm).needed) hnew

end Needed

/-! ## Passes -/

/-- In a round, what the roots leave behind that are given up is needed. -/
theorem Pass.next_needed {r₀ : Run (MemoryStore × ν)} {p p' : Pass}
    (hr : Reached (World.over MemoryStore.operations N) rules Delivers world ⟨p.queue, [], p.wanted, [], []⟩ r)
    (h : Run.Does (Throughout Needed) r₀ r)
    (hn : next (World.over MemoryStore.operations N) rules p r = some (p', r')) :
    Reached (World.over MemoryStore.operations N) rules Delivers world ⟨p'.queue, [], p'.wanted, [], []⟩ r' ∧
      Run.Does (Throughout Needed) r₀ r' := by
  refine ⟨hr.leads (next_leads hr.inOrder hn).1, ?_⟩
  obtain ⟨a, queue, -, ⟨-, -, rfl⟩ | ⟨awaiting, ha, hh⟩⟩ := next_cases hn
  · exact h
  obtain ⟨new, hnew, hneeded⟩ := h
  obtain ⟨r₁, hclears, hnone, hexpand⟩ := handle_clears hh
  have htuned := take_tuned (World.over MemoryStore.operations N) rules a awaiting { p with queue } r
  obtain ⟨s, stored, htrace, hstored, hroots⟩ :=
    hr.books.take_trace ha (World.over MemoryStore.operations N) { p with queue }
  generalize Pass.take (World.over MemoryStore.operations N) rules a awaiting { p with queue } r = taken at *
  have hexpanded := expandAll_early (World.over MemoryStore.operations N) taken.1.children taken.2.1 r₁
  rw [hexpand] at hexpanded
  generalize hjudged : (⟨.judged a.id _ taken.1, _, s⟩ : Moment (MemoryStore × ν)) = judged at htrace
  have htaken : Throughout Needed ((stored ++ [judged]) ++ new) := by
    refine needed_append (fun m hm => (Moment.lacks_of_lists ?_).needed) hneeded
    rcases List.mem_append.1 hm with hm | hm
    · obtain ⟨⟨e, he⟩, -⟩ := hstored m hm
      exact Moment.lists_eq_nil (by simp [he])
    · rw [List.mem_singleton.1 hm, ← hjudged]
      rfl
  have hcleared : Run.Does (Throughout Needed) r₀ r₁ := by
    by_cases hmalformed : taken.1.malformed = []
    · refine ⟨(stored ++ [judged]) ++ new, ?_, htaken⟩
      rw [hnone hmalformed, htrace, hnew]
      simp
    · obtain ⟨⟨root, e⟩, hroot⟩ := List.exists_mem_of_ne_nil _ hmalformed
      obtain ⟨cleared, hcleared, hlost⟩ := ((hclears []).lost rfl).2
      refine ⟨cleared ++ ((stored ++ [judged]) ++ new), ?_, needed_append ?_ htaken⟩
      · rw [hcleared, htrace, hnew]
        simp
      intro m hm id hid _
      -- judging changed nothing of what the downloads had asked for
      obtain ⟨other, d, hd, hasked, hgone⟩ := hlost m hm id hid
      obtain ⟨d₀, hd₀, -, -, hdesc⟩ := htuned.downloads hd
      obtain ⟨d₁, hd₁, hasked₁⟩ : ∃ d₁, s.roots.get? other = some d₁ ∧ id ∈ d₁.descendants :=
        ⟨_, (hroots other).trans (congrArg _ hd₀), (hdesc ▸ hasked : id ∈ d₀.descendants)⟩
      refine ⟨judged, by simp, ?_, other, d₁, ?_, hasked₁, hgone⟩
      · rw [← hjudged]
        exact ⟨root, a.id, _, taken.1, e, rfl, hroot⟩
      · rw [← hjudged]
        exact hd₁
  exact hcleared.needed (hexpanded.mono fun m hm => Moment.lacks_of_lists hm.lists)

theorem process_needed {r₀ : Run (MemoryStore × ν)} {a : Arrival}
    (hr : Reached (World.over MemoryStore.operations N) rules Delivers world ⟨[a], [], [], [], []⟩ r)
    (h : Run.Does (Throughout Needed) r₀ r) :
    Run.Does (Throughout Needed) r₀ (process (World.over MemoryStore.operations N) rules a r) := by
  have hrounds := Pass.rounds_next (C := fun p r₁ =>
      Reached (World.over MemoryStore.operations N) rules Delivers world ⟨p.queue, [], p.wanted, [], []⟩ r₁ ∧
        Run.Does (Throughout Needed) r₀ r₁) (fun h hn => Pass.next_needed h.1 h.2 hn) (Pass.roundBound r.state)
    (p := Pass.start a) ⟨hr, h⟩
  have hr₁ := hr.leads (rounds_leads (W := World.over MemoryStore.operations N) (Pass.roundBound r.state)
    (Pass.start a) r hr.inOrder (hr.books.potential_le (Nat.le_refl 1)))
  exact hrounds.2.needed (hr₁.lacks ⟨rfl, rfl, rfl⟩ (finish_leads hr₁.inOrder))

/-! ## Events -/

theorem Reached.handle_needed (hr : Reached (World.over MemoryStore.operations N) rules (fun _ => True) world .idle r)
    (event : Event) : Run.Does (Throughout Needed) r (handle (World.over MemoryStore.operations N) rules event r) := by
  have hearly : ∀ {r₁}, Run.Adds Moment.Early r r₁ → Run.Does (Throughout Needed) r r₁ := fun ha =>
    (Run.Does.refl (by simp [Throughout])).needed (ha.mono fun m hm => Moment.lacks_of_lists hm.lists)
  have hresponse := handle_response (World.over MemoryStore.operations N) rules event r fun _ => trivial
  generalize handle (World.over MemoryStore.operations N) rules event r = r' at hresponse
  cases hresponse with
  | pass _ hp ha => exact process_needed (hr.proceeds hp) (hearly ha)
  | @asks root r₁ hp hhas ha =>
    refine (hearly ha).needed ((hr.proceeds hp).lacks ⟨rfl, rfl, rfl⟩
      (fetch_leads [root] [] (hr.proceeds hp).inOrder (List.cons_ne_nil _ _) ?_))
    intro id hid
    rw [List.mem_singleton.1 hid]
    exact hhas
  | frees root hp ha =>
    exact (hearly ha).needed ((hr.proceeds hp).lacks ⟨rfl, rfl, rfl⟩ (free_leads (hr.proceeds hp).inOrder root).1)
  | rests _ ha => exact hearly ha

/-- What a new downloader does in handling an event, one with a past does too. -/
theorem lifetime_handle {σ : Type} {S : BlockStore σ} {P : State → List (Moment (σ × ν)) → Prop} (hnone : ∀ s, P s [])
    (hnew : ∀ (N : Outside ν) events world event, Run.Does (P (history (World.over S N) rules events world).state)
      (history (World.over S N) rules events world)
      (handle (World.over S N) rules event (history (World.over S N) rules events world)))
    (hpast : ∀ (past : Past (σ × ν)) s new, P s new → P (past.state s) (new.map past.moment)) (N : Outside ν)
    (commands : List Command) (world : σ × ν) (event : Event) :
    Run.Does (P (lifetime (World.over S N) rules commands world).state) (lifetime (World.over S N) rules commands world)
      (handle (World.over S N) rules event (lifetime (World.over S N) rules commands world)) := by
  rcases lifetime_cases (World.over S N) rules commands world with ⟨events, heq⟩ | ⟨past, events, world', heq⟩
  · rw [heq]
    exact hnew N events world event
  · rw [heq, past.handle, World.over_after]
    cases past.event? event with
    | none => exact .refl (hnone _)
    | some event' =>
      obtain ⟨new, hn, hP⟩ := hnew (N.after past.opened) events world' event'
      exact ⟨new.map past.moment, past.run_trace hn, hpast past _ new hP⟩

namespace Past

variable (past : Past ω) {m : Moment ω}

theorem lists (m : Moment ω) : (past.moment m).lists = m.lists := by
  obtain ⟨effect, world, state⟩ := m
  cases effect <;> rfl

theorem condemns {root : RootId} (h : m.Condemns root) : (past.moment m).Condemns root := by
  obtain ⟨id, awaiting, verdict, e, he, hm⟩ := h
  refine ⟨id, awaiting, verdict, e, ?_, hm⟩
  change past.effect m.effect = _
  rw [he]
  rfl

theorem lost {id : BlockId} {s s' : State} (h : Lost id s s') : Lost id (past.state s) (past.state s') := by
  obtain ⟨root, d, hd, hasked, hgone⟩ := h
  refine ⟨root, past.download d, ?_, hasked, ?_⟩
  · exact (past.get?_map s.roots root).trans (by rw [hd]; rfl)
  · exact (past.get?_map s'.roots root).trans (by rw [hgone]; rfl)

end Past

theorem throughout_map {P Q : Moment ω → List (Moment ω) → Prop} {f : Moment ω → Moment ω} {new : List (Moment ω)}
    (hf : ∀ m earlier, P m earlier → Q (f m) (earlier.map f)) (h : Throughout P new) : Throughout Q (new.map f) := by
  induction new with
  | nil => simp [Throughout]
  | cons m new ih =>
    obtain ⟨hm, hnew⟩ := throughout_cons.1 h
    exact throughout_cons.2 ⟨hf m new hm, ih hnew⟩

/-- In every lifetime over a store in memory, and whatever an event brings, the only blocks of the store
that are asked for in handling it are those left behind: some root was judged malformed in this event,
and a download that had asked for the block went out of flight after that. -/
theorem resident_only_left_behind (N : Outside ν) (rules : Rules) (commands : List Command) (world : MemoryStore × ν)
    (event : Event) :
    Run.Does (Throughout Needed) (lifetime (World.over MemoryStore.operations N) rules commands world)
      (handle (World.over MemoryStore.operations N) rules event
        (lifetime (World.over MemoryStore.operations N) rules commands world)) := by
  refine lifetime_handle (P := fun _ => Throughout Needed) (by simp [Throughout]) ?_ ?_ N commands world event
  · intro N events world event
    have hr : Reached (World.over MemoryStore.operations N) rules (fun _ => True) world .idle
        (history (World.over MemoryStore.operations N) rules events world) := play_reached .start fun _ => trivial
    exact hr.handle_needed event
  · refine fun past _ new => throughout_map fun m earlier hm id hid hholds => ?_
    rw [past.lists] at hid
    obtain ⟨m', hm', ⟨root, hc⟩, hlost⟩ := hm id hid hholds
    exact ⟨past.moment m', List.mem_map_of_mem hm', ⟨root, past.condemns hc⟩, past.lost hlost⟩

/-! ## A block that is asked for though it is there -/

/-- A leaf of equal bytes. -/
def leaf (byte : UInt8) : Bytes := stump ++ List.replicate 69 byte

/-- A block of two links inside a tree. -/
def twig (left right : BlockId) : Bytes :=
  Bytes.ofNat linkCountSize 2 ++ (left.bytes ++ right.bytes ++ List.replicate 5 4)

/-- A root of two links, whose header declares so many bytes. -/
def crown (declared : Nat) (left right : BlockId) : Bytes :=
  Bytes.ofNat linkCountSize 2 ++
    (left.bytes ++ right.bytes ++ (Bytes.ofNat lengthHeaderSize declared ++ [DataTag.blockBody.byte]))

/-- The twig of two leaves, below which one tree has leaves and the other, larger one has twigs. -/
def shared : Bytes := twig (.of (leaf 2)) (.of (leaf 3))

def larger : Bytes := crown 361 (.of shared) missing

def smaller : Bytes := crown 213 (.of shared) (.of [2])

/-- The two leaves come in for a root of their own. Then both trees wait for the twig, and it comes in. -/
def resumed : Run (MemoryStore × Simulation.Refusals) :=
  lifetime (World.over MemoryStore.operations Simulation.Refusals.outside) Sample.rules
    [.event (.kickoff (.of (fork (.of (leaf 2)) (.of (leaf 3)))) .blockBody),
      .event (.delivered (.of (fork (.of (leaf 2)) (.of (leaf 3)))) (fork (.of (leaf 2)) (.of (leaf 3)))),
      .event (.delivered (.of (leaf 2)) (leaf 2)), .event (.delivered (.of (leaf 3)) (leaf 3)),
      .event (.kickoff (.of larger) .blockBody), .event (.delivered (.of larger) larger),
      .event (.kickoff (.of smaller) .blockBody), .event (.delivered (.of smaller) smaller),
      .event (.delivered (.of shared) shared)] (.empty, Sample.network)

/-- The first leaf proves the larger tree malformed. The second one, which the pass has not come to yet,
is asked for again, though the store has it. -/
theorem resident_asked_for : ∃ m ∈ resumed.trace, m.lists = [.of (leaf 3)] ∧ m.world.1.Holds (.of (leaf 3)) := by
  decide +kernel

end BlockDag.Downloader
