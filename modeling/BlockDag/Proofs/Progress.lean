/-
An honest download makes progress. Of an honest blob no block proves anything but what it is, and
what the root waits for are blocks of the blob. So each of them that is delivered is validated at one
position more at least; there are only so many positions, and a download that waits for nothing is
not left over. Hence the blocks may come in any order, among others that the network delivers.
-/
import BlockDag.Proofs.Honest
import BlockDag.Proofs.Persistence

namespace BlockDag.Downloader

variable {ω : Type} {W : World ω} {rules : Rules} {Delivers : Bytes → Prop} {world : ω} {mem : ω → MemoryStore}
variable {σ : Stage} {r r' r'' : Run ω} {root : RootId} {session : SessionId} {t : Schema} {tree : Nat → NamedBlock}

/-- `root` waits for the block `id`. -/
def State.WaitsFor (s : State) (root : RootId) (id : BlockId) : Prop := s.pending.positions id root ≠ []

instance (s : State) (root : RootId) (id : BlockId) : Decidable (s.WaitsFor root id) :=
  inferInstanceAs (Decidable (s.pending.positions id root ≠ []))

/-- What is validated stays validated. -/
theorem Run.Adds.validatedAt_le {P : Moment ω → Prop} (h : Run.Adds P r r') (root : RootId) (session : SessionId) :
    (validatedAt root session r.trace).length ≤ (validatedAt root session r'.trace).length := by
  obtain ⟨new, hnew, -⟩ := h
  rw [hnew, validatedAt, validatedAt, List.flatMap_append, List.length_append]
  exact Nat.le_add_left _ _

/-! ## Blocks of the blob -/

section Genuine

/-- Whatever an honest root waits for is a block of the blob. -/
theorem Honest.of_waitsFor (h : Honest t tree .idle r) (hruns : r.state.Runs (tree 0).1 session) {id : BlockId}
    (hw : r.state.WaitsFor (tree 0).1 id) : ∃ ix < t.totalBlocks, (tree ix).1 = id := by
  obtain ⟨d, hd, -⟩ := State.runs_iff.1 hruns
  obtain ⟨ix, hix⟩ := List.exists_mem_of_ne_nil _ hw
  exact ⟨ix, h.places hd (.inl hix)⟩

/-- A root in flight waits for a block. -/
theorem Reached.exists_waitsFor (h : Reached W rules Delivers world .idle r) (hbusy : r.state.Busy)
    (hruns : r.state.Runs root session) : ∃ id, r.state.WaitsFor root id := by
  obtain ⟨d, hd, -⟩ := State.runs_iff.1 hruns
  have hne : r.state.pending.waits root ≠ [] := by
    intro hnil
    refine hbusy root d hd ?_
    rw [Download.Complete, h.books.account hd, hnil]
    rfl
  obtain ⟨⟨id, ix⟩, hm⟩ := List.exists_mem_of_ne_nil _ hne
  exact ⟨id, List.ne_nil_of_mem (PendingIndex.mem_waits.1 hm)⟩

/-- While an honest root is in flight, there are positions that were not validated yet. -/
theorem Reached.validated_lt (h : Reached W rules Delivers world .idle r) (hhonest : Honest t tree .idle r)
    (hbusy : r.state.Busy) (hruns : r.state.Runs (tree 0).1 session) :
    (validatedAt (tree 0).1 session r.trace).length < t.totalBlocks := by
  obtain ⟨d, hd, rfl⟩ := State.runs_iff.1 hruns
  have htiled := h.ledger.tiled _ d hd (by simp [Stage.idle])
  cases hphase : d.phase with
  | requested =>
    rw [hphase] at htiled
    cases htiled with
    | requested _ hv _ _ =>
      rw [hv]
      exact t.totalBlocks_pos
  | expanding s =>
    obtain rfl : s = t := hhonest.shape hd hphase
    rw [hphase] at htiled
    have hroom := htiled.length_le (h.books.expanding hd hphase).1
    have hwaits := h.books.account hd
    have hmore := hbusy _ d hd
    rw [Download.Complete, hwaits] at hmore
    rw [State.waitsAt, List.length_map] at hroom
    omega

/-- Where a position was validated, the shape is known. -/
theorem Reached.phase_of_validated (h : Reached W rules Delivers world .idle r) (hhonest : Honest t tree .idle r)
    {d : Download} (hd : r.state.roots.get? (tree 0).1 = some d)
    (hval : 0 < (validatedAt (tree 0).1 d.session r.trace).length) : d.phase = .expanding t := by
  have htiled := h.ledger.tiled _ d hd (by simp [Stage.idle])
  cases hphase : d.phase with
  | requested =>
    rw [hphase] at htiled
    cases htiled with
    | requested _ hv _ _ =>
      rw [hv] at hval
      exact absurd hval (Nat.lt_irrefl 0)
  | expanding s => rw [hhonest.shape hd hphase]

/-- A block that is judged is valid for an honest root that awaits it. -/
theorem Reached.mem_validated {q : List Arrival} {w : List BlockId} {a : Arrival} {awaiting : Awaiting}
    (hm : W.MemoryLike mem) (hg : Genuine rules Delivers (mem world) t tree)
    (h : Reached W rules Delivers world ⟨a :: q, [], w, [], []⟩ r) (ha : r.state.pending.get? a.id = some awaiting)
    (hruns : r.state.Runs (tree 0).1 session) (hw : r.state.WaitsFor (tree 0).1 a.id) (p : Pass) :
    (tree 0).1 ∈ (Pass.take W rules a awaiting p r).1.validated := by
  have hspared := ((h.step (.judged a awaiting p ha)).honest hm hg).undoomed
  have hruns' := State.Tuned.runs (Pass.take_tuned W rules a awaiting p r) hruns
  obtain ⟨d', hd', -⟩ := State.runs_iff.1 hruns'
  obtain ⟨d, -, hf⟩ := h.books.fate ha W p hd'
  cases hf with
  | passed hpos => exact absurd hpos hw
  | broken e _ hmal => exact absurd hmal (hspared e)
  | grown block s _ _ _ _ hval => exact hval

/-- A block of the blob that is delivered while the root waits for it is validated at one position
more at least. -/
theorem Reached.validated_grows (hm : W.MemoryLike mem) (hg : Genuine rules Delivers (mem world) t tree)
    (h : Reached W rules Delivers world .idle r) (hruns : r.state.Runs (tree 0).1 session) {id : BlockId} {raw : Bytes}
    (hnames : id.Names raw) (hd : Delivers raw) (hw : r.state.WaitsFor (tree 0).1 id) :
    (validatedAt (tree 0).1 session r.trace).length <
      (validatedAt (tree 0).1 session (handle W rules (.delivered id raw) r).trace).length := by
  have hopened := h.opened (.delivered id raw hnames hd)
  obtain ⟨awaiting, ha⟩ : ∃ awaiting, r.state.pending.get? id = some awaiting :=
    (PendingIndex.has_iff_get? _ _).1 (PendingIndex.has_of_positions hw)
  obtain ⟨p, hlater⟩ := process_after_take (a := ⟨id, raw, true⟩) ha W rules
  have hval := hopened.mem_validated hm hg ha hruns hw p
  have htake := h.books.validatedAt_take (a := ⟨id, raw, true⟩) ha W p (tree 0).1 session
  rw [if_pos ⟨hval, hruns⟩] at htake
  have hpos := List.length_pos_iff.2 hw
  have hle := hlater.validatedAt_le (tree 0).1 session
  rw [htake, List.length_append] at hle
  rw [handle, deliver, if_pos hnames]
  dsimp only at hle
  omega

end Genuine

/-! ## Honest downloads over events -/

/-- An honest download goes on through an event, or ends with its root added. -/
theorem Reached.goes_on (hm : W.MemoryLike mem) (hg : Genuine rules Delivers (mem world) t tree)
    (h : Reached W rules Delivers world .idle r) {event : Event}
    (hdeliver : ∀ {id raw}, event = .delivered id raw → Delivers raw)
    (hlive : ∀ session, event ≠ .deadline (tree 0).1 session)
    (haccepted : Run.Adds Moment.Accepted r (handle W rules event r)) (hruns : r.state.Runs (tree 0).1 session) :
    (handle W rules event r).state.Runs (tree 0).1 session ∨
      Run.Shows (Moment.Announces (tree 0).1) r (handle W rules event r) := by
  refine ((handle_lasts (tree 0).1 rules hlive r).stays hruns).imp_right ?_
  intro hshows
  have hspared := ((handle_reached h hdeliver).honest hm hg).spared
  obtain ⟨new, hnew, m, hmem, hends, haccepted⟩ := hshows.and_adds haccepted
  refine ⟨new, hnew, m, hmem, ?_⟩
  rcases hends with (hrefused | hannounced) | ⟨id, awaiting, verdict, e, hjudged, hmalformed⟩
  · exact absurd haccepted hrefused
  · exact hannounced
  · have hm' : m ∈ (handle W rules event r).trace := by
      rw [hnew]
      exact List.mem_append_left _ hmem
    exact absurd hmalformed ((hspared m hm').2 id awaiting verdict hjudged e)

/-- The event delivers a block of `blob` that the blob's root waits for. -/
def Event.Feeds (blob : EncodedBlob) (s : State) : Event → Prop
  | .delivered id raw => (id, raw) ∈ blob.blocks ∧ s.WaitsFor blob.root id
  | _ => False

instance (blob : EncodedBlob) (s : State) : (event : Event) → Decidable (event.Feeds blob s)
  | .delivered id raw => inferInstanceAs (Decidable ((id, raw) ∈ blob.blocks ∧ s.WaitsFor blob.root id))
  | .kickoff _ _ => inferInstanceAs (Decidable False)
  | .deadline _ _ => inferInstanceAs (Decidable False)

/-- How many of the events deliver a block of `blob` that its root waits for at the time. -/
def feeds (W : World ω) (rules : Rules) (blob : EncodedBlob) : List Event → Run ω → Nat
  | [], _ => 0
  | event :: events, r =>
    (if event.Feeds blob r.state then 1 else 0) + feeds W rules blob events (handle W rules event r)

/-- As many blocks of an honest blob as it has positions, each delivered while its root waits for it,
end with the root added, whatever else happens but a call that is refused or the root's deadline. -/
theorem Reached.play_announces {blob : EncodedBlob} (hm : W.MemoryLike mem)
    (hg : Genuine rules Delivers (mem world) t tree) (hroot : blob.root = (tree 0).1)
    (hnames : ∀ b ∈ blob.blocks, b.1.Names b.2) {events : List Event} (h : Reached W rules Delivers world .idle r)
    (hbusy : r.state.Busy) (hruns : r.state.Runs (tree 0).1 session)
    (hdeliver : ∀ {id raw}, .delivered id raw ∈ events → Delivers raw)
    (hlive : ∀ session, .deadline (tree 0).1 session ∉ events)
    (haccepted : Run.Adds Moment.Accepted r (play W rules events r))
    (henough : t.totalBlocks ≤ (validatedAt (tree 0).1 session r.trace).length + feeds W rules blob events r) :
    Run.Shows (Moment.Announces (tree 0).1) r (play W rules events r) := by
  induction events generalizing r with
  | nil =>
    -- there are positions left, but no deliveries
    have hlt := h.validated_lt (h.honest hm hg) hbusy hruns
    exact absurd henough (Nat.not_le.2 hlt)
  | cons event events ih =>
    have hdeliver₀ : ∀ {id raw}, event = .delivered id raw → Delivers raw := by
      rintro id raw rfl
      exact hdeliver List.mem_cons_self
    have hlive₀ : ∀ session, event ≠ .deadline (tree 0).1 session := by
      rintro session rfl
      exact hlive session List.mem_cons_self
    have hlive' : ∀ session, .deadline (tree 0).1 session ∉ events :=
      fun session hmem => hlive session (List.mem_cons_of_mem _ hmem)
    have hfirst := (handle_lasts (W := W) (tree 0).1 rules hlive₀ r).grows
    have hrest := (play_lasts (W := W) (tree 0).1 rules hlive' (handle W rules event r)).grows
    obtain ⟨haccepted₀, haccepted'⟩ := hfirst.split hrest haccepted
    rcases h.goes_on hm hg hdeliver₀ hlive₀ haccepted₀ hruns with hruns' | hshows
    · have hmore : (validatedAt (tree 0).1 session r.trace).length + (if event.Feeds blob r.state then 1 else 0) ≤
          (validatedAt (tree 0).1 session (handle W rules event r).trace).length := by
        split
        · next hfeeds =>
          cases event with
          | kickoff | deadline => cases hfeeds
          | delivered id raw =>
            obtain ⟨hmem, hw⟩ := hfeeds
            rw [hroot] at hw
            exact h.validated_grows hm hg hruns (hnames _ hmem) (hdeliver₀ rfl) hw
        · exact hfirst.validatedAt_le _ _
      refine .earlier hfirst ?_
      refine ih (handle_reached h hdeliver₀) (handle_busy rules event hbusy) hruns' ?_ hlive' haccepted' ?_
      · intro id raw hmem
        exact hdeliver (List.mem_cons_of_mem _ hmem)
      · rw [feeds] at henough
        omega
    · exact hshows.later hrest

/-! ## The blob of a payload -/

/-- The tree of a payload within the limits is genuine also where its own blocks are delivered. -/
theorem Genuine.of_split {start : MemoryStore} {payload : Bytes} {limits : TagLimits} {blob : EncodedBlob}
    (hlim : rules.limits .blockBody = some limits) (hmax : payload.length ≤ limits.maxSize)
    (hsplit : EncodedBlob.split rules.size .blockBody payload = .ok blob)
    (hnamed : ∀ {id raw}, start.view id = .ok raw → id.Names raw)
    (hdistinct : ∀ b ∈ blob.blocks, ∀ b' ∈ blob.blocks, b.1 = b'.1 → b.2 = b'.2)
    (hunique : ∀ b ∈ blob.blocks, ∀ raw, b.1.Names raw → (Delivers raw ∨ ∃ id, start.view id = .ok raw) → raw = b.2) :
    ∃ tree, Genuine rules (fun raw => Delivers raw ∨ ∃ b ∈ blob.blocks, raw = b.2) start
        (Schema.ofDeclared rules.size (payload.length + 1)) tree ∧
      (Schema.ofDeclared rules.size (payload.length + 1)).Named tree ∧
      blob = ⟨(tree 0).1, (List.range (Schema.ofDeclared rules.size (payload.length + 1)).totalBlocks).map tree⟩ := by
  obtain ⟨tree, hlaid, hnames, hframe, hblob⟩ := EncodedBlob.laid_of_split hsplit
  have hblock : ∀ {ix}, ix < (Schema.ofDeclared rules.size (payload.length + 1)).totalBlocks →
      tree ix ∈ blob.blocks := by
    intro ix hix
    rw [hblob]
    exact List.mem_map.2 ⟨ix, List.mem_range.2 hix, rfl⟩
  refine ⟨tree, ⟨hlaid, ?_, ?_, ?_⟩, hnames, hblob⟩
  · rintro ⟨⟩
    exact Judgement.rootSchema_of_frame hlim hmax hlaid hframe
  · intro ix raw hix hv
    exact hunique _ (hblock hix) raw (hnamed hv) (.inr ⟨_, hv⟩)
  · rintro ix raw hix hn (hd | ⟨b, hb, rfl⟩)
    · exact hunique _ (hblock hix) raw hn (.inl hd)
    · -- the bytes of a block have one name, so the blocks have the same
      refine (hdistinct _ (hblock hix) b hb ?_).symm
      have hb' := hb
      rw [hblob, List.mem_map] at hb'
      obtain ⟨jx, hjx, rfl⟩ := hb'
      have hn' := hnames jx (List.mem_range.1 hjx)
      exact hn.symm.trans hn'

/-- How the download of a blob's root under `session` goes on from `r`, where its tree has the shape
`t` and the events to come are `rest`. -/
structure Advances (W : World ω) (rules : Rules) (blob : EncodedBlob) (t : Schema) (session : SessionId)
    (rest : List Event) (r : Run ω) : Prop where
  /-- The root waits for a block of the blob. -/
  waits : ∃ b ∈ blob.blocks, r.state.WaitsFor blob.root b.1
  /-- It waits for no other blocks. -/
  known : ∀ id, r.state.WaitsFor blob.root id → ∃ b ∈ blob.blocks, b.1 = id
  /-- Each block that it waits for completes the download, or is validated at one position more. -/
  fed : ∀ b ∈ blob.blocks, r.state.WaitsFor blob.root b.1 →
    Run.Adds Moment.Accepted r (handle W rules (.delivered b.1 b.2) r) →
    Run.Shows (Moment.Announces blob.root) r (handle W rules (.delivered b.1 b.2) r) ∨
      ∃ d, (handle W rules (.delivered b.1 b.2) r).state.roots.get? blob.root = some d ∧ d.session = session ∧
        d.phase = .expanding t ∧
        (validatedAt blob.root session r.trace).length <
          (validatedAt blob.root session (handle W rules (.delivered b.1 b.2) r).trace).length ∧
        (validatedAt blob.root session (handle W rules (.delivered b.1 b.2) r).trace).length < t.totalBlocks
  /-- As many deliveries of such blocks as there are positions left complete the download. -/
  ends : (∀ session, .deadline blob.root session ∉ rest) → Run.Adds Moment.Accepted r (play W rules rest r) →
    t.totalBlocks ≤ (validatedAt blob.root session r.trace).length + feeds W rules blob rest r →
    Run.Shows (Moment.Announces blob.root) r (play W rules rest r)

/-- The download of a payload within the limits advances with every block of its own that it is
given, where no other bytes have the name of one of its blocks, at the start or among what is
delivered. -/
theorem genuine_advances {ν : Type} (N : Outside ν) (rules : Rules) (events rest : List Event)
    (world : MemoryStore × ν) {payload : Bytes} {limits : TagLimits} {blob : EncodedBlob} {session : SessionId}
    (hlim : rules.limits .blockBody = some limits) (hmax : payload.length ≤ limits.maxSize)
    (hsplit : EncodedBlob.split rules.size .blockBody payload = .ok blob)
    (hnamed : ∀ {id raw}, world.1.view id = .ok raw → id.Names raw)
    (hdistinct : ∀ b ∈ blob.blocks, ∀ b' ∈ blob.blocks, b.1 = b'.1 → b.2 = b'.2)
    (hunique : ∀ b ∈ blob.blocks, ∀ raw, b.1.Names raw →
      (DeliveredIn (events ++ rest) raw ∨ ∃ id, world.1.view id = .ok raw) → raw = b.2)
    (hruns : (history (World.over MemoryStore.operations N) rules events world).state.Runs blob.root session) :
    Advances (World.over MemoryStore.operations N) rules blob (Schema.ofDeclared rules.size (payload.length + 1))
      session rest (history (World.over MemoryStore.operations N) rules events world) := by
  obtain ⟨tree, hg, hnames, rfl⟩ := Genuine.of_split hlim hmax hsplit hnamed hdistinct hunique
  generalize Schema.ofDeclared rules.size (payload.length + 1) = t at *
  have hm := World.over_memoryLike N
  have hbusy := history_busy (World.over MemoryStore.operations N) rules events world
  have hreached : Reached (World.over MemoryStore.operations N) rules
      (fun raw => DeliveredIn (events ++ rest) raw ∨ ∃ b ∈ (List.range t.totalBlocks).map tree, raw = b.2) world .idle
      (history (World.over MemoryStore.operations N) rules events world) :=
    play_reached .start fun hmem => .inl ⟨_, List.mem_append_left _ hmem⟩
  generalize history (World.over MemoryStore.operations N) rules events world = r at *
  have hhonest := hreached.honest hm hg
  have hnames' : ∀ b ∈ (List.range t.totalBlocks).map tree, b.1.Names b.2 := by
    intro b hb
    obtain ⟨ix, hix, rfl⟩ := List.mem_map.1 hb
    exact hnames ix (List.mem_range.1 hix)
  have hknown : ∀ id, r.state.WaitsFor (tree 0).1 id → ∃ b ∈ (List.range t.totalBlocks).map tree, b.1 = id := by
    intro id hw
    obtain ⟨ix, hix, rfl⟩ := hhonest.of_waitsFor hruns hw
    exact ⟨tree ix, List.mem_map.2 ⟨ix, List.mem_range.2 hix, rfl⟩, rfl⟩
  refine ⟨?_, hknown, ?_, ?_⟩
  · obtain ⟨id, hw⟩ := hreached.exists_waitsFor hbusy hruns
    obtain ⟨b, hb, rfl⟩ := hknown id hw
    exact ⟨b, hb, hw⟩
  · intro b hb hw haccepted
    have hdeliver : ∀ {id raw}, Event.delivered b.1 b.2 = .delivered id raw →
        DeliveredIn (events ++ rest) raw ∨ ∃ b ∈ (List.range t.totalBlocks).map tree, raw = b.2 := by
      rintro _ _ ⟨⟩
      exact .inr ⟨b, hb, rfl⟩
    have hmore := hreached.validated_grows hm hg hruns (hnames' b hb) (hdeliver rfl) hw
    have hreached' := handle_reached hreached hdeliver
    have hhonest' := hreached'.honest hm hg
    rcases hreached.goes_on hm hg hdeliver (by simp) haccepted hruns with hruns' | hshows
    · right
      have hlt := hreached'.validated_lt hhonest' (handle_busy rules _ hbusy) hruns'
      obtain ⟨d, hd, rfl⟩ := State.runs_iff.1 hruns'
      exact ⟨d, hd, rfl, hreached'.phase_of_validated hhonest' hd (Nat.zero_lt_of_lt hmore), hmore, hlt⟩
    · exact .inl hshows
  · intro hlive haccepted henough
    exact hreached.play_announces hm hg rfl hnames' hbusy hruns
      (fun hmem => .inl ⟨_, List.mem_append_right _ hmem⟩) hlive haccepted henough

/-- After the kickoff, the three blocks of the blob complete it. -/
theorem genuine_advances_leaves :
    (Sample.run [.kickoff (Sample.blob Sample.leaves).root .blockBody]).state.Runs (Sample.blob Sample.leaves).root 1 ∧
    Run.Shows (Moment.Announces (Sample.blob Sample.leaves).root)
      (Sample.run [.kickoff (Sample.blob Sample.leaves).root .blockBody])
      (play (World.over MemoryStore.operations Simulation.Refusals.outside) Sample.rules
        ((Sample.blob Sample.leaves).blocks.map fun b => .delivered b.1 b.2)
        (Sample.run [.kickoff (Sample.blob Sample.leaves).root .blockBody])) := by
  have hsplit : EncodedBlob.split Sample.rules.size .blockBody Sample.leaves = .ok (Sample.blob Sample.leaves) :=
    Sample.split_eq (by decide +kernel)
  have hdistinct : ∀ b ∈ (Sample.blob Sample.leaves).blocks, ∀ b' ∈ (Sample.blob Sample.leaves).blocks,
      b.1 = b'.1 → b.2 = b'.2 := by decide +kernel
  have hown : ∀ b ∈ (Sample.blob Sample.leaves).blocks, ∀ b' ∈ (Sample.blob Sample.leaves).blocks,
      b.1.Names b'.2 → b'.2 = b.2 := by decide +kernel
  have hruns : (Sample.run [.kickoff (Sample.blob Sample.leaves).root .blockBody]).state.Runs
      (Sample.blob Sample.leaves).root 1 := by decide +kernel
  have hadvances := genuine_advances Simulation.Refusals.outside Sample.rules
    [.kickoff (Sample.blob Sample.leaves).root .blockBody]
    ((Sample.blob Sample.leaves).blocks.map fun b => .delivered b.1 b.2) (.empty, Sample.network) rfl
    (by decide +kernel) hsplit (by simp) hdistinct ?_ hruns
  · refine ⟨hruns, hadvances.ends (by simp) ?_ (by decide +kernel)⟩
    exact (play_lasts (Sample.blob Sample.leaves).root _ (by simp) _).grows.of_forall (by decide +kernel)
  · rintro b hb raw hn (⟨id, hd⟩ | ⟨id, hv⟩)
    · rcases List.mem_cons.1 hd with hd | hd
      · cases hd
      · obtain ⟨b', hb', heq⟩ := List.mem_map.1 hd
        obtain ⟨-, rfl⟩ := Event.delivered.inj heq
        exact hown b hb b' hb' hn
    · rw [MemoryStore.view_empty] at hv
      cases hv

end BlockDag.Downloader
