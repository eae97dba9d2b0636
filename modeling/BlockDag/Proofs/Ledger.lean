/-
The ledger of a download: every position that it was made wait at, and every position at which a
block was validated for it, read off the trace. What is validated tiles the tree together with what
is still waited for. So no position is awaited twice, none lies outside the tree, and a download
that waits for nothing has validated every position once.
-/
import BlockDag.Proofs.Requests
import BlockDag.Proofs.Tiling

namespace BlockDag.Downloader

variable {ω : Type} {W : World ω} {rules : Rules} {Delivers : Bytes → Prop} {world : ω}
variable {σ σ' : Stage} {r r' : Run ω} {root : RootId} {session : SessionId}

/-! ## Entries -/

/-- `root` is in flight under `session`. -/
def State.Runs (s : State) (root : RootId) (session : SessionId) : Prop :=
  (s.roots.get? root).map Download.session = some session

instance (s : State) (root : RootId) (session : SessionId) : Decidable (s.Runs root session) :=
  inferInstanceAs (Decidable ((s.roots.get? root).map Download.session = some session))

theorem State.runs_iff {s : State} :
    s.Runs root session ↔ ∃ d, s.roots.get? root = some d ∧ d.session = session :=
  Option.map_eq_some_iff

/-- The position that the download of `root` under `session` is made wait at. -/
def Moment.awaits (root : RootId) (session : SessionId) (m : Moment ω) : List Nat :=
  match m.effect with
  | .awaited other _ ix => if other = root ∧ m.state.Runs root session then [ix] else []
  | _ => []

/-- The positions at which a block is validated for the download of `root` under `session`. -/
def Moment.validates (root : RootId) (session : SessionId) (m : Moment ω) : List Nat :=
  match m.effect with
  | .judged _ awaiting verdict =>
    if root ∈ verdict.validated ∧ m.state.Runs root session then awaiting.positions root else []
  | _ => []

/-- All positions that a download was made wait at, the latest first. -/
def awaitedAt (root : RootId) (session : SessionId) (trace : List (Moment ω)) : List Nat :=
  trace.flatMap (Moment.awaits root session)

/-- All positions at which a block was validated for a download. -/
def validatedAt (root : RootId) (session : SessionId) (trace : List (Moment ω)) : List Nat :=
  trace.flatMap (Moment.validates root session)

/-- The positions at which `root` is owed children. -/
def owedAt (owed : List Child) (root : RootId) : List Nat :=
  (owed.filter fun c => decide (c.root = root)).map Child.position

/-- The positions at which `root` waits. -/
def State.waitsAt (s : State) (root : RootId) : List Nat := (s.pending.waits root).map Prod.snd

/-- Makes nobody wait, and judges nothing. -/
def Effect.Plain (e : Effect) : Prop :=
  (∀ root id ix, e ≠ .awaited root id ix) ∧ ∀ id awaiting verdict, e ≠ .judged id awaiting verdict

theorem Moment.awaits_of_plain {m : Moment ω} (h : m.effect.Plain) : m.awaits root session = [] := by
  unfold awaits
  split
  · next heq => exact absurd heq (h.1 _ _ _)
  · rfl

theorem Moment.validates_of_plain {m : Moment ω} (h : m.effect.Plain) : m.validates root session = [] := by
  unfold validates
  split
  · next heq => exact absurd heq (h.2 _ _ _)
  · rfl

/-- What is entered when `other`, in flight under `current`, is made wait at `ix`. -/
theorem awaitedAt_cons {m : Moment ω} {other : RootId} {id : BlockId} {ix : Nat} {current : SessionId}
    (he : m.effect = .awaited other id ix) (hruns : m.state.Runs other current) (trace : List (Moment ω))
    (root : RootId) (session : SessionId) : awaitedAt root session (m :: trace) =
      (if other = root ∧ current = session then [ix] else []) ++ awaitedAt root session trace := by
  have hentry : m.awaits root session = if other = root ∧ current = session then [ix] else [] := by
    unfold Moment.awaits
    rw [he]
    refine if_congr (and_congr_right ?_) rfl rfl
    rintro rfl
    rw [State.Runs] at hruns ⊢
    rw [hruns, Option.some.injEq]
  rw [← hentry]
  rfl

/-- Plain moments enter nothing into the ledger. -/
theorem awaitedAt_append_of_plain {new : List (Moment ω)} (h : ∀ m ∈ new, m.effect.Plain) (trace : List (Moment ω)) :
    awaitedAt root session (new ++ trace) = awaitedAt root session trace := by
  have hnone : awaitedAt root session new = [] :=
    List.flatMap_eq_nil_iff.2 fun m hm => Moment.awaits_of_plain (h m hm)
  unfold awaitedAt at *
  rw [List.flatMap_append, hnone, List.nil_append]

theorem validatedAt_append_of_plain {new : List (Moment ω)} (h : ∀ m ∈ new, m.effect.Plain)
    (trace : List (Moment ω)) : validatedAt root session (new ++ trace) = validatedAt root session trace := by
  have hnone : validatedAt root session new = [] :=
    List.flatMap_eq_nil_iff.2 fun m hm => Moment.validates_of_plain (h m hm)
  unfold validatedAt at *
  rw [List.flatMap_append, hnone, List.nil_append]

/-- Letting a root wait for a child enters its position. -/
theorem awaitedAt_await (child : Child) (d : Download) (r : Run ω) (root : RootId) (session : SessionId) :
    awaitedAt root session (Pass.await child d r).trace =
      (if child.root = root ∧ d.session = session then [child.position] else []) ++ awaitedAt root session r.trace := by
  have hruns : (Pass.await child d r).state.Runs child.root d.session := by
    rw [State.Runs, await_roots, Table.get?_insert, if_pos rfl]
    rfl
  exact awaitedAt_cons (m := ⟨_, r.world, (Pass.await child d r).state⟩) rfl hruns r.trace root session

/-- Putting a root in flight enters position 0. -/
theorem awaitedAt_launch (root : RootId) (tag : DataTag) (timeout : Nat) (r : Run ω) (other : RootId)
    (session : SessionId) : awaitedAt other session (launch root tag timeout r).trace =
      (if root = other ∧ r.state.opened + 1 = session then [0] else []) ++ awaitedAt other session r.trace := by
  have hruns : (launch root tag timeout r).state.Runs root (r.state.opened + 1) := by
    rw [State.Runs, launch_roots, Table.get?_insert, if_pos rfl]
    rfl
  exact awaitedAt_cons (m := ⟨_, r.world, (launch root tag timeout r).state⟩) rfl hruns r.trace other session

/-! ## What holds at every moment -/

/-- The positions a download was made wait at so far, and the blocks it asked for, are no more than
the shape of its tree admits; and the shape declares no more than is accepted. -/
structure Fits (rules : Rules) (awaited : List Nat) (d : Download) : Prop where
  requested : d.phase = .requested → (∀ ix ∈ awaited, ix = 0) ∧ d.descendants.size ≤ 1
  expanding : ∀ t, d.phase = .expanding t → (∀ ix ∈ awaited, ix < t.totalBlocks) ∧
    d.descendants.size ≤ t.totalBlocks ∧
    ∃ limits length, rules.limits d.tag = some limits ∧ length ≤ limits.maxSize ∧
      t = Schema.ofDeclared rules.size (length + 1)

/-- All positions of the tree of `root`, which waits for nothing, were validated, each once. -/
def Whole (trace : List (Moment ω)) (s : State) (root : RootId) : Prop :=
  ∃ d t, s.roots.get? root = some d ∧ d.phase = .expanding t ∧ d.Complete ∧
    (validatedAt root d.session trace).Perm (List.range t.totalBlocks)

/-- What holds at the moment `m` after `earlier`: the downloads in flight fit their shapes, positions
are awaited by and validated for downloads in flight only, and a root is marked when it is whole. -/
structure Recorded (rules : Rules) (m : Moment ω) (earlier : List (Moment ω)) : Prop where
  fits : ∀ root d, m.state.roots.get? root = some d → Fits rules (awaitedAt root d.session (m :: earlier)) d
  awaiting : ∀ root id ix, m.effect = .awaited root id ix → m.state.InFlight root
  judged : ∀ id awaiting verdict, m.effect = .judged id awaiting verdict →
    ∀ root ∈ verdict.validated, m.state.InFlight root
  marked : ∀ root outcome, m.effect = .marked root outcome → Whole earlier m.state root

/-- `P` holds at every moment of a trace, after the ones before it. -/
def Throughout (P : Moment ω → List (Moment ω) → Prop) (trace : List (Moment ω)) : Prop :=
  ∀ later m earlier, trace = later ++ m :: earlier → P m earlier

theorem throughout_cons {P : Moment ω → List (Moment ω) → Prop} {m : Moment ω} {trace : List (Moment ω)} :
    Throughout P (m :: trace) ↔ P m trace ∧ Throughout P trace := by
  constructor
  · intro h
    exact ⟨h [] m trace rfl, fun later m' earlier ht => h (m :: later) m' earlier (congrArg (m :: ·) ht)⟩
  · rintro ⟨hm, h⟩ later m' earlier ht
    rcases List.cons_eq_append_iff.1 ht with ⟨rfl, heq⟩ | ⟨later', rfl, heq⟩
    · obtain ⟨rfl, rfl⟩ := List.cons.inj heq
      exact hm
    · exact h later' m' earlier heq

instance decidableThroughout {P : Moment ω → List (Moment ω) → Prop} [∀ m earlier, Decidable (P m earlier)] :
    (trace : List (Moment ω)) → Decidable (Throughout P trace)
  | [] => .isTrue (by simp [Throughout])
  | m :: trace =>
    have := decidableThroughout (P := P) trace
    decidable_of_iff' _ throughout_cons

/-- `d` differs from `d₀` in what is outstanding at most. -/
structure Alike (d d₀ : Download) : Prop where
  tag : d.tag = d₀.tag
  session : d.session = d₀.session
  phase : d.phase = d₀.phase
  descendants : d.descendants = d₀.descendants

theorem Alike.refl (d : Download) : Alike d d := ⟨rfl, rfl, rfl, rfl⟩

theorem Fits.alike {awaited : List Nat} {d d₀ : Download} (h : Fits rules awaited d₀) (ha : Alike d d₀) :
    Fits rules awaited d := by
  obtain ⟨ht, -, hp, hd⟩ := ha
  constructor
  · rw [hp, hd]
    exact h.requested
  · rw [hp, hd, ht]
    exact h.expanding

theorem Fits.start {awaited : List Nat} (h : ∀ ix ∈ awaited, ix = 0) (root : RootId) (tag : DataTag)
    (session : SessionId) : Fits rules awaited (.start root tag session) := by
  refine ⟨fun _ => ⟨h, ?_⟩, ?_⟩
  · exact Nat.le_refl 1
  · rintro t ⟨⟩

/-- One more position is awaited, within the shape. -/
theorem Fits.expect {awaited awaited' : List Nat} {d : Download} {t : Schema} {id : BlockId} (h : Fits rules awaited d)
    (hphase : d.phase = .expanding t) (hin : ∀ ix ∈ awaited', ix < t.totalBlocks)
    (hroom : (d.expect id).descendants.size ≤ t.totalBlocks) : Fits rules awaited' (d.expect id) := by
  have hphase' : (d.expect id).phase = .expanding t := hphase
  constructor
  · intro hreq
    rw [hphase'] at hreq
    cases hreq
  · intro t' ht'
    obtain rfl : t = t' := DownloadPhase.expanding.inj (hphase'.symm.trans ht')
    exact ⟨hin, hroom, (h.expanding t hphase).2.2⟩

/-- Judging a block gives a download that waits for its root only a shape that is accepted, and
changes no other shape. -/
theorem Fits.judged {awaited positions : List Nat} {raw : Bytes} {v : Verdict} {d d' : Download}
    (h : Fits rules awaited d) (hf : Pass.Fate rules raw v root positions d d') : Fits rules awaited d' := by
  cases hf with
  | passed => exact h
  | broken => exact h.alike ⟨rfl, rfl, rfl, rfl⟩
  | grown block t hne hopen hphase =>
    refine ⟨by simp, ?_⟩
    rintro t' ⟨⟩
    rcases hphase with hp | ⟨hp, hroot⟩
    · exact h.expanding t hp
    · obtain ⟨hzero, hsize⟩ := h.requested hp
      obtain ⟨declared, rest, limits, -, hlim, h0, hmax, rfl⟩ := Judgement.rootSchema_eq_ok_iff.1 hroot
      have htotal := (Schema.ofDeclared rules.size declared).totalBlocks_pos
      refine ⟨?_, hsize.trans htotal, limits, declared - 1, hlim, hmax, by rw [Nat.sub_add_cancel h0]⟩
      intro ix hix
      rw [hzero ix hix]
      exact htotal

/-- A moment that enters nothing into the ledger, while the downloads are those of `s`. -/
structure Quiet (s : State) (trace : List (Moment ω)) (m : Moment ω) : Prop where
  plain : m.effect.Plain
  known : ∀ root d, m.state.roots.get? root = some d → ∃ d₀, s.roots.get? root = some d₀ ∧ Alike d d₀
  marked : ∀ root outcome, m.effect = .marked root outcome → Whole trace m.state root

/-- Quiet moments keep the record, where the downloads fit their shapes. -/
theorem Throughout.append {s : State} {trace new : List (Moment ω)} (h : Throughout (Recorded rules) trace)
    (hfits : ∀ root d, s.roots.get? root = some d → Fits rules (awaitedAt root d.session trace) d)
    (hq : ∀ m ∈ new, Quiet s trace m) : Throughout (Recorded rules) (new ++ trace) := by
  induction new with
  | nil => exact h
  | cons m new ih =>
    have hm := hq m List.mem_cons_self
    have hplain : ∀ m' ∈ m :: new, m'.effect.Plain := fun m' hm' => (hq m' hm').plain
    refine throughout_cons.2 ⟨?_, ih fun m' hm' => hq m' (List.mem_cons_of_mem _ hm')⟩
    refine ⟨?_, fun _ _ _ he => absurd he (hm.plain.1 _ _ _), fun _ _ _ he => absurd he (hm.plain.2 _ _ _), ?_⟩
    · intro root d hd
      obtain ⟨d₀, hd₀, ha⟩ := hm.known root d hd
      have hsame : awaitedAt root d.session (m :: new ++ trace) = awaitedAt root d.session trace :=
        awaitedAt_append_of_plain hplain trace
      have hfit := (hfits root d₀ hd₀).alike ha
      rw [← ha.session, ← hsame] at hfit
      exact hfit
    · intro root outcome he
      obtain ⟨d, t, hd, hp, hc, hperm⟩ := hm.marked root outcome he
      rw [← validatedAt_append_of_plain fun m' hm' => hplain m' (List.mem_cons_of_mem _ hm')] at hperm
      exact ⟨d, t, hd, hp, hc, hperm⟩

/-! ## Judging -/

section Judging

variable {a : Arrival} {awaiting : Awaiting}

/-- The moments of judging a block: the verdict, and then at most a report. The downloads are what
they were but for what is outstanding. -/
theorem Books.take_moments (hb : Books rules [] r.state) (ha : r.state.pending.get? a.id = some awaiting) (W : World ω)
    (p : Pass) : ∃ (s : State) (stored : List (Moment ω)), (Pass.take W rules a awaiting p r).2.2.trace =
        stored ++ ⟨.judged a.id (W.arrange awaiting r.world).1 (Pass.take W rules a awaiting p r).1,
          (W.arrange awaiting r.world).2, s⟩ :: r.trace ∧
      (∀ m ∈ stored, m.state = s ∧ m.effect.Plain ∧ ∀ root outcome, m.effect ≠ .marked root outcome) ∧
      (∀ root d, s.roots.get? root = some d → ∃ d₀, r.state.roots.get? root = some d₀ ∧ Alike d d₀) ∧
      ∀ root session, s.Runs root session ↔ r.state.Runs root session := by
  obtain ⟨s, stored, htrace, hstored, hs⟩ := hb.take_trace ha W p
  refine ⟨s, stored, htrace, ?_, ?_, ?_⟩
  · intro m hm
    obtain ⟨⟨e, he⟩, hstate⟩ := hstored m hm
    refine ⟨hstate, ⟨?_, ?_⟩, ?_⟩
    all_goals simp [he]
  · intro root d hd
    rw [hs] at hd
    obtain ⟨d₀, hd₀, rfl⟩ := Option.map_eq_some_iff.1 hd
    exact ⟨d₀, hd₀, ⟨rfl, rfl, rfl, rfl⟩⟩
  · intro root session
    rw [State.Runs, State.Runs, hs, Option.map_map]
    rfl

theorem Books.awaitedAt_take (hb : Books rules [] r.state) (ha : r.state.pending.get? a.id = some awaiting)
    (W : World ω) (p : Pass) (root : RootId) (session : SessionId) :
    awaitedAt root session (Pass.take W rules a awaiting p r).2.2.trace = awaitedAt root session r.trace := by
  obtain ⟨s, stored, htrace, hstored, -⟩ := hb.take_moments ha W p
  rw [htrace, awaitedAt_append_of_plain fun m hm => (hstored m hm).2.1]
  rfl

/-- A block is validated for a root at the positions that awaited it. -/
theorem Books.validatedAt_take (hb : Books rules [] r.state) (ha : r.state.pending.get? a.id = some awaiting)
    (W : World ω) (p : Pass) (root : RootId) (session : SessionId) :
    validatedAt root session (Pass.take W rules a awaiting p r).2.2.trace =
      (if root ∈ (Pass.take W rules a awaiting p r).1.validated ∧ r.state.Runs root session then
        r.state.pending.positions a.id root else []) ++ validatedAt root session r.trace := by
  have hw := hb.pending _ _ ha
  have hp := W.arrange_perm awaiting r.world
  have harranged : Awaiting.positions (W.arrange awaiting r.world).1 root = r.state.pending.positions a.id root := by
    rw [← Books.positions_of_get? ha, Awaiting.positions, Table.get?_perm hp ((hp.map Prod.fst).nodup_iff.2 hw.nodup)]
    rfl
  obtain ⟨s, stored, htrace, hstored, -, hruns⟩ := hb.take_moments ha W p
  rw [htrace, validatedAt_append_of_plain fun m hm => (hstored m hm).2.1, ← harranged]
  simp only [← hruns]
  rfl

/-- A root for which a block is valid is in flight. -/
theorem Books.get?_of_mem_validated (hb : Books rules [] r.state) (ha : r.state.pending.get? a.id = some awaiting)
    (W : World ω) (p : Pass) (hm : root ∈ (Pass.take W rules a awaiting p r).1.validated) :
    ∃ d, r.state.roots.get? root = some d := by
  rw [Pass.take_verdict (hb.pending _ _ ha).nodup] at hm
  obtain ⟨fresh, cs, hj⟩ := Verdict.mem_validated.1 hm
  obtain ⟨positions, hm, -⟩ := Verdict.mem_ofBlock.1 hj
  exact (hb.of_mem_awaiting ha ((W.arrange_perm awaiting r.world).mem_iff.1 hm)).2.2

end Judging

/-! ## The ledger -/

/-- The ledger is in order: no session was in flight before it was opened, no position was entered
twice, and what was entered for a root that is not proved malformed tiles its tree. -/
structure Ledger (rules : Rules) (σ : Stage) (r : Run ω) : Prop where
  past : ∀ m ∈ r.trace, ∀ root d, m.state.roots.get? root = some d → d.session ≤ r.state.opened
  once : ∀ root session, (awaitedAt root session r.trace).Nodup ∧ (validatedAt root session r.trace).Nodup
  asked : ∀ root d, r.state.roots.get? root = some d →
    d.descendants.size ≤ (awaitedAt root d.session r.trace).length
  fits : ∀ root d, r.state.roots.get? root = some d → Fits rules (awaitedAt root d.session r.trace) d
  tiled : ∀ root d, r.state.roots.get? root = some d → (∀ e, (root, e) ∉ σ.doomed) →
    Tiled (awaitedAt root d.session r.trace) (validatedAt root d.session r.trace) (r.state.waitsAt root)
      (owedAt σ.owed root) d.phase
  recorded : Throughout (Recorded rules) r.trace

namespace Ledger

/-- The ledger stays in order where nothing is entered, and those in flight wait for and are owed
what they did. -/
theorem carry (h : Ledger rules σ r) (hsessions : Sessions r.state) (hadds : Run.Adds (Quiet r.state r.trace) r r')
    (hopened : r'.state.opened = r.state.opened)
    (hroots : ∀ {root d}, r'.state.roots.get? root = some d → r.state.roots.get? root = some d ∧
      (r.state.waitsAt root).Perm (r'.state.waitsAt root) ∧ owedAt σ'.owed root = owedAt σ.owed root ∧
      ((∀ e, (root, e) ∉ σ'.doomed) → ∀ e, (root, e) ∉ σ.doomed)) : Ledger rules σ' r' := by
  have hadds' := hadds
  obtain ⟨new, hnew, hq⟩ := hadds
  have hplain : ∀ m ∈ new, m.effect.Plain := fun m hm => (hq m hm).plain
  have hawaited : ∀ root session, awaitedAt root session r'.trace = awaitedAt root session r.trace := by
    intro root session
    rw [hnew, awaitedAt_append_of_plain hplain]
  have hvalidated : ∀ root session, validatedAt root session r'.trace = validatedAt root session r.trace := by
    intro root session
    rw [hnew, validatedAt_append_of_plain hplain]
  refine ⟨?_, ?_, ?_, ?_, ?_, ?_⟩
  · intro m hm root d hd
    rw [hopened]
    rcases hadds'.mem hm with hm | hm
    · exact h.past m hm root d hd
    · obtain ⟨d₀, hd₀, ha⟩ := hm.known root d hd
      rw [ha.session]
      exact hsessions.bounded hd₀
  · intro root session
    rw [hawaited, hvalidated]
    exact h.once root session
  · intro root d hd
    rw [hawaited]
    exact h.asked root d (hroots hd).1
  · intro root d hd
    rw [hawaited]
    exact h.fits root d (hroots hd).1
  · intro root d hd hdoomed
    obtain ⟨hd₀, hwaits, howed, hd'⟩ := hroots hd
    rw [hawaited, hvalidated, howed]
    exact (h.tiled root d hd₀ (hd' hdoomed)).perm hwaits
  · rw [hnew]
    exact h.recorded.append h.fits hq

/-- A root that waits for nothing is whole. -/
theorem whole (h : Ledger rules σ r) (hb : Books rules σ.owed r.state) {d : Download}
    (hd : r.state.roots.get? root = some d) (hc : d.Complete) (howed : σ.owed = []) (hdoomed : σ.doomed = []) :
    Whole r.trace r.state root := by
  have htiled := h.tiled root d hd (by simp [hdoomed])
  have hnone : r.state.waitsAt root = [] := by
    rw [State.waitsAt, PendingIndex.waits_eq_nil_iff.2 ((hb.complete_iff hd).1 hc)]
    rfl
  rw [hnone, howed] at htiled
  obtain ⟨t, hp, hperm⟩ := htiled.validated_perm
  exact ⟨d, t, hd, hp, hc, hperm⟩

/-- Between events, no root waits twice for one block at one position. -/
theorem nodup_waits (h : Ledger rules .idle r) (hb : Books rules [] r.state) {d : Download}
    (hd : r.state.roots.get? root = some d) : (r.state.pending.waits root).Nodup := by
  have htiled := h.tiled root d hd (by simp [Stage.idle])
  apply List.Nodup.of_map Prod.snd
  apply htiled.nodup_waiting
  intro t hphase
  exact (hb.expanding hd hphase).1

section Judging

variable {q : List Arrival} {w : List BlockId} {a : Arrival} {awaiting : Awaiting}

/-- Judging keeps the tiling for a root that is spared: its positions are validated, and the children
owed instead. -/
theorem take_tiled (h : Ledger rules ⟨a :: q, [], w, [], []⟩ r) (hb : Books rules [] r.state)
    (ha : r.state.pending.get? a.id = some awaiting) (W : World ω) (p : Pass) (root : RootId) (d' : Download)
    (hd' : (Pass.take W rules a awaiting p r).2.2.state.roots.get? root = some d')
    (hspared : ∀ e, (root, e) ∉ (Pass.take W rules a awaiting p r).1.malformed) :
    Tiled (awaitedAt root d'.session (Pass.take W rules a awaiting p r).2.2.trace)
      (validatedAt root d'.session (Pass.take W rules a awaiting p r).2.2.trace)
      ((Pass.take W rules a awaiting p r).2.2.state.waitsAt root)
      (owedAt (Pass.take W rules a awaiting p r).1.children root) d'.phase := by
  obtain ⟨d, hd, hf⟩ := hb.fate ha W p hd'
  have hruns : r.state.Runs root d.session := State.runs_iff.2 ⟨d, hd, rfl⟩
  have htiled := h.tiled root d hd (by simp)
  have hsplit : (r.state.waitsAt root).Perm
      (r.state.pending.positions a.id root ++ (Pass.take W rules a awaiting p r).2.2.state.waitsAt root) := by
    have := (PendingIndex.waits_split r.state.pending a.id root).map Prod.snd
    rw [List.map_append, List.map_map, ← Pass.take_pending W rules a awaiting p r] at this
    simpa [State.waitsAt, Function.comp_def] using this
  rw [hb.awaitedAt_take ha, hb.validatedAt_take ha, hf.kept.2.1]
  cases hf with
  | passed hpos hc =>
    rw [owedAt, hc, hpos, ite_self]
    rw [hpos] at hsplit
    exact htiled.perm hsplit
  | broken e _ hm => exact absurd hm (hspared e)
  | grown block t hne hopen hphase hchildren hval =>
    obtain ⟨hsmall, hsize⟩ := hb.small_of_phase hd hphase
    have howed : owedAt (Pass.take W rules a awaiting p r).1.children root =
        (r.state.pending.positions a.id root).flatMap t.children := by
      rw [owedAt, hchildren, List.map_flatMap]
      exact List.flatMap_congr fun ix hix => Judgement.map_position_childrenAt hsize (hopen ix hix)
    have hshaped : Tiled (awaitedAt root d.session r.trace) (validatedAt root d.session r.trace)
        (r.state.waitsAt root) [] (.expanding t) := by
      rcases hphase with hp | ⟨hp, -⟩
      · rw [hp] at htiled
        exact htiled
      · rw [hp] at htiled
        exact htiled.give hsmall
    rw [if_pos ⟨hval, hruns⟩, howed]
    exact hshaped.grow hsmall hsplit

/-- Judging validates no position twice. -/
theorem take_once (h : Ledger rules ⟨a :: q, [], w, [], []⟩ r) (hb : Books rules [] r.state)
    (ha : r.state.pending.get? a.id = some awaiting) (W : World ω) (p : Pass) (root : RootId) (session : SessionId) :
    (validatedAt root session (Pass.take W rules a awaiting p r).2.2.trace).Nodup := by
  by_cases hin : root ∈ (Pass.take W rules a awaiting p r).1.validated ∧ r.state.Runs root session
  · obtain ⟨hval, hruns⟩ := hin
    obtain ⟨d, hd, rfl⟩ := State.runs_iff.1 hruns
    have hmem : root ∈ (Pass.take W rules a awaiting p r).2.2.state.roots.keys := by
      rw [Pass.take_keys]
      exact Table.mem_keys_of_get? hd
    obtain ⟨d', hd'⟩ := mem_keys_iff_get?.1 hmem
    obtain ⟨d₀, hd₀, hf⟩ := hb.fate ha W p hd'
    obtain rfl : d = d₀ := Option.some.inj (hd.symm.trans hd₀)
    cases hf with
    | passed hpos =>
      rw [hb.validatedAt_take ha, hpos, ite_self]
      exact (h.once root _).2
    | broken e _ _ _ hnot => exact absurd hval hnot
    | grown block t hne hopen hphase _ _ hspared =>
      -- what is validated for the root is part of a tiling
      have hnodup := (h.take_tiled hb ha W p root _ hd' hspared).nodup (hb.small_of_phase hd hphase).1
      exact (List.nodup_append.1 hnodup).1
  · rw [hb.validatedAt_take ha, if_neg hin]
    exact (h.once root session).2

/-- A judged block is entered for every root for which it is valid, at the positions that awaited it. -/
theorem take (h : Ledger rules ⟨a :: q, [], w, [], []⟩ r) (hb : Books rules [] r.state) (hsessions : Sessions r.state)
    (ha : r.state.pending.get? a.id = some awaiting) (W : World ω) (p : Pass) :
    Ledger rules
      ⟨q, [], w, (Pass.take W rules a awaiting p r).1.children, (Pass.take W rules a awaiting p r).1.malformed⟩
      (Pass.take W rules a awaiting p r).2.2 := by
  obtain ⟨s, stored, htrace, hstored, hknown, hruns⟩ := hb.take_moments ha W p
  have hfate := hb.fate ha W p
  have htiled := h.take_tiled hb ha W p
  have honce := h.take_once hb ha W p
  have hawaited := fun root session => hb.awaitedAt_take ha W p root session
  have hvalid : ∀ root ∈ (Pass.take W rules a awaiting p r).1.validated, s.InFlight root := by
    intro root hm
    obtain ⟨d, hd⟩ := hb.get?_of_mem_validated ha W p hm
    obtain ⟨d', hd', -⟩ := State.runs_iff.1 ((hruns root d.session).2 (State.runs_iff.2 ⟨d, hd, rfl⟩))
    rw [State.InFlight, Table.has_iff_get?, hd']
    rfl
  have hopened := (Pass.take_tuned W rules a awaiting p r).opened
  generalize (Pass.take W rules a awaiting p r).1 = v at *
  generalize (Pass.take W rules a awaiting p r).2.2 = r' at *
  refine ⟨?_, fun root session => ⟨hawaited root session ▸ (h.once root session).1, honce root session⟩, ?_, ?_,
    htiled, ?_⟩
  · have hsame : ∀ root d, s.roots.get? root = some d → d.session ≤ r.state.opened := by
      intro root d hd
      obtain ⟨d₀, hd₀, ha⟩ := hknown root d hd
      rw [ha.session]
      exact hsessions.bounded hd₀
    intro m hm root d hd
    rw [hopened]
    rw [htrace] at hm
    rcases List.mem_append.1 hm with hm | hm
    · exact hsame root d ((hstored m hm).1 ▸ hd)
    · rcases List.mem_cons.1 hm with rfl | hm
      · exact hsame root d hd
      · exact h.past m hm root d hd
  · intro root d' hd'
    obtain ⟨d, hd, hf⟩ := hfate hd'
    rw [hawaited, hf.kept.2.1, hf.kept.2.2.1]
    exact h.asked root d hd
  · intro root d' hd'
    obtain ⟨d, hd, hf⟩ := hfate hd'
    rw [hawaited, hf.kept.2.1]
    exact (h.fits root d hd).judged hf
  · rw [htrace]
    refine Throughout.append (s := r.state) (throughout_cons.2 ⟨⟨?_, by simp, ?_, by simp⟩, h.recorded⟩) h.fits ?_
    · intro root d hd
      obtain ⟨d₀, hd₀, ha⟩ := hknown root d hd
      rw [ha.session]
      exact (h.fits root d₀ hd₀).alike ha
    · rintro id awaiting' verdict ⟨⟩
      exact hvalid
    · intro m hm
      obtain ⟨hstate, hplain, hunmarked⟩ := hstored m hm
      exact ⟨hplain, hstate ▸ hknown, fun root outcome he => absurd he (hunmarked root outcome)⟩

end Judging

/-- A child that its root is made wait for is entered at a position that was never entered before. -/
theorem await {q : List Arrival} {w : List BlockId} {o : List Child} {child : Child} {d : Download}
    (h : Ledger rules ⟨q, [], w, child :: o, []⟩ r) (hb : Books rules (child :: o) r.state)
    (hsessions : Sessions r.state) (hd : r.state.roots.get? child.root = some d) (u : List BlockId) :
    Ledger rules ⟨q, u, w, o, []⟩ (Pass.await child d r) := by
  have htiled := h.tiled child.root d hd (by simp)
  have howed : owedAt (child :: o) child.root = child.position :: owedAt o child.root := by simp [owedAt]
  have howed' : ∀ {root}, child.root ≠ root → owedAt (child :: o) root = owedAt o root := by
    intro root hne
    simp [owedAt, hne]
  rw [howed] at htiled
  obtain ⟨t, hphase⟩ := htiled.shape_of_owed
  have hsmall := (hb.expanding hd hphase).1
  rw [hphase] at htiled
  obtain ⟨hnew, htiled'⟩ := htiled.await hsmall
  have hget : ∀ {root e}, (Pass.await child d r).state.roots.get? root = some e →
      child.root = root ∧ e = d.expect child.id ∨ child.root ≠ root ∧ r.state.roots.get? root = some e :=
    Table.get?_insert_eq_some_iff.1
  have hself : awaitedAt child.root d.session (Pass.await child d r).trace =
      child.position :: awaitedAt child.root d.session r.trace := by
    rw [awaitedAt_await, if_pos ⟨rfl, rfl⟩]
    rfl
  have hother : ∀ {root}, child.root ≠ root → ∀ session,
      awaitedAt root session (Pass.await child d r).trace = awaitedAt root session r.trace := by
    intro root hne session
    rw [awaitedAt_await, if_neg fun hc => hne hc.1]
    rfl
  have hasked : ∀ root e, (Pass.await child d r).state.roots.get? root = some e →
      e.descendants.size ≤ (awaitedAt root e.session (Pass.await child d r).trace).length := by
    intro root e he
    rcases hget he with ⟨rfl, rfl⟩ | ⟨hne, he⟩
    · have hsize := Std.ExtTreeSet.size_insert_le (t := d.descendants) (k := child.id)
      have := h.asked child.root d hd
      show (d.descendants.insert child.id).size ≤ (awaitedAt child.root d.session _).length
      rw [hself, List.length_cons]
      omega
    · rw [hother hne]
      exact h.asked root e he
  have hfits : ∀ root e, (Pass.await child d r).state.roots.get? root = some e →
      Fits rules (awaitedAt root e.session (Pass.await child d r).trace) e := by
    intro root e he
    have hsize := hasked root e he
    rcases hget he with ⟨rfl, rfl⟩ | ⟨hne, he⟩
    · show Fits rules (awaitedAt child.root d.session _) _
      change _ ≤ (awaitedAt child.root d.session _).length at hsize
      rw [hself] at hsize ⊢
      exact (h.fits child.root d hd).expect hphase (fun ix hix => htiled'.lt_of_mem hix)
        (hsize.trans (htiled'.length_awaited_le hsmall))
    · rw [hother hne]
      exact h.fits root e he
  refine ⟨?_, ?_, hasked, hfits, ?_, ?_⟩
  · intro m hm root e he
    rw [await_opened]
    rcases List.mem_cons.1 hm with rfl | hm
    · obtain ⟨e₀, he₀, rfl | rfl⟩ := get?_of_await hd he
      · exact hsessions.bounded he₀
      · exact hsessions.bounded (d := e₀) he₀
    · exact h.past m hm root e he
  · intro root session
    refine ⟨?_, (h.once root session).2⟩
    rw [awaitedAt_await]
    split
    · next heq =>
      obtain ⟨rfl, rfl⟩ := heq
      exact List.nodup_cons.2 ⟨hnew, (h.once _ _).1⟩
    · exact (h.once root session).1
  · intro root e he _
    rcases hget he with ⟨rfl, rfl⟩ | ⟨hne, he⟩
    · show Tiled (awaitedAt child.root d.session _) (validatedAt child.root d.session r.trace) _ _ d.phase
      rw [hself, hphase]
      refine htiled'.perm ?_
      exact ((PendingIndex.waits_insert r.state.pending child.id child.root child.position).map Prod.snd).symm
    · have htiled := h.tiled root e he (by simp)
      rw [howed' hne] at htiled
      rw [hother hne]
      exact htiled.perm ((PendingIndex.waits_insert_of_ne hne child.id child.position).map Prod.snd).symm
  · refine throughout_cons.2 ⟨⟨hfits, ?_, by simp, by simp⟩, h.recorded⟩
    rintro root id ix ⟨⟩
    show (Pass.await child d r).state.InFlight child.root
    rw [State.InFlight, Table.has_iff_get?, await_roots, Table.get?_insert, if_pos rfl]
    rfl

/-- Nothing was entered under a session that is not open yet. -/
theorem nothing_entered (h : Ledger rules σ r) (root : RootId) (hnew : r.state.opened < session) :
    awaitedAt root session r.trace = [] ∧ validatedAt root session r.trace = [] := by
  have hnot : ∀ m ∈ r.trace, ¬ m.state.Runs root session := by
    intro m hm hruns
    obtain ⟨d, hd, rfl⟩ := State.runs_iff.1 hruns
    exact absurd (h.past m hm root d hd) (Nat.not_le.2 hnew)
  constructor
  · refine List.flatMap_eq_nil_iff.2 fun m hm => ?_
    unfold Moment.awaits
    split
    · exact if_neg fun hc => hnot m hm hc.2
    · rfl
  · refine List.flatMap_eq_nil_iff.2 fun m hm => ?_
    unfold Moment.validates
    split
    · exact if_neg fun hc => hnot m hm hc.2
    · rfl

/-- Putting a root in flight enters position 0, under a session that has no entries. -/
theorem launch (h : Ledger rules .idle r) (hb : Books rules [] r.state) (hsessions : Sessions r.state)
    (hn : ¬ r.state.InFlight root) (tag : DataTag) (timeout : Nat) (u : List BlockId) :
    Ledger rules ⟨[], u, [], [], []⟩ (Downloader.launch root tag timeout r) := by
  have hnone : r.state.roots.get? root = none := by
    rw [← Option.not_isSome_iff_eq_none, ← Table.has_iff_get?]
    exact hn
  have hget : ∀ {other e}, (Downloader.launch root tag timeout r).state.roots.get? other = some e →
      root = other ∧ e = .start root tag (r.state.opened + 1) ∨ root ≠ other ∧ r.state.roots.get? other = some e :=
    Table.get?_insert_eq_some_iff.1
  obtain ⟨hnoawaits, hnovalidates⟩ := h.nothing_entered root (Nat.lt_succ_self r.state.opened)
  have hself : awaitedAt root (r.state.opened + 1) (Downloader.launch root tag timeout r).trace = [0] := by
    rw [awaitedAt_launch, if_pos ⟨rfl, rfl⟩, hnoawaits]
    rfl
  have hother : ∀ {other}, root ≠ other → ∀ session,
      awaitedAt other session (Downloader.launch root tag timeout r).trace = awaitedAt other session r.trace := by
    intro other hne session
    rw [awaitedAt_launch, if_neg fun hc => hne hc.1]
    rfl
  have hfits : ∀ other e, (Downloader.launch root tag timeout r).state.roots.get? other = some e →
      Fits rules (awaitedAt other e.session (Downloader.launch root tag timeout r).trace) e := by
    intro other e he
    rcases hget he with ⟨rfl, rfl⟩ | ⟨hne, he⟩
    · refine Fits.start ?_ _ _ _
      show ∀ ix ∈ awaitedAt root (r.state.opened + 1) _, ix = 0
      simp [hself]
    · rw [hother hne]
      exact h.fits other e he
  refine ⟨?_, ?_, ?_, hfits, ?_, ?_⟩
  · intro m hm other e he
    have hsame : ∀ e, (Downloader.launch root tag timeout r).state.roots.get? other = some e →
        e.session ≤ r.state.opened + 1 := by
      intro e he
      rcases hget he with ⟨-, rfl⟩ | ⟨-, he⟩
      · exact Nat.le_refl _
      · exact Nat.le_succ_of_le (hsessions.bounded he)
    rw [launch_opened]
    rw [launch_trace] at hm
    rcases List.mem_append.1 hm with hm | hm
    · simp only [List.mem_cons, List.not_mem_nil, or_false] at hm
      rcases hm with rfl | rfl | rfl
      all_goals exact hsame e he
    · exact Nat.le_succ_of_le (h.past m hm other e he)
  · intro other session
    refine ⟨?_, (h.once other session).2⟩
    by_cases hc : root = other ∧ r.state.opened + 1 = session
    · obtain ⟨rfl, rfl⟩ := hc
      rw [hself]
      exact List.nodup_singleton 0
    · rw [awaitedAt_launch, if_neg hc]
      exact (h.once other session).1
  · intro other e he
    rcases hget he with ⟨rfl, rfl⟩ | ⟨hne, he⟩
    · show _ ≤ (awaitedAt root (r.state.opened + 1) _).length
      rw [hself]
      exact Nat.le_refl 1
    · rw [hother hne]
      exact h.asked other e he
  · intro other e he _
    rcases hget he with ⟨rfl, rfl⟩ | ⟨hne, he⟩
    · have hwaits := (PendingIndex.waits_insert r.state.pending root root 0).map Prod.snd
      rw [hb.waits_eq_nil hnone] at hwaits
      exact .requested hself hnovalidates (List.perm_singleton.1 hwaits) rfl
    · have htiled := h.tiled other e he (by simp [Stage.idle])
      rw [hother hne]
      exact htiled.perm ((PendingIndex.waits_insert_of_ne hne root 0).map Prod.snd).symm
  · -- opening the session comes first, and the position is entered next
    refine throughout_cons.2 ⟨⟨hfits, by simp, by simp, by simp⟩, throughout_cons.2
      ⟨⟨hfits, ?_, by simp, by simp⟩, throughout_cons.2 ⟨⟨?_, by simp, by simp, by simp⟩, h.recorded⟩⟩⟩
    · rintro _ _ _ ⟨⟩
      show (Downloader.launch root tag timeout r).state.InFlight root
      rw [State.InFlight, Table.has_iff_get?, launch_roots, Table.get?_insert, if_pos rfl]
      rfl
    · intro other e he
      show Fits rules (awaitedAt other e.session r.trace) e
      rcases hget he with ⟨rfl, rfl⟩ | ⟨-, he⟩
      · show Fits rules (awaitedAt root (r.state.opened + 1) r.trace) _
        rw [hnoawaits]
        exact Fits.start (by simp) _ _ _
      · exact h.fits other e he

/-- A quiet moment of a step. -/
theorem quiet_of_plain {m : Moment ω} (hplain : m.effect.Plain)
    (hunmarked : ∀ root outcome, m.effect ≠ .marked root outcome)
    (hknown : ∀ root d, m.state.roots.get? root = some d → r.state.roots.get? root = some d) :
    Quiet r.state r.trace m :=
  ⟨hplain, fun root d hd => ⟨d, hknown root d hd, .refl d⟩, fun root outcome he => absurd he (hunmarked root outcome)⟩

theorem step (hb : Books rules σ.owed r.state) (hsessions : Sessions r.state) (h : Ledger rules σ r)
    (hs : Step W rules σ r σ' r') : Ledger rules σ' r' := by
  have hsame : ∀ m : Moment ω, m.state = r.state → m.effect.Plain → (∀ root outcome, m.effect ≠ .marked root outcome) →
      Quiet r.state r.trace m := by
    intro m hstate hplain hunmarked
    refine quiet_of_plain hplain hunmarked ?_
    rw [hstate]
    exact fun _ _ hd => hd
  cases hs with
  | logged | broke | finished =>
    refine h.carry hsessions (.emit (hsame _ rfl ?_ ?_)) rfl fun hd => ⟨hd, .refl _, rfl, id⟩
    · simp [Effect.Plain]
    · simp
  | announced =>
    refine h.carry hsessions (.trans (.refl rfl) (.emit (hsame _ rfl ?_ ?_))) rfl fun hd => ⟨hd, .refl _, rfl, id⟩
    · simp [Effect.Plain]
    · simp
  | fetched =>
    refine h.carry hsessions (.cons rfl (hsame _ rfl ?_ ?_)) rfl fun hd => ⟨hd, .refl _, rfl, id⟩
    · simp [Effect.Plain]
    · simp
  | arranged | asked | refused | found | missed | discarded | settled =>
    exact h.carry hsessions (.refl rfl) rfl fun hd => ⟨hd, .refl _, rfl, id⟩
  | judged a awaiting p ha => exact h.take hb hsessions ha W p
  | expanded child d hd => exact h.await hb hsessions hd _
  | orphaned child hn =>
    refine h.carry hsessions (.refl rfl) rfl ?_
    intro root d hd
    have hne : child.root ≠ root := by
      rintro rfl
      rw [hn] at hd
      cases hd
    refine ⟨hd, .refl _, ?_, id⟩
    simp [owedAt, hne]
  | spared hout =>
    refine h.carry hsessions (.refl rfl) rfl ?_
    intro root d hd
    refine ⟨hd, .refl _, rfl, ?_⟩
    intro _ e he
    refine hout _ he ?_
    rw [State.InFlight, Table.has_iff_get?, hd]
    rfl
  | released other d hd =>
    refine h.carry hsessions (dismiss_adds _ _ _ (quiet_of_plain ?_ ?_ fun _ _ he => (get?_of_dismiss he).2)) rfl ?_
    · simp [Effect.Plain]
    · simp
    · intro root e he
      obtain ⟨hne, he⟩ := get?_of_dismiss he
      exact ⟨he, ((PendingIndex.waits_removeRoot_of_ne hne _).map Prod.snd).symm, rfl, id⟩
  | @completed w r other d hd hc =>
    have hstate := mark_state other r W
    have hmark : Run.Adds (Quiet r.state r.trace) r (mark W other r) := by
      refine mark_adds other r W ⟨by simp [Effect.Plain], fun _ e he => ⟨e, he, .refl e⟩, ?_⟩ fun e => ?_
      · rintro _ _ ⟨⟩
        exact h.whole hb hd hc rfl rfl
      · exact hsame _ rfl (by simp [Effect.Plain]) (by simp)
    have hknown : ∀ {root e}, (dismiss other d (mark W other r)).state.roots.get? root = some e →
        other ≠ root ∧ r.state.roots.get? root = some e := by
      intro root e he
      rw [← hstate]
      exact get?_of_dismiss he
    have hdismiss : Run.Adds (Quiet r.state r.trace) (mark W other r) (dismiss other d (mark W other r)) :=
      dismiss_adds _ _ _ (quiet_of_plain (by simp [Effect.Plain]) (by simp) fun _ _ he => (hknown he).2)
    refine h.carry hsessions (hmark.trans hdismiss) (by rw [dismiss_opened, hstate]) ?_
    intro root e he
    obtain ⟨hne, he⟩ := hknown he
    refine ⟨he, ?_, rfl, id⟩
    rw [State.waitsAt, State.waitsAt, dismiss_pending, hstate]
    exact ((PendingIndex.waits_removeRoot_of_ne hne _).map Prod.snd).symm

theorem opened (hb : Books rules [] r.state) (hsessions : Sessions r.state) (h : Ledger rules .idle r)
    (ho : Opening W Delivers r σ' r') : Ledger rules σ' r' := by
  cases ho with
  | launched root tag timeout hn _ =>
    exact launch (r := (r.call (W.setStatus root .part)).2)
      (h.carry hsessions (.refl rfl) rfl fun hd => ⟨hd, .refl _, rfl, id⟩) hb hsessions hn tag timeout _
  | delivered =>
    exact h.carry hsessions (.refl rfl) rfl fun hd => ⟨hd, .refl _, rfl, id⟩

end Ledger

/-- In every state that the downloader gets into, the ledger is in order. -/
theorem Reached.ledger (h : Reached W rules Delivers world σ r) : Ledger rules σ r := by
  induction h with
  | start =>
    refine ⟨by simp, by simp [awaitedAt, validatedAt], ?_, ?_, ?_, ?_⟩
    · simp [State.initial, Table.get?]
    · simp [State.initial, Table.get?]
    · simp [State.initial, Table.get?]
    · intro later m earlier ht
      simp at ht
  | opened hr ho ih => exact ih.opened hr.books hr.sessions ho
  | step hr hs ih => exact ih.step hr.books hr.sessions hs

/-- Over the whole life of a download no position is awaited twice. At every moment, and at the end,
only the root's position and positions of the tree were awaited, no more blocks were asked for than
the tree has, and the tree is that of a payload within the limits; and when a root is marked, having
nothing left to wait for, every position of its tree was validated, each once. -/
theorem awaited_once (W : World ω) (rules : Rules) (events : List Event) (world : ω) :
    (∀ root session, (awaitedAt root session (history W rules events world).trace).Nodup ∧
      (validatedAt root session (history W rules events world).trace).Nodup) ∧
    (∀ later m earlier, (history W rules events world).trace = later ++ m :: earlier → Recorded rules m earlier) ∧
    ∀ root d, (history W rules events world).state.roots.get? root = some d →
      Fits rules (awaitedAt root d.session (history W rules events world).trace) d := by
  have h := (history_reached W rules events world).ledger
  exact ⟨h.once, h.recorded, h.fits⟩

end BlockDag.Downloader
