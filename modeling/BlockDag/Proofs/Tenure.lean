/-
Which sessions go on. A session is opened for one root and cancelled when that root's download ends,
so those that are open and not cancelled are those of the roots in flight, at every moment and not
only between events. Blocks are asked for under such a session: every call lists blocks that are
waited for, and goes out under the session of a root that waits for one of them.
-/
import BlockDag.Proofs.Lifecycle

namespace BlockDag.Downloader

variable {ω : Type} {W : World ω} {rules : Rules} {Delivers : Bytes → Prop} {world : ω}
variable {σ σ' : Stage} {r r' : Run ω} {root other : RootId} {session : SessionId}

/-! ## What a trace says of sessions -/

/-- A session was opened for `root`. -/
def OpenedFor (trace : List (Moment ω)) (session : SessionId) (root : RootId) : Prop :=
  ∃ m ∈ trace, ∃ timeout, m.effect = .opened session root timeout

/-- A session was cancelled as the download of `root` ended. -/
def EndedWith (trace : List (Moment ω)) (session : SessionId) (root : RootId) : Prop :=
  ∃ m ∈ trace, m.effect = .released session root

/-- The sessions of the roots in flight are those that were opened for them and are not cancelled, and a
session is cancelled exactly if it ended with a root, the one it was opened for. -/
structure Accounted (trace : List (Moment ω)) (s : State) : Prop where
  runs : ∀ root session, s.Runs root session ↔ OpenedFor trace session root ∧ ¬ s.Cancelled session
  cancelled : ∀ session, s.Cancelled session ↔ ∃ root, EndedWith trace session root
  ended : ∀ session root, EndedWith trace session root → OpenedFor trace session root
  owner : ∀ session root other, OpenedFor trace session root → OpenedFor trace session other → root = other

/-- A call lists blocks, all of them waited for, and goes out under the session of a root in flight that
waits for one of them. -/
structure Warranted (s : State) (call : FetchCall) : Prop where
  some : call.blocks ≠ []
  awaited : ∀ id ∈ call.blocks, s.pending.Has id
  going : ¬ s.Cancelled call.session
  owner : ∃ root, s.Runs root call.session ∧ ∃ id ∈ call.blocks, s.pending.positions id root ≠ []

/-- What holds at the moment `m` after `earlier`: sessions are accounted for, each was opened once and
ends once, and a call is warranted. -/
structure Tenured (m : Moment ω) (earlier : List (Moment ω)) : Prop where
  accounted : Accounted (m :: earlier) m.state
  opened : ∀ session root timeout, m.effect = .opened session root timeout → ∀ other, ¬ OpenedFor earlier session other
  released : ∀ session root, m.effect = .released session root → ∀ other, ¬ EndedWith earlier session other
  fetched : ∀ call, m.effect = .fetched call → Warranted m.state call

section Trace

variable {m : Moment ω} {trace : List (Moment ω)}

theorem openedFor_cons : OpenedFor (m :: trace) session root ↔
    (∃ timeout, m.effect = .opened session root timeout) ∨ OpenedFor trace session root := by
  simp [OpenedFor]

theorem endedWith_cons : EndedWith (m :: trace) session root ↔
    m.effect = .released session root ∨ EndedWith trace session root := by
  simp [EndedWith]

end Trace

/-! ## Moments that change no session -/

/-- At `m` no session is opened or ends, and the sessions are those of `s`. -/
structure Level (s : State) (m : Moment ω) : Prop where
  unopened : ¬ m.Opens
  unreleased : ∀ session root, m.effect ≠ .released session root
  runs : ∀ root session, m.state.Runs root session ↔ s.Runs root session
  cancelled : ∀ session, m.state.Cancelled session ↔ s.Cancelled session
  fetched : ∀ call, m.effect = .fetched call → Warranted m.state call

theorem Level.of_state {s : State} {m : Moment ω} (hs : m.state = s) (hopen : ∀ a b c, m.effect ≠ .opened a b c)
    (hrelease : ∀ session root, m.effect ≠ .released session root) (hfetch : ∀ call, m.effect ≠ .fetched call) :
    Level s m := by
  refine ⟨?_, hrelease, fun _ _ => by rw [hs], fun _ => by rw [hs], fun call he => absurd he (hfetch call)⟩
  rintro ⟨a, b, c, he⟩
  exact hopen a b c he

theorem Level.openedFor {s : State} {new trace : List (Moment ω)} (h : ∀ m ∈ new, Level s m) :
    OpenedFor (new ++ trace) session root ↔ OpenedFor trace session root := by
  induction new with
  | nil => rfl
  | cons m new ih =>
    rw [List.cons_append, openedFor_cons, ih fun m' hm' => h m' (List.mem_cons_of_mem _ hm')]
    refine or_iff_right ?_
    rintro ⟨timeout, he⟩
    exact (h m List.mem_cons_self).unopened ⟨_, _, timeout, he⟩

theorem Level.endedWith {s : State} {new trace : List (Moment ω)} (h : ∀ m ∈ new, Level s m) :
    EndedWith (new ++ trace) session root ↔ EndedWith trace session root := by
  induction new with
  | nil => rfl
  | cons m new ih =>
    rw [List.cons_append, endedWith_cons, ih fun m' hm' => h m' (List.mem_cons_of_mem _ hm')]
    exact or_iff_right ((h m List.mem_cons_self).unreleased _ _)

/-- Sessions stay accounted for over such moments. -/
theorem Accounted.append {s s' : State} {new trace : List (Moment ω)} (h : Accounted trace s)
    (hnew : ∀ m ∈ new, Level s m) (hruns : ∀ root session, s'.Runs root session ↔ s.Runs root session)
    (hcancelled : ∀ session, s'.Cancelled session ↔ s.Cancelled session) : Accounted (new ++ trace) s' := by
  refine ⟨?_, ?_, ?_, ?_⟩
  · intro root session
    rw [hruns, hcancelled, Level.openedFor hnew]
    exact h.runs root session
  · intro session
    rw [hcancelled, h.cancelled]
    exact exists_congr fun root => (Level.endedWith hnew).symm
  · intro session root
    rw [Level.endedWith hnew, Level.openedFor hnew]
    exact h.ended session root
  · intro session root other
    rw [Level.openedFor hnew, Level.openedFor hnew]
    exact h.owner session root other

theorem Tenured.append {s : State} {new trace : List (Moment ω)} (h : Throughout Tenured trace) (ha : Accounted trace s)
    (hnew : ∀ m ∈ new, Level s m) : Throughout Tenured (new ++ trace) := by
  induction new with
  | nil => exact h
  | cons m new ih =>
    have hm := hnew m List.mem_cons_self
    refine throughout_cons.2 ⟨?_, ih fun m' hm' => hnew m' (List.mem_cons_of_mem _ hm')⟩
    have haccounted : Accounted (m :: new ++ trace) m.state := ha.append hnew hm.runs hm.cancelled
    refine ⟨haccounted, ?_, fun _ _ he => absurd he (hm.unreleased _ _), hm.fetched⟩
    exact fun _ _ _ he => absurd ⟨_, _, _, he⟩ hm.unopened

/-! ## Steps -/

/-- Sessions are accounted for now and were at every moment before, and none was opened that is not
numbered yet. -/
structure Tenure (r : Run ω) : Prop where
  accounted : Accounted r.trace r.state
  bounded : ∀ session root, OpenedFor r.trace session root → session ≤ r.state.opened
  tenured : Throughout Tenured r.trace

namespace Tenure

/-- No session changes hands. -/
theorem carry (h : Tenure r) (hadds : Run.Adds (Level r.state) r r')
    (hruns : ∀ root session, r'.state.Runs root session ↔ r.state.Runs root session)
    (hcancelled : ∀ session, r'.state.Cancelled session ↔ r.state.Cancelled session)
    (hopened : r'.state.opened = r.state.opened) : Tenure r' := by
  obtain ⟨new, hn, hnew⟩ := hadds
  refine ⟨?_, ?_, ?_⟩
  · rw [hn]
    exact h.accounted.append hnew hruns hcancelled
  · intro session root
    rw [hn, Level.openedFor hnew, hopened]
    exact h.bounded session root
  · rw [hn]
    exact Tenured.append h.tenured h.accounted hnew

/-- Where the state stays as it is. -/
theorem keep (h : Tenure r) (hadds : Run.Adds (Level r.state) r r') (hs : r'.state = r.state) : Tenure r' :=
  h.carry hadds (fun _ _ => by rw [hs]) (fun _ => by rw [hs]) (by rw [hs])

/-- Ending the download of a root cancels its session, and no other. -/
theorem dismiss (h : Tenure r) (hsessions : Sessions r.state) {d : Download}
    (hd : r.state.roots.get? root = some d) : Tenure (Downloader.dismiss root d r) := by
  have hruns : r.state.Runs root d.session := State.runs_iff.2 ⟨d, hd, rfl⟩
  have hopened : OpenedFor r.trace d.session root := ((h.accounted.runs _ _).1 hruns).1
  have hunended : ∀ other, ¬ EndedWith r.trace d.session other := fun other he =>
    hsessions.not_cancelled hd ((h.accounted.cancelled _).2 ⟨other, he⟩)
  have htrace : (Downloader.dismiss root d r).trace =
      ⟨.released d.session root, r.world, (Downloader.dismiss root d r).state⟩ :: r.trace := rfl
  have hopen : ∀ {session other}, OpenedFor (Downloader.dismiss root d r).trace session other ↔
      OpenedFor r.trace session other := by
    intro session other
    rw [htrace, openedFor_cons]
    exact or_iff_right (by simp)
  have hcancelled : ∀ session, (Downloader.dismiss root d r).state.Cancelled session ↔
      session = d.session ∨ r.state.Cancelled session := by
    intro session
    rw [State.Cancelled, State.Cancelled, dismiss_stopped, dismiss_cancelled, List.mem_append, List.mem_singleton,
      ← or_assoc]
    exact or_comm
  have haccounted : Accounted (Downloader.dismiss root d r).trace (Downloader.dismiss root d r).state := by
    refine ⟨?_, ?_, ?_, ?_⟩
    · intro other session
      rw [hopen, hcancelled, not_or, and_left_comm, ← h.accounted.runs]
      constructor
      · intro hr
        obtain ⟨e, he, rfl⟩ := State.runs_iff.1 hr
        obtain ⟨hne, he⟩ := get?_of_dismiss he
        exact ⟨fun heq => hne (hsessions.owner hd he heq.symm), State.runs_iff.2 ⟨e, he, rfl⟩⟩
      · rintro ⟨hne, hr⟩
        obtain ⟨e, he, rfl⟩ := State.runs_iff.1 hr
        refine State.runs_iff.2 ⟨e, Table.get?_erase_eq_some_iff.2 ⟨?_, he⟩, rfl⟩
        rintro rfl
        exact hne (congrArg Download.session (Option.some.inj (he.symm.trans hd)))
    · intro session
      rw [hcancelled, h.accounted.cancelled, htrace]
      simp only [endedWith_cons]
      constructor
      · rintro (rfl | ⟨other, he⟩)
        · exact ⟨root, .inl rfl⟩
        · exact ⟨other, .inr he⟩
      · rintro ⟨other, he | he⟩
        · cases he
          exact .inl rfl
        · exact .inr ⟨other, he⟩
    · intro session other
      rw [hopen, htrace, endedWith_cons]
      rintro (he | he)
      · cases he
        exact hopened
      · exact h.accounted.ended session other he
    · intro session a b
      rw [hopen, hopen]
      exact h.accounted.owner session a b
  refine ⟨haccounted, fun session other ho => h.bounded session other (hopen.1 ho), ?_⟩
  rw [htrace]
  refine throughout_cons.2 ⟨⟨htrace ▸ haccounted, by simp, ?_, by simp⟩, h.tenured⟩
  rintro _ _ ⟨⟩
  exact hunended

/-- Putting a root in flight opens the next session, which nobody had. -/
theorem launch (h : Tenure r) (hsessions : Sessions r.state) (hn : ¬ r.state.InFlight root) (tag : DataTag)
    (timeout : Nat) : Tenure (Downloader.launch root tag timeout r) := by
  have hfresh : ∀ other, ¬ OpenedFor r.trace (r.state.opened + 1) other := fun other ho =>
    Nat.not_succ_le_self _ (h.bounded _ _ ho)
  have hcancelled : ∀ session, (Downloader.launch root tag timeout r).state.Cancelled session ↔
      r.state.Cancelled session := fun _ => Iff.rfl
  -- the two moments after the opening change no session
  let opening : Moment ω :=
    ⟨.opened (r.state.opened + 1) root timeout, r.world, (Downloader.launch root tag timeout r).state⟩
  have hopen : ∀ {session other}, OpenedFor (opening :: r.trace) session other ↔
      (session = r.state.opened + 1 ∧ other = root) ∨ OpenedFor r.trace session other := by
    intro session other
    rw [openedFor_cons]
    refine or_congr_left ⟨?_, ?_⟩
    · rintro ⟨_, ⟨⟩⟩
      exact ⟨rfl, rfl⟩
    · rintro ⟨rfl, rfl⟩
      exact ⟨timeout, rfl⟩
  have hend : ∀ {session other}, EndedWith (opening :: r.trace) session other ↔ EndedWith r.trace session other := by
    intro session other
    rw [endedWith_cons]
    exact or_iff_right (by simp [opening])
  have haccounted : Accounted (opening :: r.trace) (Downloader.launch root tag timeout r).state := by
    refine ⟨?_, ?_, ?_, ?_⟩
    · intro other session
      rw [hopen, hcancelled, or_and_right, ← h.accounted.runs]
      constructor
      · intro hr
        obtain ⟨e, he, rfl⟩ := State.runs_iff.1 hr
        rcases Table.get?_insert_eq_some_iff.1 he with ⟨rfl, rfl⟩ | ⟨-, he⟩
        · refine .inl ⟨⟨rfl, rfl⟩, ?_⟩
          rintro (hs | hc)
          · rw [hsessions.running] at hs
            cases hs
          · exact Nat.not_succ_le_self _ (hsessions.ended hc)
        · exact .inr (State.runs_iff.2 ⟨e, he, rfl⟩)
      · rintro (⟨⟨rfl, rfl⟩, -⟩ | hr)
        · exact launch_runs other tag timeout r
        · obtain ⟨e, he, rfl⟩ := State.runs_iff.1 hr
          refine State.runs_iff.2 ⟨e, Table.get?_insert_eq_some_iff.2 (.inr ⟨?_, he⟩), rfl⟩
          rintro rfl
          exact hn (State.inFlight_iff.2 ⟨_, hr⟩)
    · intro session
      rw [hcancelled, h.accounted.cancelled]
      exact exists_congr fun other => hend.symm
    · intro session other he
      exact hopen.2 (.inr (h.accounted.ended session other (hend.1 he)))
    · intro session a b ha hb
      rcases hopen.1 ha with ⟨rfl, rfl⟩ | ha'
      · rcases hopen.1 hb with ⟨-, rfl⟩ | hb'
        · rfl
        · exact absurd hb' (hfresh b)
      · rcases hopen.1 hb with ⟨rfl, rfl⟩ | hb'
        · exact absurd ha' (hfresh a)
        · exact h.accounted.owner session a b ha' hb'
  have hopening : Tenure ⟨r.world, (Downloader.launch root tag timeout r).state, opening :: r.trace⟩ := by
    refine ⟨haccounted, ?_, throughout_cons.2 ⟨⟨haccounted, ?_, by simp [opening], by simp [opening]⟩, h.tenured⟩⟩
    · intro session other ho
      rw [launch_opened]
      rcases hopen.1 ho with ⟨rfl, -⟩ | ho
      · exact Nat.le_refl _
      · exact Nat.le_succ_of_le (h.bounded session other ho)
    · rintro _ _ _ ⟨⟩
      exact hfresh
  have hrest : Run.Adds (Level (Downloader.launch root tag timeout r).state)
      ⟨r.world, (Downloader.launch root tag timeout r).state, opening :: r.trace⟩
      (Downloader.launch root tag timeout r) := by
    refine ⟨[_, _], launch_trace root r tag timeout, ?_⟩
    intro m hm
    simp only [List.mem_cons, List.not_mem_nil, or_false] at hm
    rcases hm with rfl | rfl
    · exact .of_state rfl (by simp) (by simp) (by simp)
    · exact .of_state rfl (by simp) (by simp) (by simp)
  exact hopening.keep hrest rfl

theorem opened (h : Tenure r) (hsessions : Sessions r.state) (ho : Opening W Delivers r σ' r') : Tenure r' := by
  cases ho with
  | launched root tag timeout hn =>
    have hcalled : Tenure (r.call (W.setStatus root .part)).2 := h.keep (.refl rfl) rfl
    exact hcalled.launch hsessions hn tag timeout
  | delivered => exact h

theorem step (h : Tenure r) (hr : Reached W rules Delivers world σ r) (hs : Step W rules σ r σ' r') : Tenure r' := by
  cases hs with
  | logged | broke | finished => exact h.keep (.emit (.of_state rfl (by simp) (by simp) (by simp))) rfl
  | arranged | asked | refused | found | missed | discarded | orphaned | settled | spared =>
    exact h.keep (.refl rfl) rfl
  | announced => exact h.keep (.trans (.refl rfl) (.emit (.of_state rfl (by simp) (by simp) (by simp)))) rfl
  | judged a awaiting p =>
    have htuned := Pass.take_tuned W rules a awaiting p r
    have hruns : ∀ {s : State}, (r.setPending (r.state.pending.without a.id)).state.Tuned s →
        ∀ root session, s.Runs root session ↔ r.state.Runs root session := fun ht _ _ => ht.runs_iff
    have hcancelled : ∀ {s : State}, (r.setPending (r.state.pending.without a.id)).state.Tuned s →
        ∀ session, s.Cancelled session ↔ r.state.Cancelled session := by
      intro s ht session
      rw [State.Cancelled, State.Cancelled, ht.stopped, ht.cancelled]
      rfl
    refine h.carry ((Pass.take_adds W rules a awaiting p r).mono ?_) (hruns htuned) (hcancelled htuned) htuned.opened
    rintro m ⟨he, ht, -⟩
    refine ⟨?_, ?_, hruns ht, hcancelled ht, ?_⟩
    · rintro ⟨_, _, _, ho⟩
      rcases he with ⟨e, he⟩ | ⟨awaiting', he⟩ <;> rw [he] at ho <;> cases ho
    · rcases he with ⟨e, he⟩ | ⟨awaiting', he⟩ <;> simp [he]
    · rcases he with ⟨e, he⟩ | ⟨awaiting', he⟩ <;> simp [he]
  | expanded child d hd =>
    have hruns : ∀ root session, (Pass.await child d r).state.Runs root session ↔ r.state.Runs root session := by
      intro root session
      rw [State.Runs, State.Runs, await_roots, Table.get?_insert]
      split
      · next heq =>
        rw [← heq, hd]
        rfl
      · rfl
    refine h.carry (await_adds _ _ _ ⟨?_, by simp, hruns, fun _ => Iff.rfl, by simp⟩) hruns (fun _ => Iff.rfl) rfl
    rintro ⟨_, _, _, ⟨⟩⟩
  | fetched root d blocks left hin hd hhas =>
    refine h.keep (.cons rfl ⟨?_, by simp, fun _ _ => Iff.rfl, fun _ => Iff.rfl, ?_⟩) rfl
    · rintro ⟨_, _, _, ⟨⟩⟩
    · rintro call ⟨⟩
      obtain ⟨id, hid, hpos⟩ := (mem_interested hr.books.pending).1 hin
      exact ⟨List.ne_nil_of_mem hid, hhas, hr.sessions.not_cancelled hd, root, State.runs_iff.2 ⟨d, hd, rfl⟩, id, hid,
        hpos⟩
  | released root d hd => exact h.dismiss hr.sessions hd
  | completed root d hd =>
    have hmarked : Tenure (mark W root r) := by
      refine h.keep (mark_adds _ _ W ?_ fun e => ?_) (mark_state root r W)
      · exact .of_state rfl (by simp) (by simp) (by simp)
      · exact .of_state rfl (by simp) (by simp) (by simp)
    refine hmarked.dismiss ?_ ?_
    · rw [mark_state]
      exact hr.sessions
    · rw [mark_state]
      exact hd

end Tenure

theorem Reached.tenure (h : Reached W rules Delivers world σ r) : Tenure r := by
  induction h with
  | start =>
    refine ⟨⟨?_, ?_, ?_, ?_⟩, ?_, fun later m earlier ht => by simp at ht⟩
    · simp [OpenedFor, State.Runs, State.initial, Table.get?]
    · simp [EndedWith, State.Cancelled, State.initial]
    · simp [EndedWith]
    · simp [OpenedFor]
    · simp [OpenedFor]
  | opened hr ho ih => exact ih.opened hr.sessions ho
  | step hr hs ih => exact ih.step hr hs

/-- Until it is shut down, the downloader has exactly those sessions going that belong to its roots in
flight: a session is opened once, for one root, and cancelled once, as that root's download ends. At
any time, in the middle of an event no less than between events, a call for blocks lists only blocks
that are waited for and goes out under the session of a root in flight that waits for one of them. -/
theorem sessions_tenured (W : World ω) (rules : Rules) (events : List Event) (world : ω) :
    Accounted (history W rules events world).trace (history W rules events world).state ∧
      ∀ later m earlier, (history W rules events world).trace = later ++ m :: earlier → Tenured m earlier := by
  have h := (history_reached W rules events world).tenure
  exact ⟨h.accounted, h.tenured⟩

end BlockDag.Downloader
