/-
The life of a download. A command puts a root in flight, leaves its download as it is, or ends it for
one of five reasons, each with its own news or none: it was completed, it was judged malformed, a
call for its blocks was refused, its time was over, or the downloader was shut down. Sessions are
numbered upwards, so there is no more news of a root than it was kicked off, and a deadline is
nothing to a later download of its root.
-/
import BlockDag.Proofs.Endings
import BlockDag.Proofs.Memory

namespace BlockDag.Downloader

variable {ω : Type} {W : World ω} {rules : Rules} {r r₁ r' : Run ω} {root other : RootId}

/-! ## Putting a root in flight -/

theorem launch_adds {P : Moment ω → Prop} (root : RootId) (tag : DataTag) (timeout : Nat) (r : Run ω)
    (hlogged : P ⟨.logged (.started root tag), r.world, (launch root tag timeout r).state⟩)
    (hawaited : P ⟨.awaited root root 0, r.world, (launch root tag timeout r).state⟩)
    (hopened : P ⟨.opened (r.state.opened + 1) root timeout, r.world, (launch root tag timeout r).state⟩) :
    Run.Adds P r (launch root tag timeout r) := by
  refine ⟨_, launch_trace _ _ _ _, ?_⟩
  simp only [List.mem_cons, List.not_mem_nil, or_false, forall_eq_or_imp, forall_eq]
  exact ⟨hlogged, hawaited, hopened⟩

/-- What a kickoff of `root` comes to. -/
inductive Kicked (W : World ω) (rules : Rules) (root : RootId) (tag : DataTag) (r : Run ω) : Run ω → Prop
  /-- The root is in flight already. -/
  | running : r.state.InFlight root → Kicked W rules root tag r r
  /-- The root cannot be marked partial. -/
  | declined (r₁ : Run ω) (e : StoreError) : ¬ r.state.InFlight root → (∀ other, Stays other r r₁) →
      (W.setStatus root .part r.world).1 = .error e → r₁.world = (W.setStatus root .part r.world).2 →
      Kicked W rules root tag r (decline W root r₁)
  /-- The root goes in flight, and what follows may end downloads. -/
  | launched (r₁ : Run ω) (timeout : Nat) (r' : Run ω) : ¬ r.state.InFlight root → (∀ other, Stays other r r₁) →
      (∀ other, Passes other (launch root tag timeout r₁) r') → Kicked W rules root tag r r'

theorem kickoff_kicked (W : World ω) (rules : Rules) (root : RootId) (tag : DataTag) (r : Run ω) :
    Kicked W rules root tag r (kickoff W rules root tag r) := by
  unfold kickoff
  split
  · next hin => exact .running hin
  · next hout =>
    rcases timeLimit rules root tag with ⟨entries, timeout⟩
    have hcalled : ∀ other, Stays other r ((r.logAll entries).call (W.setStatus root .part)).2 :=
      fun other => (Stays.logAll other r entries).trans (.call other _ _)
    have houtcome := Run.call_fst (r.logAll entries) (W.setStatus root .part)
    have hworld := Run.call_world (r.logAll entries) (W.setStatus root .part)
    rw [Run.logAll_world] at houtcome hworld
    dsimp only
    rcases hc : (r.logAll entries).call (W.setStatus root .part) with ⟨outcome, r₁⟩
    rw [hc] at hcalled houtcome hworld
    dsimp only at hcalled houtcome hworld ⊢
    cases outcome with
    | error e => exact .declined r₁ e hout hcalled houtcome.symm hworld
    | ok _ =>
      refine .launched r₁ timeout _ hout hcalled ?_
      intro other
      dsimp only
      split
      · exact .stays (.refl other _)
      · exact request_passes W other root rules _

/-! ## What a command makes of a download -/

/-- The command puts `root` in flight, under a session of its own. -/
def Starts (root : RootId) (command : Command) (r r' : Run ω) : Prop :=
  (∃ tag, command = .event (.kickoff root tag)) ∧ ¬ r.state.InFlight root ∧
    Run.Shows (fun m => ∃ timeout, m.effect = .opened (r.state.opened + 1) root timeout) r r'

/-- No news of `root`, and nothing that dooms it. -/
def Moment.Spares (root : RootId) (m : Moment ω) : Prop := m.effect.newsOf? root = none ∧ ¬ m.Dooms root

/-- What one command makes of the download of `root`, and all the news there is of it. -/
inductive Turn (W : World ω) (root : RootId) (command : Command) (r r' : Run ω) : Prop
  /-- The root was not in flight, and no session was opened for it. -/
  | rests : ¬ r.state.InFlight root → ¬ r'.state.InFlight root → Run.Adds (Moment.Spares root) r r' →
      Run.Adds (fun m => ∀ session timeout, m.effect ≠ .opened session root timeout) r r' →
      Turn W root command r r'
  /-- The root was kicked off and is full already. -/
  | full (tag : DataTag) (e : StoreError) : command = .event (.kickoff root tag) →
      (W.setStatus root .part r.world).1 = .error e →
      (W.getStatus root (W.setStatus root .part r.world).2).1 = .ok (some .full) →
      ¬ r.state.InFlight root → ¬ r'.state.InFlight root →
      Run.Does (fun new => newsOf root new = [.added root] ∧ ∀ m ∈ new, ¬ m.Dooms root) r r' → Turn W root command r r'
  /-- The download goes on, or begins. -/
  | lasts (session : SessionId) :
      r.state.Runs root session ∨ Starts root command r r' ∧ session = r.state.opened + 1 →
      r'.state.Runs root session → Run.Adds (Moment.Spares root) r r' → Turn W root command r r'
  /-- The download ends, where it may have begun just now. -/
  | ends : r.state.InFlight root ∨ Starts root command r r' → ¬ r'.state.InFlight root →
      Run.Does (Ending root) r r' → Turn W root command r r'
  /-- The time of the download is over. -/
  | expires (session : SessionId) : command = .event (.deadline root session) → r.state.Runs root session →
      ¬ r'.state.InFlight root → Run.Adds (Moment.Spares root) r r' → Turn W root command r r'
  /-- The downloader is shut down. -/
  | stops : command = .shutdown → r.state.InFlight root → ¬ r'.state.InFlight root → r'.trace = r.trace →
      Turn W root command r r'

theorem Moment.Aside.spares {m : Moment ω} (h : m.Aside root) : m.Spares root := ⟨h.news, h.undoomed⟩

theorem Moment.Aside.unstarted {m : Moment ω} (h : m.Aside root) (session : SessionId) (timeout : Nat) :
    m.effect ≠ .opened session root timeout := fun he => h.unopened ⟨_, _, _, he⟩

theorem newsOf_spares {new : List (Moment ω)} (h : ∀ m ∈ new, m.Spares root) : newsOf root new = [] :=
  List.filterMap_eq_nil_iff.2 fun m hm => (h m hm).1

theorem Ending.after_spares {new before : List (Moment ω)} (h : Ending root new) (hb : ∀ m ∈ before, m.Spares root) :
    Ending root (new ++ before) :=
  h.earlier (newsOf_spares hb) fun m hm => (hb m hm).2

theorem Stays.spares (h : Stays root r r') : Run.Adds (Moment.Spares root) r r' :=
  h.aside.mono fun _ => Moment.Aside.spares

/-- A stretch that leaves the download as it is, before one that may end it. -/
theorem Turn.of_passes {command : Command} (hspared : Run.Adds (Moment.Spares root) r r₁)
    (hunstarted : Run.Adds (fun m => ∀ session timeout, m.effect ≠ .opened session root timeout) r r₁)
    (hruns : ∀ session, r₁.state.Runs root session ↔ r.state.Runs root session) (h : Passes root r₁ r') :
    Turn W root command r r' := by
  have hin : r₁.state.InFlight root ↔ r.state.InFlight root := by
    rw [State.inFlight_iff, State.inFlight_iff]
    exact exists_congr hruns
  cases h with
  | stays h =>
    have hnews := hspared.trans h.spares
    by_cases hfly : r.state.InFlight root
    · obtain ⟨session, hs⟩ := State.inFlight_iff.1 hfly
      exact .lasts session (.inl hs) ((h.runs session).2 ((hruns session).2 hs)) hnews
    · refine .rests hfly ?_ hnews (hunstarted.trans (h.aside.mono fun _ => Moment.Aside.unstarted))
      rw [h.inFlight_iff, hin]
      exact hfly
  | departs h =>
    refine .ends (.inl (hin.1 h.before)) h.after ((Run.Does.of_adds hspared).trans h.ending ?_)
    exact fun _ _ hb h => h.after_spares hb

theorem Passes.turn {command : Command} (h : Passes root r r') : Turn W root command r r' :=
  .of_passes (.refl rfl) (.refl rfl) (fun _ => Iff.rfl) h

theorem decline_full (h : (W.getStatus root r.world).1 = .ok (some .full)) :
    decline W root r = ((r.call (W.getStatus root)).2).notify (.added root) := by
  have hfst := Run.call_fst r (W.getStatus root)
  unfold decline
  rcases hc : r.call (W.getStatus root) with ⟨outcome, r₁⟩
  rw [hc, h] at hfst
  obtain rfl : outcome = _ := hfst
  rfl

theorem launch_spares (root other : RootId) (tag : DataTag) (timeout : Nat) (r : Run ω) :
    Run.Adds (Moment.Spares root) r (launch other tag timeout r) := by
  refine launch_adds other tag timeout r (Moment.aside_logged ⟨_, rfl⟩).spares ?_ ⟨rfl, ?_⟩
  · exact (Moment.aside_of rfl (by simp) (by simp)).spares
  · rintro ⟨⟨_, _, _, _, hj, -⟩, -⟩
    cases hj

/-- Putting a root in flight is nothing to another. -/
theorem launch_apart (h : other ≠ root) (tag : DataTag) (timeout : Nat) (r : Run ω) :
    Run.Adds (fun m => ∀ session timeout, m.effect ≠ .opened session root timeout) r (launch other tag timeout r) ∧
      ∀ session, (launch other tag timeout r).state.Runs root session ↔ r.state.Runs root session := by
  constructor
  · refine launch_adds other tag timeout r (by simp) (by simp) ?_
    rintro session timeout' he
    cases he
    exact h rfl
  · intro session
    rw [State.Runs, State.Runs, launch_roots, Table.get?_insert, if_neg h]

/-- Putting a root in flight opens a session for it. -/
theorem launch_runs (root : RootId) (tag : DataTag) (timeout : Nat) (r : Run ω) :
    (launch root tag timeout r).state.Runs root (r.state.opened + 1) := by
  refine State.runs_iff.2 ⟨.start root tag (r.state.opened + 1), ?_, rfl⟩
  rw [launch_roots, Table.get?_insert, if_pos rfl]

theorem launch_shows (root : RootId) (tag : DataTag) (timeout : Nat) (r : Run ω) :
    Run.Shows (fun m => ∃ timeout, m.effect = .opened (r.state.opened + 1) root timeout) r
      (launch root tag timeout r) := by
  refine ⟨_, launch_trace root r tag timeout,
    ⟨.opened (r.state.opened + 1) root timeout, r.world, (launch root tag timeout r).state⟩, ?_, timeout, rfl⟩
  exact List.mem_cons_of_mem _ (List.mem_cons_of_mem _ (List.mem_singleton_self _))

/-- A kickoff begins the download of a root that is neither in flight nor full, and may end others. -/
theorem kickoff_turn (W : World ω) (rules : Rules) (root other : RootId) (tag : DataTag) (r : Run ω) :
    Turn W root (.event (.kickoff other tag)) r (kickoff W rules other tag r) := by
  have hkicked := kickoff_kicked W rules other tag r
  generalize kickoff W rules other tag r = r' at hkicked
  cases hkicked with
  | running _ => exact Passes.turn (.stays (.refl root r))
  | declined r₁ e hout hcalled hrefused hworld =>
    by_cases hfull : other = root ∧ (W.getStatus root r₁.world).1 = .ok (some .full)
    · obtain ⟨rfl, hfull⟩ := hfull
      obtain ⟨hnotified, -⟩ :=
        notify_does other (r₁.call (W.getStatus other)).2 (show (Update.added other).root = other from rfl)
      rw [decline_full hfull]
      refine .full tag e rfl hrefused (hworld ▸ hfull) hout ?_ ?_
      · exact fun hin => hout ((hcalled other).inFlight_iff.1 hin)
      · refine (Run.Does.of_adds ((hcalled other).aside.trans (.refl rfl))).trans hnotified ?_
        rintro new new' haside ⟨hnews, hspared⟩
        exact ⟨(newsOf_append_aside haside).trans hnews,
          List.forall_mem_append.2 ⟨hspared, undoomed_of_aside haside⟩⟩
    · have hdeclined := decline_stays W root other r₁ fun heq hfull' => hfull ⟨heq, hfull'⟩
      exact Passes.turn (.stays ((hcalled root).trans hdeclined))
  | launched r₁ timeout r' hout hcalled hpasses =>
    have hspared := (hcalled root).spares.trans (launch_spares root other tag timeout r₁)
    by_cases heq : other = root
    · subst heq
      have hopened := (hcalled other).opened
      have hbegun := launch_shows other tag timeout r₁
      rw [hopened] at hbegun
      have hstarts : ∀ {P}, Run.Adds P (launch other tag timeout r₁) r' →
          Starts other (.event (.kickoff other tag)) r r' := fun hadds =>
        ⟨⟨tag, rfl⟩, hout, .earlier (hcalled other).aside (hbegun.later hadds)⟩
      cases hpasses other with
      | stays h =>
        refine .lasts (r.state.opened + 1) (.inr ⟨hstarts h.aside, rfl⟩) ?_ (hspared.trans h.spares)
        rw [h.runs, ← hopened]
        exact launch_runs other tag timeout r₁
      | departs h =>
        refine .ends (.inr (hstarts h.unopened)) h.after ((Run.Does.of_adds hspared).trans h.ending ?_)
        intro _ _ hb h
        exact h.after_spares hb
    · obtain ⟨hunstarted, hruns⟩ := launch_apart heq tag timeout r₁
      refine .of_passes hspared (((hcalled root).aside.mono fun _ => Moment.Aside.unstarted).trans hunstarted) ?_
        (hpasses root)
      exact fun session => (hruns session).trans ((hcalled root).runs session)

/-- A deadline ends the download that it was armed for, and another only where a call is refused. -/
theorem expire_turn (W : World ω) (root other : RootId) (session : SessionId) (r : Run ω) :
    Turn W root (.event (.deadline other session)) r (expire W other session r) := by
  unfold expire
  split
  · exact Passes.turn (.stays (.refl root r))
  · next d hd =>
    split
    · next hs =>
      have hlogged : Stays root r (r.log (.timedOut other d.outstanding)) := .log root r _
      by_cases heq : other = root
      · subst heq
        obtain ⟨hgone, -⟩ := free_gone W other (r.log (.timedOut other d.outstanding))
        refine .expires session rfl (State.runs_iff.2 ⟨d, hd, hs⟩) hgone.out ?_
        exact hlogged.spares.trans (hgone.aside.mono fun _ => Moment.Aside.spares)
      · exact (Loses.trans (.stays hlogged) (free_loses W heq _)).passes.turn
    · exact Passes.turn (.stays (.refl root r))

/-- Whatever the state, every command is a turn for every root. -/
theorem obey_turn (W : World ω) (rules : Rules) (root : RootId) (command : Command) (r : Run ω) :
    Turn W root command r (obey W rules command r) := by
  cases command with
  | event event =>
    cases event with
    | kickoff other tag => exact kickoff_turn W rules root other tag r
    | delivered id raw => exact (deliver_passes W root rules id raw r).turn
    | deadline other session => exact expire_turn W root other session r
  | shutdown =>
    have hout : ¬ (obey W rules .shutdown r).state.InFlight root := by
      rw [State.not_inFlight_iff]
      rfl
    by_cases hin : r.state.InFlight root
    · exact .stops rfl hin hout rfl
    · exact .rests hin hout (.refl rfl) (.refl rfl)

/-! ## Numbers of sessions -/

/-- Sessions are numbered upwards. -/
structure Numbers (r r' : Run ω) : Prop where
  grows : r.state.opened ≤ r'.state.opened
  within : Run.Adds (fun m => ∀ session root timeout, m.effect = .opened session root timeout →
    session ≤ r'.state.opened) r r'

theorem Numbers.of_unopened (h : Run.Adds (¬ ·.Opens) r r') (ho : r'.state.opened = r.state.opened) : Numbers r r' := by
  refine ⟨Nat.le_of_eq ho.symm, h.mono ?_⟩
  intro m hm session root timeout he
  exact absurd ⟨session, root, timeout, he⟩ hm

theorem Stays.numbers (h : Stays root r r') : Numbers r r' :=
  .of_unopened h.unopened h.opened

theorem Passes.numbers (h : Passes root r r') : Numbers r r' := by
  cases h with
  | stays h => exact h.numbers
  | departs h => exact .of_unopened h.unopened h.opened

theorem Numbers.trans (h : Numbers r r₁) (h' : Numbers r₁ r') : Numbers r r' := by
  refine ⟨Nat.le_trans h.grows h'.grows, (h.within.mono ?_).trans h'.within⟩
  intro m hm session root timeout he
  exact Nat.le_trans (hm session root timeout he) h'.grows

theorem launch_numbers (root : RootId) (tag : DataTag) (timeout : Nat) (r : Run ω) :
    Numbers r (launch root tag timeout r) := by
  refine ⟨Nat.le_succ _, launch_adds root tag timeout r (by simp) (by simp) ?_⟩
  rintro session other timeout' he
  cases he
  exact Nat.le_refl _

theorem decline_unopened (W : World ω) (root : RootId) (r : Run ω) :
    Run.Adds (¬ ·.Opens) r (decline W root r) := by
  have hasked : Run.Adds (¬ ·.Opens) r (r.call (W.getStatus root)).2 := .refl rfl
  unfold decline
  rcases hc : r.call (W.getStatus root) with ⟨outcome, r₁⟩
  rw [hc] at hasked
  rcases outcome with (e | _ | _ | _)
  · exact hasked.trans (Stays.log root r₁ _).unopened
  · exact hasked
  · exact hasked
  · exact hasked.trans (notify_does root r₁ (show (Update.added root).root = root from rfl)).2

theorem obey_numbers (W : World ω) (rules : Rules) (command : Command) (r : Run ω) :
    Numbers r (obey W rules command r) := by
  cases command with
  | shutdown => exact ⟨Nat.le_refl _, .refl rfl⟩
  | event event =>
    cases event with
    | delivered id raw => exact (deliver_passes W id rules id raw r).numbers
    | deadline root session =>
      rw [obey, handle, expire]
      split
      · exact (Stays.refl root r).numbers
      · next d _ =>
        split
        · obtain ⟨hgone, -⟩ := free_gone W root (r.log (.timedOut root d.outstanding))
          exact (Stays.log root r _).numbers.trans (.of_unopened hgone.unopened hgone.opened)
        · exact (Stays.refl root r).numbers
    | kickoff root tag =>
      have hkicked := kickoff_kicked W rules root tag r
      rw [obey, handle]
      generalize kickoff W rules root tag r = r' at hkicked
      cases hkicked with
      | running _ => exact (Stays.refl root r).numbers
      | declined r₁ e hout hcalled =>
        exact (hcalled root).numbers.trans (.of_unopened (decline_unopened W root r₁) (by rw [decline_state]))
      | launched r₁ timeout r' hout hcalled hpasses =>
        exact (hcalled root).numbers.trans ((launch_numbers root tag timeout r₁).trans (hpasses root).numbers)

/-! ## Whole lifetimes -/

/-- The command kicks off `root`. -/
def Command.Kicks (root : RootId) (command : Command) : Prop := ∃ tag, command = .event (.kickoff root tag)

instance (root : RootId) : DecidablePred (Command.Kicks root)
  | .event (.kickoff other tag) =>
    decidable_of_iff (other = root) ⟨fun h => ⟨tag, by rw [h]⟩, fun ⟨_, h⟩ => by cases h; rfl⟩
  | .event (.delivered ..) | .event (.deadline ..) | .shutdown => .isFalse fun ⟨_, h⟩ => by cases h

/-- One news is what is left of a download in flight, or of a kickoff. -/
def credit (root : RootId) (s : State) : Nat := if s.InFlight root then 1 else 0

theorem Ending.length_newsOf_le {new : List (Moment ω)} (h : Ending root new) : (newsOf root new).length ≤ 1 := by
  cases h with
  | completed hn | malformed hn => rw [hn]; exact Nat.le_refl 1
  | refused _ _ _ hn => rw [hn]; exact Nat.zero_le 1

/-- A turn spends a download in flight, or a kickoff, on each news. -/
theorem Turn.length_newsOf_le {command : Command} (h : Turn W root command r r') :
    (newsOf root r'.trace).length + credit root r'.state ≤
      (newsOf root r.trace).length + credit root r.state + if command.Kicks root then 1 else 0 := by
  have hlength : ∀ {n}, Run.Does (fun new => (newsOf root new).length ≤ n) r r' →
      (newsOf root r'.trace).length ≤ n + (newsOf root r.trace).length := by
    rintro n ⟨new, htrace, hn⟩
    rw [htrace, newsOf_append, List.length_append]
    exact Nat.add_le_add_right hn _
  have hspared : Run.Adds (Moment.Spares root) r r' →
      (newsOf root r'.trace).length ≤ 0 + (newsOf root r.trace).length := fun h =>
     hlength ((Run.Does.of_adds h).mono fun _ h => by rw [newsOf_spares h]; exact Nat.le_refl 0)
  have hin : r.state.InFlight root → credit root r.state = 1 := fun h => if_pos h
  have hstarts : Starts root command r r' → command.Kicks root := And.left
  cases h with
  | rests _ hout hnews =>
    have := hspared hnews
    rw [show credit root r'.state = 0 from if_neg hout]
    omega
  | full tag e hc _ _ _ hout hnews =>
    have := hlength (n := 1) (hnews.mono fun _ h => by rw [h.1]; exact Nat.le_refl 1)
    rw [show credit root r'.state = 0 from if_neg hout, if_pos (show command.Kicks root from ⟨tag, hc⟩)]
    omega
  | lasts session hbefore _ hnews =>
    have := hspared hnews
    have hcredit : credit root r'.state ≤ 1 := by
      unfold credit
      split <;> omega
    rcases hbefore with hruns | ⟨hs, -⟩
    · have := hin (State.inFlight_iff.2 ⟨session, hruns⟩)
      omega
    · rw [if_pos (hstarts hs)]
      omega
  | ends hbefore hout hends =>
    have := hlength (hends.mono fun _ h => h.length_newsOf_le)
    rw [show credit root r'.state = 0 from if_neg hout]
    rcases hbefore with hfly | hs
    · have := hin hfly
      omega
    · rw [if_pos (hstarts hs)]
      omega
  | expires session _ _ hout hnews =>
    have := hspared hnews
    rw [show credit root r'.state = 0 from if_neg hout]
    omega
  | stops _ _ hout htrace =>
    rw [htrace, show credit root r'.state = 0 from if_neg hout]
    omega

theorem obeyAll_length_newsOf_le (W : World ω) (rules : Rules) (root : RootId) (commands : List Command) (r : Run ω) :
    (newsOf root (obeyAll W rules commands r).trace).length + credit root (obeyAll W rules commands r).state ≤
      (newsOf root r.trace).length + credit root r.state + commands.countP fun c => decide (c.Kicks root) := by
  induction commands generalizing r with
  | nil => exact Nat.le_refl _
  | cons command commands ih =>
    have hturn := (obey_turn W rules root command r).length_newsOf_le
    have hrest := ih (obey W rules command r)
    rw [List.countP_cons]
    simp only [decide_eq_true_eq]
    rw [show obeyAll W rules (command :: commands) r = obeyAll W rules commands (obey W rules command r) from rfl]
    omega

theorem obeyAll_numbers (W : World ω) (rules : Rules) (commands : List Command) (r : Run ω) :
    Numbers r (obeyAll W rules commands r) := by
  induction commands generalizing r with
  | nil => exact ⟨Nat.le_refl _, .refl rfl⟩
  | cons command commands ih => exact (obey_numbers W rules command r).trans (ih _)

/-- A session that no longer runs never runs again. -/
theorem obey_stale {session : SessionId} (hle : session ≤ r.state.opened) (hn : ¬ r.state.Runs root session)
    (command : Command) : ¬ (obey W rules command r).state.Runs root session := by
  have hout : ∀ {s : State}, ¬ s.InFlight root → ¬ s.Runs root session := fun hout hruns =>
    hout (State.inFlight_iff.2 ⟨session, hruns⟩)
  cases obey_turn W rules root command r with
  | rests _ h | full _ _ _ _ _ _ h | ends _ h | expires _ _ _ h | stops _ _ h => exact hout h
  | lasts session' hbefore hafter =>
    intro hruns
    obtain ⟨d, hd, rfl⟩ := State.runs_iff.1 hruns
    obtain ⟨d', hd', rfl⟩ := State.runs_iff.1 hafter
    obtain rfl : d = d' := Option.some.inj (hd.symm.trans hd')
    rcases hbefore with hbefore | ⟨-, heq⟩
    · exact hn hbefore
    · rw [heq] at hle
      exact Nat.not_succ_le_self _ hle

theorem obeyAll_stale {session : SessionId} (hle : session ≤ r.state.opened) (hn : ¬ r.state.Runs root session)
    (commands : List Command) : ¬ (obeyAll W rules commands r).state.Runs root session := by
  induction commands generalizing r with
  | nil => exact hn
  | cons command commands ih =>
    exact ih (Nat.le_trans hle (obey_numbers W rules command r).grows) (obey_stale hle hn command)

/-- A deadline is nothing to a root that does not run under its session. -/
theorem expire_of_not_runs {session : SessionId} (h : ¬ r.state.Runs root session) : expire W root session r = r := by
  unfold expire
  split
  · rfl
  · next d hd =>
    split
    · next hs => exact absurd (State.runs_iff.2 ⟨d, hd, hs⟩) h
    · rfl

instance (session : SessionId) (root : RootId) : (e : Effect) → Decidable (∃ timeout, e = .opened session root timeout)
  | .opened s other timeout =>
    decidable_of_iff (s = session ∧ other = root)
      ⟨fun ⟨hs, ho⟩ => ⟨timeout, by rw [hs, ho]⟩, fun ⟨_, h⟩ => by cases h; exact ⟨rfl, rfl⟩⟩
  | .logged _ | .notified _ | .released .. | .marked .. | .awaited .. | .judged .. | .fetched _ =>
    .isFalse fun ⟨_, h⟩ => by cases h

/-- Whatever the store and the network do, and whatever the state: a download ends for one of five
reasons, each with its own news or none, and there is no other news but of a root kicked off that is
full already. So over a lifetime there is at most one news of a root for each time it was kicked off,
and once the session of a download has ended, its deadline does nothing. -/
theorem download_lifecycle (W : World ω) (rules : Rules) (root : RootId) :
    (∀ command r, Turn W root command r (obey W rules command r)) ∧
    (∀ commands world, (newsOf root (lifetime W rules commands world).trace).length ≤
      commands.countP fun c => decide (c.Kicks root)) ∧
    ∀ before later world session, (∃ m ∈ (lifetime W rules before world).trace, ∃ timeout,
        m.effect = .opened session root timeout) → ¬ (lifetime W rules before world).state.Runs root session →
      handle W rules (.deadline root session) (lifetime W rules (before ++ later) world) =
        lifetime W rules (before ++ later) world := by
  refine ⟨obey_turn W rules root, ?_, ?_⟩
  · intro commands world
    have hcount := obeyAll_length_newsOf_le W rules root commands ⟨world, .initial, []⟩
    have hnone : (newsOf root ([] : List (Moment ω))).length = 0 := rfl
    have hcredit : credit root State.initial = 0 := if_neg (State.not_inFlight_iff.2 rfl)
    dsimp only at hcount
    rw [hnone, hcredit] at hcount
    unfold lifetime
    omega
  · rintro before later world session ⟨m, hm, timeout, he⟩ hn
    have hnumbers := obeyAll_numbers W rules before ⟨world, .initial, []⟩
    have hle : session ≤ (lifetime W rules before world).state.opened := by
      rcases hnumbers.within.mem hm with hm | hle
      · cases hm
      · exact hle session root timeout he
    have heq : lifetime W rules (before ++ later) world = obeyAll W rules later (lifetime W rules before world) :=
      List.foldl_append
    rw [heq, handle]
    exact expire_of_not_runs (obeyAll_stale hle hn later)

/-- A payload's root runs out of time, is kicked off again and completed; the first deadline is nothing to it then.
A root that is too short for a block is given up when it comes in. -/
theorem download_lifecycle_retry :
    let kickoff := Command.event (.kickoff (Sample.blob Sample.word).root .blockBody)
    let deadline := Command.event (.deadline (Sample.blob Sample.word).root 1)
    let deliveries := (Sample.blob Sample.word).blocks.map fun b => Command.event (.delivered b.1 b.2)
    let short := [Command.event (.kickoff (.of [0]) .blockBody), Command.event (.delivered (.of [0]) [0])]
    let W := World.over MemoryStore.operations Simulation.Refusals.outside
    (∃ m ∈ (lifetime W Sample.rules [kickoff, deadline] (.empty, Sample.network)).trace, ∃ timeout,
      m.effect = .opened 1 (Sample.blob Sample.word).root timeout) ∧
    ¬ (lifetime W Sample.rules [kickoff, deadline] (.empty, Sample.network)).state.Runs
      (Sample.blob Sample.word).root 1 ∧
    (lifetime W Sample.rules ([kickoff, deadline] ++ [kickoff]) (.empty, Sample.network)).state.InFlight
      (Sample.blob Sample.word).root ∧
    handle W Sample.rules (.deadline (Sample.blob Sample.word).root 1)
        (lifetime W Sample.rules ([kickoff, deadline] ++ [kickoff]) (.empty, Sample.network)) =
      lifetime W Sample.rules ([kickoff, deadline] ++ [kickoff]) (.empty, Sample.network) ∧
    newsOf (Sample.blob Sample.word).root (lifetime W Sample.rules ([kickoff, deadline, kickoff] ++ deliveries)
      (.empty, Sample.network)).trace = [.added (Sample.blob Sample.word).root] ∧
    (newsOf (Sample.blob Sample.word).root (lifetime W Sample.rules ([kickoff, deadline, kickoff] ++ deliveries)
      (.empty, Sample.network)).trace).length ≤ 2 ∧
    newsOf (.of [0]) (lifetime W Sample.rules short (.empty, Sample.network)).trace = [.broken (.of [0])] ∧
    (newsOf (.of [0]) (lifetime W Sample.rules short (.empty, Sample.network)).trace).length ≤ 1 := by
  intro kickoff deadline deliveries short W
  have hopened : ∃ m ∈ (lifetime W Sample.rules [kickoff, deadline] (.empty, Sample.network)).trace, ∃ timeout,
      m.effect = .opened 1 (Sample.blob Sample.word).root timeout := by
    decide +kernel
  have hended : ¬ (lifetime W Sample.rules [kickoff, deadline] (.empty, Sample.network)).state.Runs
      (Sample.blob Sample.word).root 1 := by decide +kernel
  have hretried : (lifetime W Sample.rules ([kickoff, deadline] ++ [kickoff]) (.empty, Sample.network)).state.InFlight
      (Sample.blob Sample.word).root := by decide +kernel
  have hadded : newsOf (Sample.blob Sample.word).root (lifetime W Sample.rules
      ([kickoff, deadline, kickoff] ++ deliveries) (.empty, Sample.network)).trace =
      [.added (Sample.blob Sample.word).root] := by decide +kernel
  have hbroken : newsOf (.of [0]) (lifetime W Sample.rules short (.empty, Sample.network)).trace =
      [.broken (.of [0])] := by decide +kernel
  have hcount : ([kickoff, deadline, kickoff] ++ deliveries).countP
      (fun c => decide (c.Kicks (Sample.blob Sample.word).root)) = 2 := by decide +kernel
  have hshort : short.countP (fun c => decide (c.Kicks (.of [0]))) = 1 := by decide +kernel
  obtain ⟨-, hnews, hstale⟩ := download_lifecycle W Sample.rules (Sample.blob Sample.word).root
  obtain ⟨-, hnews', -⟩ := download_lifecycle W Sample.rules (.of [0])
  exact ⟨hopened, hended, hretried, hstale [kickoff, deadline] [kickoff] (.empty, Sample.network) 1 hopened hended,
    hadded, hcount ▸ hnews _ _, hbroken, hshort ▸ hnews' _ _⟩

end BlockDag.Downloader
