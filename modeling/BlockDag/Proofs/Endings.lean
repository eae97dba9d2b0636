/-
How downloads end. Whatever a handler does, a root in flight stays as it is, or it goes out of flight
once: completed, with the news that it was added; judged malformed, with the news that it is broken;
or with a call for blocks that was refused, and without news. Nothing here depends on how the state
came about, so it holds whatever the store and the network do.
-/
import BlockDag.Proofs.Persistence

namespace BlockDag.Downloader

variable {ω : Type} {W : World ω} {rules : Rules} {r r' r'' : Run ω} {root other : RootId}

/-! ## What concerns a root -/

/-- The news of `root` that the effect is, if it is such news. -/
def Effect.newsOf? (root : RootId) : Effect → Option Update
  | .notified update => if update.root = root then some update else none
  | _ => none

/-- What was reported of `root`, the latest first. -/
def newsOf (root : RootId) (trace : List (Moment ω)) : List Update :=
  trace.filterMap fun m => m.effect.newsOf? root

/-- `root` is among those that wait for the block `id`. -/
def State.Awaits (s : State) (root : RootId) (id : BlockId) : Prop :=
  root ∈ Table.keys ((s.pending.get? id).getD [])

instance (s : State) (root : RootId) (id : BlockId) : Decidable (s.Awaits root id) :=
  inferInstanceAs (Decidable (root ∈ Table.keys ((s.pending.get? id).getD [])))

/-- A call was refused that listed a block for which `root` waited. -/
def Moment.Denies (root : RootId) (m : Moment ω) : Prop :=
  ∃ call e, m.effect = .fetched call ∧ call.outcome = .error e ∧ ∃ id ∈ call.blocks, m.state.Awaits root id

/-- A block was judged that proves the tree of `root`, which is in flight, malformed. -/
def Moment.Dooms (root : RootId) (m : Moment ω) : Prop := m.Condemns root ∧ m.state.InFlight root

/-- `root` was marked, which was in flight and had nothing left to wait for. -/
def Moment.Completes (root : RootId) (m : Moment ω) : Prop :=
  ∃ outcome d, m.effect = .marked root outcome ∧ m.state.roots.get? root = some d ∧ d.Complete

/-- A session was opened. -/
def Moment.Opens (m : Moment ω) : Prop := ∃ session root timeout, m.effect = .opened session root timeout

/-- No news of `root`, nothing that dooms it, and no session opened. -/
structure Moment.Aside (root : RootId) (m : Moment ω) : Prop where
  news : m.effect.newsOf? root = none
  undoomed : ¬ m.Dooms root
  unopened : ¬ m.Opens

theorem newsOf_append (new trace : List (Moment ω)) :
    newsOf root (new ++ trace) = newsOf root new ++ newsOf root trace :=
  List.filterMap_append

section Aside

variable {new more : List (Moment ω)}

theorem newsOf_aside (h : ∀ m ∈ new, m.Aside root) : newsOf root new = [] :=
  List.filterMap_eq_nil_iff.2 fun m hm => (h m hm).news

theorem newsOf_aside_append (h : ∀ m ∈ new, m.Aside root) : newsOf root (new ++ more) = newsOf root more := by
  rw [newsOf_append, newsOf_aside h, List.nil_append]

theorem newsOf_append_aside (h : ∀ m ∈ more, m.Aside root) : newsOf root (new ++ more) = newsOf root new := by
  rw [newsOf_append, newsOf_aside h, List.append_nil]

theorem undoomed_of_aside (h : ∀ m ∈ new, m.Aside root) : ∀ m ∈ new, ¬ m.Dooms root := fun m hm => (h m hm).undoomed

end Aside

theorem State.inFlight_iff {s : State} : s.InFlight root ↔ ∃ session, s.Runs root session := by
  rw [State.InFlight, Table.has_iff_get?, Option.isSome_iff_exists]
  constructor
  · rintro ⟨d, hd⟩
    exact ⟨d.session, State.runs_iff.2 ⟨d, hd, rfl⟩⟩
  · rintro ⟨session, h⟩
    obtain ⟨d, hd, -⟩ := State.runs_iff.1 h
    exact ⟨d, hd⟩

theorem State.not_inFlight_iff {s : State} : ¬ s.InFlight root ↔ s.roots.get? root = none := by
  rw [State.InFlight, Table.has_iff_get?, Option.not_isSome_iff_eq_none]

theorem Moment.aside_of {m : Moment ω} (hn : m.effect.newsOf? root = none)
    (hj : ∀ id awaiting verdict, m.effect ≠ .judged id awaiting verdict)
    (ho : ∀ session other timeout, m.effect ≠ .opened session other timeout) : m.Aside root := by
  constructor
  · exact hn
  · rintro ⟨⟨_, _, _, _, he, -⟩, -⟩
    exact hj _ _ _ he
  · rintro ⟨_, _, _, he⟩
    exact ho _ _ _ he

/-- Log entries are no news. -/
theorem Moment.aside_logged {m : Moment ω} (h : ∃ entry, m.effect = .logged entry) : m.Aside root := by
  obtain ⟨entry, he⟩ := h
  exact aside_of (by rw [he]; rfl) (by simp [he]) (by simp [he])

/-- News of another root are none of this one. -/
theorem Moment.aside_notified {m : Moment ω} {update : Update} (he : m.effect = .notified update)
    (h : update.root ≠ root) : m.Aside root := by
  refine aside_of ?_ (by simp [he]) (by simp [he])
  rw [he]
  exact if_neg h

/-! ## Stretches as a whole -/

/-- What `r'` did after `r`, taken together, satisfies `C`. -/
def Run.Does (C : List (Moment ω) → Prop) (r r' : Run ω) : Prop := ∃ new, r'.trace = new ++ r.trace ∧ C new

namespace Run.Does

variable {C C' D : List (Moment ω) → Prop} {P : Moment ω → Prop}

theorem refl (h : C []) : Does C r r := ⟨[], rfl, h⟩

theorem emit {e : Effect} (h : C [⟨e, r.world, r.state⟩]) : Does C r (r.emit e) := ⟨[_], rfl, h⟩

theorem trans (h : Does C r r') (h' : Does C' r' r'') (hD : ∀ new new', C new → C' new' → D (new' ++ new)) :
    Does D r r'' := by
  obtain ⟨new, htrace, hC⟩ := h
  obtain ⟨new', htrace', hC'⟩ := h'
  exact ⟨new' ++ new, by rw [htrace', htrace, List.append_assoc], hD new new' hC hC'⟩

theorem mono (hD : ∀ new, C new → D new) (h : Does C r r') : Does D r r' := by
  obtain ⟨new, htrace, hC⟩ := h
  exact ⟨new, htrace, hD new hC⟩

theorem of_adds (h : Run.Adds P r r') : Does (fun new => ∀ m ∈ new, P m) r r' := h

theorem of_shows (h : Run.Shows P r r') : Does (fun new => ∃ m ∈ new, P m) r r' := h

/-- There is only one thing that was done. -/
theorem holds {new : List (Moment ω)} (h : Does C r r') (hnew : r'.trace = new ++ r.trace) : C new := by
  obtain ⟨new', hnew', hC⟩ := h
  obtain rfl : new' = new := List.append_cancel_right (hnew'.symm.trans hnew)
  exact hC

theorem and_adds (h : Does C r r') (h' : Run.Adds P r r') : Does (fun new => C new ∧ ∀ m ∈ new, P m) r r' := by
  obtain ⟨new, htrace, hC⟩ := h
  exact ⟨new, htrace, hC, (of_adds h').holds htrace⟩

end Run.Does

theorem Run.Shows.does {P Q : Moment ω → Prop} (h : Run.Shows P r r') (h' : Run.Adds Q r r') :
    Run.Does (fun new => (∀ m ∈ new, Q m) ∧ ∃ m ∈ new, P m) r r' := by
  obtain ⟨new, htrace, m, hm, hp⟩ := h
  exact (Run.Does.and_adds (C := fun new => ∃ m ∈ new, P m) ⟨new, htrace, m, hm, hp⟩ h').mono fun _ h => ⟨h.2, h.1⟩

/-! ## Stretches without news -/

/-- The download of `root` stays as it is. -/
structure Stays (root : RootId) (r r' : Run ω) : Prop where
  aside : Run.Adds (Moment.Aside root) r r'
  opened : r'.state.opened = r.state.opened
  runs : ∀ session, r'.state.Runs root session ↔ r.state.Runs root session

/-- Afterwards `root` is not in flight, of which there was no news. -/
structure Gone (root : RootId) (r r' : Run ω) : Prop where
  aside : Run.Adds (Moment.Aside root) r r'
  opened : r'.state.opened = r.state.opened
  out : ¬ r'.state.InFlight root

/-- The download of `root` stays as it is, or it ends because a call was refused. -/
inductive Loses (root : RootId) (r r' : Run ω) : Prop
  | stays : Stays root r r' → Loses root r r'
  | denied : Gone root r r' → r.state.InFlight root → Run.Shows (Moment.Denies root) r r' → Loses root r r'

namespace Stays

theorem of_roots (ha : Run.Adds (Moment.Aside root) r r') (ho : r'.state.opened = r.state.opened)
    (hr : r'.state.roots = r.state.roots) : Stays root r r' := by
  refine ⟨ha, ho, ?_⟩
  intro session
  rw [State.Runs, State.Runs, hr]

theorem refl (root : RootId) (r : Run ω) : Stays root r r := .of_roots (.refl rfl) rfl rfl

theorem unopened (h : Stays root r r') : Run.Adds (¬ ·.Opens) r r' := h.aside.mono fun _ h => h.unopened

theorem trans (h : Stays root r r') (h' : Stays root r' r'') : Stays root r r'' :=
  ⟨h.aside.trans h'.aside, h'.opened.trans h.opened, fun session => (h'.runs session).trans (h.runs session)⟩

theorem inFlight_iff (h : Stays root r r') : r'.state.InFlight root ↔ r.state.InFlight root := by
  rw [State.inFlight_iff, State.inFlight_iff]
  exact exists_congr h.runs

theorem log (root : RootId) (r : Run ω) (entry : LogEntry) : Stays root r (r.log entry) :=
  .of_roots (.emit (Moment.aside_logged ⟨entry, rfl⟩)) rfl rfl

theorem logAll (root : RootId) (r : Run ω) (entries : List LogEntry) : Stays root r (r.logAll entries) := by
  refine .of_roots (.logAll entries fun entry => Moment.aside_logged ⟨entry, rfl⟩) ?_ ?_ <;> rw [Run.logAll_state]

theorem call (root : RootId) {α : Type} (r : Run ω) (f : ω → α × ω) : Stays root r (r.call f).2 :=
  .of_roots (.refl rfl) rfl rfl

theorem notify (r : Run ω) {update : Update} (h : update.root ≠ root) : Stays root r (r.notify update) :=
  .of_roots (.emit (Moment.aside_notified rfl h)) rfl rfl

end Stays

namespace Gone

theorem unopened (h : Gone root r r') : Run.Adds (¬ ·.Opens) r r' := h.aside.mono fun _ h => h.unopened

theorem later (h : Gone root r r') (h' : Stays root r' r'') : Gone root r r'' :=
  ⟨h.aside.trans h'.aside, h'.opened.trans h.opened, fun hin => h.out (h'.inFlight_iff.1 hin)⟩

theorem earlier (h : Stays root r r') (h' : Gone root r' r'') : Gone root r r'' :=
  ⟨h.aside.trans h'.aside, h'.opened.trans h.opened, h'.out⟩

/-- What was not in flight before stays so. -/
theorem stays (h : Gone root r r') (hn : ¬ r.state.InFlight root) : Stays root r r' := by
  refine ⟨h.aside, h.opened, ?_⟩
  intro session
  constructor
  · intro hruns
    exact absurd (State.inFlight_iff.2 ⟨session, hruns⟩) h.out
  · intro hruns
    exact absurd (State.inFlight_iff.2 ⟨session, hruns⟩) hn

end Gone

namespace Loses

/-- What is in flight afterwards was so before. -/
theorem inFlight (h : Loses root r r') (hin : r'.state.InFlight root) : r.state.InFlight root := by
  cases h with
  | stays h => exact h.inFlight_iff.1 hin
  | denied h => exact absurd hin h.out

/-- What is not in flight stays so. -/
theorem stays_of_out (h : Loses root r r') (hn : ¬ r.state.InFlight root) : Stays root r r' := by
  cases h with
  | stays h => exact h
  | denied h => exact h.stays hn

theorem trans (h : Loses root r r') (h' : Loses root r' r'') : Loses root r r'' := by
  cases h with
  | stays h =>
    cases h' with
    | stays h' => exact .stays (h.trans h')
    | denied h' hin hd => exact .denied (.earlier h h') (h.inFlight_iff.1 hin) (.earlier h.aside hd)
  | denied h hin hd =>
    have h' := h'.stays_of_out h.out
    exact .denied (h.later h') hin (hd.later h'.aside)

/-- A root that goes out of flight has a call refused that listed what it waited for. -/
theorem of_gone (h : Gone root r r') (hd : r.state.InFlight root → Run.Shows (Moment.Denies root) r r') :
    Loses root r r' := by
  by_cases hin : r.state.InFlight root
  · exact .denied h hin (hd hin)
  · exact .stays (h.stays hin)

end Loses

/-! ## Ending downloads -/

theorem dismiss_aside (root other : RootId) (d : Download) (r : Run ω) :
    Run.Adds (Moment.Aside root) r (dismiss other d r) :=
  dismiss_adds _ _ _ (Moment.aside_of rfl (by simp) (by simp))

theorem dismiss_gone (root : RootId) (d : Download) (r : Run ω) : Gone root r (dismiss root d r) := by
  refine ⟨dismiss_aside root root d r, rfl, ?_⟩
  rw [State.not_inFlight_iff, dismiss_roots, Table.get?_erase, if_pos rfl]

theorem dismiss_stays (h : other ≠ root) (d : Download) (r : Run ω) : Stays root r (dismiss other d r) := by
  refine ⟨dismiss_aside root other d r, rfl, ?_⟩
  intro session
  rw [State.Runs, State.Runs, dismiss_roots, Table.get?_erase, if_neg h]

theorem release_gone (W : World ω) (root : RootId) (r : Run ω) : Gone root r (release W root r).2 := by
  unfold release
  split
  · next hn => exact ⟨.refl rfl, rfl, State.not_inFlight_iff.2 hn⟩
  · next d _ => exact (dismiss_gone root d r).later (.call root _ _)

theorem release_stays (W : World ω) (h : other ≠ root) (r : Run ω) : Stays root r (release W other r).2 := by
  unfold release
  split
  · exact .refl root r
  · next d _ => exact (dismiss_stays h d r).trans (.call root _ _)

theorem releaseAll_stays (W : World ω) {roots : List RootId} (h : root ∉ roots) (r : Run ω) :
    Stays root r (releaseAll W roots r).2 := by
  induction roots generalizing r with
  | nil => exact .refl root r
  | cons other roots ih =>
    rw [List.mem_cons, not_or] at h
    exact (release_stays W (Ne.symm h.1) r).trans (ih h.2 _)

theorem releaseAll_gone (W : World ω) {roots : List RootId} (h : root ∈ roots) (r : Run ω) :
    Gone root r (releaseAll W roots r).2 := by
  induction roots generalizing r with
  | nil => cases h
  | cons other roots ih =>
    by_cases hm : root ∈ roots
    · by_cases heq : other = root
      · subst heq
        have hgone := release_gone W other r
        exact hgone.later ((ih hm _).stays hgone.out)
      · exact .earlier (release_stays W heq r) (ih hm _)
    · obtain rfl : root = other := (List.mem_cons.1 h).resolve_right hm
      exact (release_gone W root r).later (releaseAll_stays W hm _)

theorem mem_interested_iff {pending : PendingIndex} {blocks : List BlockId} :
    root ∈ interested pending blocks ↔ ∃ id ∈ blocks, root ∈ Table.keys ((pending.get? id).getD []) := by
  unfold interested
  rw [List.mem_eraseDups, List.mem_flatMap]

/-- Asking for blocks ends a download only where a call is refused that lists what the root waits for. -/
theorem fetchWithin_loses (W : World ω) (root : RootId) (fuel : Nat) (blocks : List BlockId) (r : Run ω) :
    Loses root r (fetchWithin W fuel blocks r) := by
  induction fuel generalizing blocks r with
  | zero => exact .stays (.refl root r)
  | succ fuel ih =>
    rw [fetchWithin]
    have harranged : Stays root r (r.call (W.arrange (interested r.state.pending blocks))).2 := .call root _ _
    have hperm := W.arrange_perm (interested r.state.pending blocks) r.world
    have hstate := Run.call_state r (W.arrange (interested r.state.pending blocks))
    rw [← Run.call_fst] at hperm
    rcases hc₀ : r.call (W.arrange (interested r.state.pending blocks)) with ⟨roots, r₀⟩
    rw [hc₀] at harranged hperm hstate
    dsimp only at harranged hperm hstate ⊢
    rw [← hstate] at hperm
    refine Loses.trans (.stays harranged) ?_
    split
    · exact .stays (.log root r₀ _)
    · next d _ =>
      have hasked : Stays root r₀ (r₀.fetch W d.session blocks).2 :=
        .of_roots (.cons rfl (Moment.aside_of rfl (by simp) (by simp))) rfl rfl
      -- where the call was refused, it denied all that waited for its blocks
      have hrefused : ∀ e, (r₀.fetch W d.session blocks).1 = .error e → root ∈ roots →
          Run.Shows (Moment.Denies root) r₀ (r₀.fetch W d.session blocks).2 := by
        intro e he hm
        refine ⟨[_], rfl, _, List.mem_singleton_self _, _, e, rfl, he, ?_⟩
        exact mem_interested_iff.1 (hperm.mem_iff.1 hm)
      rcases hc : r₀.fetch W d.session blocks with ⟨outcome, r₁⟩
      rw [hc] at hasked hrefused
      dsimp only at hasked hrefused ⊢
      cases outcome with
      | ok _ => exact .stays hasked
      | error e =>
        have hlogged : Stays root r₁ (r₁.log (.fetchFailed blocks.length roots.length e)) := .log root r₁ _
        have hreleased : Loses root r₀
            (releaseAll W roots (r₁.log (.fetchFailed blocks.length roots.length e))).2 := by
          by_cases hm : root ∈ roots
          · have hgone := releaseAll_gone W hm (r₁.log (.fetchFailed blocks.length roots.length e))
            refine .of_gone (.earlier (hasked.trans hlogged) hgone) ?_
            intro _
            exact (hrefused e rfl hm).later (hlogged.aside.trans hgone.aside)
          · exact .stays (hasked.trans (hlogged.trans (releaseAll_stays W hm _)))
        dsimp only
        rcases hc₂ : releaseAll W roots (r₁.log (.fetchFailed blocks.length roots.length e)) with ⟨left, r₂⟩
        rw [hc₂] at hreleased
        dsimp only at hreleased ⊢
        refine hreleased.trans ?_
        split
        · exact .stays (.refl root r₂)
        · exact ih _ _

theorem fetch_loses (W : World ω) (root : RootId) (blocks : List BlockId) (r : Run ω) :
    Loses root r (fetch W blocks r) :=
  fetchWithin_loses W root _ blocks r

theorem refetch_loses (W : World ω) (root : RootId) (blocks : List BlockId) (r : Run ω) :
    Loses root r (refetch W blocks r) := by
  unfold refetch
  dsimp only
  split
  · exact .stays (.refl root r)
  · exact fetch_loses W root _ r

theorem free_loses (W : World ω) (h : other ≠ root) (r : Run ω) : Loses root r (free W other r).2 := by
  have hrel := release_stays W h r
  unfold free
  rcases hc : release W other r with ⟨answer, r₁⟩
  rw [hc] at hrel
  cases answer with
  | none => exact .stays hrel
  | some left => exact Loses.trans (.stays hrel) (refetch_loses W root left r₁)

/-- Ending a download is no news by itself, and says whether the root was in flight. -/
theorem free_gone (W : World ω) (root : RootId) (r : Run ω) :
    Gone root r (free W root r).2 ∧ ((free W root r).1 = true ↔ r.state.InFlight root) := by
  have hrel := release_gone W root r
  unfold free
  rcases hc : release W root r with ⟨answer, r₁⟩
  rw [hc] at hrel
  have hanswer : answer.isSome = true ↔ r.state.InFlight root := by
    rw [State.InFlight, Table.has_iff_get?]
    unfold release at hc
    split at hc
    · next hn =>
      rw [hn]
      cases hc
      rfl
    · next d hd =>
      rw [hd]
      cases hc
      rfl
  cases answer with
  | none => exact ⟨hrel, by simpa using hanswer⟩
  | some left =>
    have hrest := (refetch_loses W root left r₁).stays_of_out hrel.out
    exact ⟨hrel.later hrest, by simpa using hanswer⟩

/-! ## Endings -/

/-- Why the download of `root` ended in a stretch that did `new`, and what was reported of it. A root
that was judged malformed is reported as broken, unless a call is refused afterwards. -/
inductive Ending (root : RootId) (new : List (Moment ω)) : Prop
  | completed : newsOf root new = [.added root] → (∃ m ∈ new, m.Completes root) → (∀ m ∈ new, ¬ m.Dooms root) →
      Ending root new
  | malformed : newsOf root new = [.broken root] → (∃ m ∈ new, m.Dooms root) → Ending root new
  | refused (later : List (Moment ω)) (m : Moment ω) (earlier : List (Moment ω)) : newsOf root new = [] →
      new = later ++ m :: earlier → m.Denies root → (∀ m ∈ later, ¬ m.Dooms root) → Ending root new

namespace Ending

variable {new more : List (Moment ω)}

theorem later (h : Ending root new) (hmore : ∀ m ∈ more, m.Aside root) : Ending root (more ++ new) := by
  have hnews : newsOf root (more ++ new) = newsOf root new := newsOf_aside_append hmore
  have hundoomed := undoomed_of_aside hmore
  cases h with
  | completed hn hc hd =>
    obtain ⟨m, hm, hc⟩ := hc
    exact .completed (hnews.trans hn) ⟨m, List.mem_append_right _ hm, hc⟩ (List.forall_mem_append.2 ⟨hundoomed, hd⟩)
  | malformed hn hd =>
    obtain ⟨m, hm, hd⟩ := hd
    exact .malformed (hnews.trans hn) ⟨m, List.mem_append_right _ hm, hd⟩
  | refused later m earlier hn heq hdenied hd =>
    refine .refused (more ++ later) m earlier (hnews.trans hn) ?_ hdenied (List.forall_mem_append.2 ⟨hundoomed, hd⟩)
    rw [heq, List.append_assoc]

/-- What came before plays no part if it was no news and doomed nobody. -/
theorem earlier (h : Ending root new) (hnone : newsOf root more = []) (hmore : ∀ m ∈ more, ¬ m.Dooms root) :
    Ending root (new ++ more) := by
  have hnews : newsOf root (new ++ more) = newsOf root new := by rw [newsOf_append, hnone, List.append_nil]
  cases h with
  | completed hn hc hd =>
    obtain ⟨m, hm, hc⟩ := hc
    exact .completed (hnews.trans hn) ⟨m, List.mem_append_left _ hm, hc⟩ (List.forall_mem_append.2 ⟨hd, hmore⟩)
  | malformed hn hd =>
    obtain ⟨m, hm, hd⟩ := hd
    exact .malformed (hnews.trans hn) ⟨m, List.mem_append_left _ hm, hd⟩
  | refused later m earlier hn heq hdenied hd =>
    refine .refused later m (earlier ++ more) (hnews.trans hn) ?_ hdenied hd
    rw [heq, List.append_assoc, List.cons_append]

end Ending

/-- The download of `root` ends. -/
structure Departs (root : RootId) (r r' : Run ω) : Prop where
  ending : Run.Does (Ending root) r r'
  unopened : Run.Adds (¬ ·.Opens) r r'
  opened : r'.state.opened = r.state.opened
  before : r.state.InFlight root
  after : ¬ r'.state.InFlight root

/-- What a stretch of a run makes of `root`. -/
inductive Passes (root : RootId) (r r' : Run ω) : Prop
  | stays : Stays root r r' → Passes root r r'
  | departs : Departs root r r' → Passes root r r'

namespace Departs

theorem later (h : Departs root r r') (h' : Stays root r' r'') : Departs root r r'' where
  ending := h.ending.trans (.of_adds h'.aside) fun _ _ h hmore => h.later hmore
  unopened := h.unopened.trans h'.unopened
  opened := h'.opened.trans h.opened
  before := h.before
  after hin := h.after (h'.inFlight_iff.1 hin)

theorem earlier (h : Stays root r r') (h' : Departs root r' r'') : Departs root r r'' where
  ending := (Run.Does.of_adds h.aside).trans h'.ending fun _ _ hmore h =>
    h.earlier (newsOf_aside hmore) (undoomed_of_aside hmore)
  unopened := h.unopened.trans h'.unopened
  opened := h'.opened.trans h.opened
  before := h.inFlight_iff.1 h'.before
  after := h'.after

end Departs

namespace Passes

theorem trans (h : Passes root r r') (h' : Passes root r' r'') : Passes root r r'' := by
  cases h with
  | stays h =>
    cases h' with
    | stays h' => exact .stays (h.trans h')
    | departs h' => exact .departs (.earlier h h')
  | departs h =>
    cases h' with
    | stays h' => exact .departs (h.later h')
    | departs h' => exact absurd h'.before h.after

end Passes

theorem Loses.passes (h : Loses root r r') : Passes root r r' := by
  cases h with
  | stays h => exact .stays h
  | denied h hin hd =>
    refine .departs ⟨(hd.does h.aside).mono ?_, h.unopened, h.opened, hin, h.out⟩
    rintro new ⟨haside, m, hm, hdenied⟩
    obtain ⟨later, earlier, rfl⟩ := List.append_of_mem hm
    have hlater := (List.forall_mem_append.1 haside).1
    exact .refused later m earlier (newsOf_aside haside) rfl hdenied (undoomed_of_aside hlater)

/-! ## Completing -/

theorem mark_stays (W : World ω) (root other : RootId) (r : Run ω) : Stays root r (mark W other r) := by
  refine .of_roots ?_ (by rw [mark_state]) (by rw [mark_state])
  exact mark_adds other r W (Moment.aside_of rfl (by simp) (by simp)) fun _ => Moment.aside_logged ⟨_, rfl⟩

theorem complete_loses (W : World ω) (h : other ≠ root) (r : Run ω) : Loses root r (complete W other r) := by
  have hfreed := free_loses W h (mark W other r)
  refine Loses.trans (.stays (mark_stays W root other r)) (hfreed.trans (.stays ?_))
  exact (Stays.log root _ _).trans (.notify _ h)

/-- News of a root are reported once, doom nobody, and open no session. -/
theorem notify_does (root : RootId) (r : Run ω) {update : Update} (h : update.root = root) :
    Run.Does (fun new => newsOf root new = [update] ∧ ∀ m ∈ new, ¬ m.Dooms root) r (r.notify update) ∧
      Run.Adds (¬ ·.Opens) r (r.notify update) := by
  constructor
  · refine .emit ⟨?_, ?_⟩
    · have hnews : Effect.newsOf? root (.notified update) = some update := if_pos h
      simp only [newsOf, List.filterMap_cons, List.filterMap_nil, hnews]
    · intro m hm
      rw [List.mem_singleton.1 hm]
      rintro ⟨⟨_, _, _, _, hj, -⟩, -⟩
      cases hj
  · refine .emit ?_
    rintro ⟨_, _, _, ho⟩
    cases ho

/-- A root that waits for nothing is completed, which is news of it. -/
theorem complete_departs {d : Download} (hd : r.state.roots.get? root = some d) (hc : d.Complete) :
    Departs root r (complete W root r) := by
  have hmarked : Run.Shows (Moment.Completes root) r (mark W root r) := by
    obtain ⟨more, htrace, -⟩ := mark_trace root r W
    exact ⟨_, htrace.trans (List.append_cons _ _ _), _, List.mem_append_right _ (List.mem_singleton_self _),
      _, d, rfl, hd, hc⟩
  have hfreed := (free_gone W root (mark W root r)).1
  have hgone : Gone root r ((free W root (mark W root r)).2.log (.completed root)) :=
    .later (.earlier (mark_stays W root root r) hfreed) (.log root _ _)
  have hdone := hmarked.later (hfreed.aside.trans (Stays.log root _ (.completed root)).aside)
  obtain ⟨hnews, hunopened⟩ := notify_does root ((free W root (mark W root r)).2.log (.completed root))
    (show (Update.added root).root = root from rfl)
  constructor
  · refine (hdone.does hgone.aside).trans hnews ?_
    rintro new new' ⟨haside, m, hm, hdone⟩ ⟨hnews, hspared⟩
    exact .completed ((newsOf_append_aside haside).trans hnews) ⟨m, List.mem_append_right _ hm, hdone⟩
      (List.forall_mem_append.2 ⟨hspared, undoomed_of_aside haside⟩)
  · exact hgone.unopened.trans hunopened
  · exact hgone.opened
  · rw [State.InFlight, Table.has_iff_get?, hd]
    rfl
  · exact hgone.out

namespace Pass

theorem completeAll_passes (W : World ω) (root : RootId) (roots : List RootId) (r : Run ω) :
    Passes root r (completeAll W roots r) := by
  induction roots generalizing r with
  | nil => exact .stays (.refl root r)
  | cons other roots ih =>
    rw [completeAll]
    split
    · exact ih r
    · next d hd =>
      refine Passes.trans ?_ (ih _)
      split
      · next hc =>
        by_cases heq : other = root
        · subst heq
          exact .departs (complete_departs hd hc)
        · exact (complete_loses W heq r).passes
      · exact .stays (.refl root r)

theorem finish_passes (W : World ω) (root : RootId) (p : Pass) (r : Run ω) : Passes root r (p.finish W r) := by
  have hasked := (refetch_loses W root p.wanted r).passes
  have harranged : Stays root (refetch W p.wanted r) ((refetch W p.wanted r).call (W.arrange p.touched)).2 :=
    .call root _ _
  exact hasked.trans (.trans (.stays harranged) (completeAll_passes W root _ _))

end Pass

/-! ## Judging -/

theorem State.Tuned.runs_iff {s s' : State} (h : Tuned s s') {session : SessionId} :
    s'.Runs root session ↔ s.Runs root session := by
  constructor
  · intro hruns
    obtain ⟨d', hd', rfl⟩ := State.runs_iff.1 hruns
    obtain ⟨d, hd, -, hs, -⟩ := h.downloads hd'
    exact State.runs_iff.2 ⟨d, hd, hs.symm⟩
  · exact h.runs

theorem State.Tuned.inFlight_iff {s s' : State} (h : Tuned s s') : s'.InFlight root ↔ s.InFlight root := by
  rw [State.inFlight_iff, State.inFlight_iff]
  exact exists_congr fun _ => h.runs_iff

/-- A block is judged that dooms `root`, which is in flight, and of which there is no news yet. -/
structure Doomed (root : RootId) (r r' : Run ω) : Prop where
  shows : Run.Shows (Moment.Dooms root) r r'
  adds : Run.Adds (fun m => m.effect.newsOf? root = none ∧ ¬ m.Opens) r r'
  opened : r'.state.opened = r.state.opened
  before : r.state.InFlight root
  after : r'.state.InFlight root

/-- `root` goes out of flight with the news that it is broken, or since a call was refused. -/
structure Falls (root : RootId) (r r' : Run ω) : Prop where
  does : Run.Does (fun new => (∀ m ∈ new, ¬ m.Dooms root) ∧
    (newsOf root new = [.broken root] ∨ newsOf root new = [] ∧ ∃ m ∈ new, m.Denies root)) r r'
  unopened : Run.Adds (¬ ·.Opens) r r'
  opened : r'.state.opened = r.state.opened
  after : ¬ r'.state.InFlight root

namespace Falls

theorem denied (h : Gone root r r') (hd : Run.Shows (Moment.Denies root) r r') : Falls root r r' := by
  refine ⟨(hd.does h.aside).mono ?_, h.unopened, h.opened, h.out⟩
  rintro new ⟨haside, hdenied⟩
  exact ⟨undoomed_of_aside haside, .inr ⟨newsOf_aside haside, hdenied⟩⟩

/-- A root that went out of flight is reported. -/
theorem reported (h : Gone root r r') : Falls root r (r'.notify (.broken root)) := by
  obtain ⟨hnews, hunopened⟩ := notify_does root r' (show (Update.broken root).root = root from rfl)
  refine ⟨?_, h.unopened.trans hunopened, h.opened, h.out⟩
  refine (Run.Does.of_adds h.aside).trans hnews ?_
  rintro new new' haside ⟨hnews, hspared⟩
  constructor
  · exact List.forall_mem_append.2 ⟨hspared, undoomed_of_aside haside⟩
  · exact .inl ((newsOf_append_aside haside).trans hnews)

theorem earlier (h : Stays root r r') (h' : Falls root r' r'') : Falls root r r'' := by
  refine ⟨?_, h.unopened.trans h'.unopened, h'.opened.trans h.opened, h'.after⟩
  refine (Run.Does.of_adds h.aside).trans h'.does ?_
  rintro new new' haside ⟨hspared, hnews⟩
  constructor
  · exact List.forall_mem_append.2 ⟨hspared, undoomed_of_aside haside⟩
  · rw [newsOf_append_aside haside]
    refine hnews.imp_right (And.imp_right ?_)
    rintro ⟨m, hm, hd⟩
    exact ⟨m, List.mem_append_left _ hm, hd⟩

theorem later (h : Falls root r r') (h' : Stays root r' r'') : Falls root r r'' := by
  refine ⟨?_, h.unopened.trans h'.unopened, h'.opened.trans h.opened,
    fun hin => h.after (h'.inFlight_iff.1 hin)⟩
  refine h.does.trans (.of_adds h'.aside) ?_
  rintro new new' ⟨hspared, hnews⟩ haside
  constructor
  · exact List.forall_mem_append.2 ⟨undoomed_of_aside haside, hspared⟩
  · rw [newsOf_aside_append haside]
    refine hnews.imp_right (And.imp_right ?_)
    rintro ⟨m, hm, hd⟩
    exact ⟨m, List.mem_append_right _ hm, hd⟩

end Falls

/-- A root that is doomed and then given up ends its download. -/
theorem Doomed.departs (h : Doomed root r r') (h' : Falls root r' r'') : Departs root r r'' := by
  refine ⟨?_, (h.adds.mono fun _ h => h.2).trans h'.unopened, h'.opened.trans h.opened, h.before, h'.after⟩
  refine (h.shows.does h.adds).trans h'.does ?_
  rintro judged new ⟨hquiet, m, hm, hdooms⟩ ⟨hspared, hnews⟩
  have hnone : newsOf root judged = [] := List.filterMap_eq_nil_iff.2 fun m hm => (hquiet m hm).1
  have heq : newsOf root (new ++ judged) = newsOf root new := by rw [newsOf_append, hnone, List.append_nil]
  rcases hnews with hnews | ⟨hnews, m', hm', hdenied⟩
  · exact .malformed (heq.trans hnews) ⟨m, List.mem_append_right _ hm, hdooms⟩
  · obtain ⟨later, earlier, rfl⟩ := List.append_of_mem hm'
    refine .refused later m' (earlier ++ judged) (heq.trans hnews) ?_ hdenied ?_
    · rw [List.append_assoc, List.cons_append]
    · intro m hm
      exact hspared m (List.mem_append_left _ hm)

namespace Pass

/-- Judging a block dooms the roots in flight that it proves malformed, and leaves the downloads of the
others as they are. -/
theorem judge_dooms (W : World ω) (root : RootId) (rules : Rules) (a : Arrival) (awaiting : Awaiting) (p : Pass)
    (r : Run ω) :
    (r.state.InFlight root ∧ (∃ e, (root, e) ∈ (judge W rules a awaiting p r).1.malformed) →
      Doomed root r (judge W rules a awaiting p r).2.2) ∧
    (¬ (r.state.InFlight root ∧ ∃ e, (root, e) ∈ (judge W rules a awaiting p r).1.malformed) →
      Stays root r (judge W rules a awaiting p r).2.2) := by
  have htuned := judge_tuned W rules a awaiting p r
  have hadds := judge_adds W rules a awaiting p r
  have hshows := judge_shows W rules a awaiting p r
  generalize judge W rules a awaiting p r = result at *
  obtain ⟨verdict, p', r'⟩ := result
  dsimp only at *
  have hmoments : Run.Adds (fun m => (m.effect.newsOf? root = none ∧ ¬ m.Opens) ∧
      (m.Dooms root → r.state.InFlight root ∧ ∃ e, (root, e) ∈ verdict.malformed)) r r' := by
    refine hadds.mono ?_
    rintro m ⟨⟨entry, he⟩ | ⟨awaiting', he⟩, ht, -⟩
    · have haside : m.Aside root := Moment.aside_logged ⟨entry, he⟩
      exact ⟨⟨haside.news, haside.unopened⟩, fun hd => absurd hd haside.undoomed⟩
    · refine ⟨⟨by rw [he]; rfl, ?_⟩, ?_⟩
      · rintro ⟨_, _, _, ho⟩
        rw [he] at ho
        cases ho
      · rintro ⟨⟨_, _, _, e, hj, hm⟩, hin⟩
        rw [he] at hj
        cases hj
        exact ⟨ht.inFlight_iff.1 hin, e, hm⟩
  constructor
  · rintro ⟨hin, e, hm⟩
    refine ⟨(hshows.and_adds hadds).mono ?_, hmoments.mono fun _ h => h.1, htuned.opened, hin,
      htuned.inFlight_iff.2 hin⟩
    rintro m ⟨⟨awaiting', he⟩, -, ht, -⟩
    exact ⟨⟨_, _, _, e, he, hm⟩, ht.inFlight_iff.2 hin⟩
  · intro hspared
    refine ⟨hmoments.mono ?_, htuned.opened, fun _ => htuned.runs_iff⟩
    rintro m ⟨⟨hnews, hopens⟩, hdooms⟩
    exact ⟨hnews, fun hd => hspared (hdooms hd), hopens⟩

/-! ## Giving up -/

/-- Giving up others ends a download only where a call is refused that lists what its root waits for. -/
theorem abandonAll_loses (W : World ω) (id : BlockId) {doomed : List (RootId × FormatError)} {r : Run ω}
    (h : r.state.InFlight root → ∀ e, (root, e) ∉ doomed) : Loses root r (abandonAll W id doomed r) := by
  induction doomed generalizing r with
  | nil => exact .stays (.refl root r)
  | cons x doomed ih =>
    obtain ⟨other, e⟩ := x
    rw [abandonAll]
    have hlogged : Stays root r (r.log (.malformed other id e)) := .log root r _
    have hfreed : Loses root (r.log (.malformed other id e)) (free W other (r.log (.malformed other id e))).2 ∧
        (other = root → (free W other (r.log (.malformed other id e))).1 = false) := by
      by_cases heq : other = root
      · subst heq
        have hout : ¬ (r.log (.malformed other id e)).state.InFlight other := fun hin => h hin e List.mem_cons_self
        obtain ⟨hgone, htold⟩ := free_gone W other (r.log (.malformed other id e))
        exact ⟨.stays (hgone.stays hout), fun _ => Bool.eq_false_iff.2 fun ht => hout (htold.1 ht)⟩
      · exact ⟨free_loses W heq _, fun h => absurd h heq⟩
    rcases hc : free W other (r.log (.malformed other id e)) with ⟨inFlight, r₁⟩
    rw [hc] at hfreed
    dsimp only at hfreed ⊢
    have hnews : Stays root r₁ (if inFlight then r₁.notify (.broken other) else r₁) := by
      split
      · next ht =>
        refine .notify r₁ fun heq => ?_
        rw [hfreed.2 heq] at ht
        cases ht
      · exact .refl root r₁
    have hfirst := Loses.trans (.stays hlogged) (hfreed.1.trans (.stays hnews))
    refine hfirst.trans (ih ?_)
    intro hin e' hm
    exact h (hfirst.inFlight hin) e' (List.mem_cons_of_mem _ hm)

/-- A root in flight that is given up goes out of flight, which is news of it, unless a call was
refused before its turn. -/
theorem abandonAll_falls (W : World ω) (id : BlockId) {doomed : List (RootId × FormatError)} {r : Run ω}
    (hin : r.state.InFlight root) {e : FormatError} (hm : (root, e) ∈ doomed) :
    Falls root r (abandonAll W id doomed r) := by
  -- once the root is out of flight, the rest of the list is nothing to it
  have hrest : ∀ {r : Run ω} (doomed : List (RootId × FormatError)), ¬ r.state.InFlight root →
      Stays root r (abandonAll W id doomed r) := fun doomed hout =>
    (abandonAll_loses W id fun hin => absurd hin hout).stays_of_out hout
  induction doomed generalizing r with
  | nil => cases hm
  | cons x doomed ih =>
    obtain ⟨other, e'⟩ := x
    rw [abandonAll]
    have hlogged : Stays root r (r.log (.malformed other id e')) := .log root r _
    by_cases heq : other = root
    · subst heq
      obtain ⟨hgone, htold⟩ := free_gone W other (r.log (.malformed other id e'))
      rcases hc : free W other (r.log (.malformed other id e')) with ⟨inFlight, r₁⟩
      rw [hc] at hgone htold
      dsimp only at hgone htold ⊢
      rw [if_pos (htold.2 (hlogged.inFlight_iff.2 hin))]
      exact (Falls.reported (.earlier hlogged hgone)).later (hrest doomed hgone.out)
    · have hm : (root, e) ∈ doomed := by
        refine (List.mem_cons.1 hm).resolve_left ?_
        rintro heq'
        cases heq'
        exact heq rfl
      have hfreed := free_loses W heq (r.log (.malformed other id e'))
      rcases hc : free W other (r.log (.malformed other id e')) with ⟨inFlight, r₁⟩
      rw [hc] at hfreed
      dsimp only at hfreed ⊢
      have hnews : Stays root r₁ (if inFlight then r₁.notify (.broken other) else r₁) := by
        split
        · exact .notify r₁ heq
        · exact .refl root r₁
      cases Loses.trans (.stays hlogged) (hfreed.trans (.stays hnews)) with
      | stays hfirst => exact .earlier hfirst (ih (hfirst.inFlight_iff.2 hin) hm)
      | denied hfirst _ hshows => exact (Falls.denied hfirst hshows).later (hrest doomed hfirst.out)

/-! ## A whole pass -/

theorem await_stays {child : Child} {d : Download} (root : RootId) (hd : r.state.roots.get? child.root = some d) :
    Stays root r (await child d r) := by
  refine ⟨await_adds _ _ _ (Moment.aside_of rfl (by simp) (by simp)), rfl, ?_⟩
  intro session
  rw [State.Runs, State.Runs, await_roots, Table.get?_insert]
  split
  · next heq =>
    rw [← heq, hd]
    rfl
  · rfl

theorem expand_stays (W : World ω) (root : RootId) (child : Child) (p : Pass) (r : Run ω) :
    Stays root r (expand W child p r).2 := by
  unfold expand
  split
  · exact .refl root r
  · next d hd =>
    have hawait := await_stays root hd
    dsimp only
    split
    · exact hawait
    · have hlooked : Stays root (await child d r) ((await child d r).call (W.view child.id)).2 := .call root _ _
      rcases hc : (await child d r).call (W.view child.id) with ⟨outcome, r₁⟩
      rw [hc] at hlooked
      rcases outcome with (e | raw)
      · cases e with
        | notFound id => exact hawait.trans hlooked
        | statusConflict | backend => exact hawait.trans (hlooked.trans (.log root r₁ _))
      · exact hawait.trans hlooked

theorem expandAll_stays (W : World ω) (root : RootId) (children : List Child) (p : Pass) (r : Run ω) :
    Stays root r (expandAll W children p r).2 := by
  induction children generalizing p r with
  | nil => exact .refl root r
  | cons child children ih => exact (expand_stays W root child p r).trans (ih _ _)

/-- Handling a block ends the downloads of the roots that it proves malformed, and another only where a
call is refused. -/
theorem handle_passes (W : World ω) (root : RootId) (rules : Rules) (a : Arrival) (awaiting : Awaiting) (p : Pass)
    (r : Run ω) : Passes root r (handle W rules a awaiting p r).2 := by
  obtain ⟨hdoomed, hspared⟩ := judge_dooms W root rules a awaiting p r
  unfold handle
  rcases hj : judge W rules a awaiting p r with ⟨verdict, p₁, r₁⟩
  rw [hj] at hdoomed hspared
  dsimp only at hdoomed hspared ⊢
  have hperm := W.arrange_perm verdict.malformed r₁.world
  have harranged : Stays root r₁ (r₁.call (W.arrange verdict.malformed)).2 := .call root _ _
  rw [← Run.call_fst] at hperm
  rcases hc : r₁.call (W.arrange verdict.malformed) with ⟨doomed, r₂⟩
  rw [hc] at hperm harranged
  dsimp only at hperm harranged ⊢
  have hexpanded := expandAll_stays W root verdict.children p₁ (abandonAll W a.id doomed r₂)
  by_cases hd : r.state.InFlight root ∧ ∃ e, (root, e) ∈ verdict.malformed
  · obtain ⟨e, hm⟩ := hd.2
    have hfalls := abandonAll_falls W a.id (harranged.inFlight_iff.2 (hdoomed hd).after) (hperm.mem_iff.2 hm)
    exact .departs ((hdoomed hd).departs ((Falls.earlier harranged hfalls).later hexpanded))
  · have hjudged := (hspared hd).trans harranged
    have hloses : Loses root r₂ (abandonAll W a.id doomed r₂) := by
      refine abandonAll_loses W a.id fun hin e hm => hd ⟨hjudged.inFlight_iff.1 hin, e, ?_⟩
      exact hperm.mem_iff.1 hm
    exact (Loses.trans (.stays hjudged) (hloses.trans (.stays hexpanded))).passes

theorem rounds_passes (W : World ω) (root : RootId) (rules : Rules) (fuel : Nat) (p : Pass) (r : Run ω) :
    Passes root r (p.rounds W rules fuel r).2 := by
  refine rounds_keep (C := fun _ r' => Passes root r r') ?_ ?_ fuel (.stays (.refl root r))
  · intro p r' queue h
    exact h
  · intro p r' a awaiting pending h
    have hset : Stays root r' (r'.setPending pending) := .of_roots (.refl rfl) rfl rfl
    exact h.trans (.trans (.stays hset) (handle_passes W root rules a awaiting p _))

end Pass

/-- A pass leaves a download as it is, or ends it once. -/
theorem process_passes (W : World ω) (root : RootId) (rules : Rules) (a : Arrival) (r : Run ω) :
    Passes root r (process W rules a r) :=
  (Pass.rounds_passes W root rules _ _ r).trans (Pass.finish_passes W root _ _)

/-! ## Events -/

theorem request_passes (W : World ω) (root other : RootId) (rules : Rules) (r : Run ω) :
    Passes root r (request W rules other r) := by
  have hlooked : Stays root r (r.call (W.view other)).2 := .call root _ _
  unfold request
  rcases hc : r.call (W.view other) with ⟨outcome, r₁⟩
  rw [hc] at hlooked
  rcases outcome with (e | raw)
  · cases e with
    | notFound id => exact (Loses.trans (.stays hlooked) (fetch_loses W root [other] r₁)).passes
    | statusConflict | backend =>
      exact (Loses.trans (.stays (hlooked.trans (.log root r₁ _))) (fetch_loses W root [other] _)).passes
  · exact .trans (.stays hlooked) (process_passes W root rules _ r₁)

theorem deliver_passes (W : World ω) (root : RootId) (rules : Rules) (id : BlockId) (raw : Bytes) (r : Run ω) :
    Passes root r (deliver W rules id raw r) := by
  unfold deliver
  split
  · exact process_passes W root rules _ r
  · exact .stays (.log root r _)

/-- A root that cannot be marked partial is reported only if it is full already. -/
theorem decline_stays (W : World ω) (root other : RootId) (r : Run ω)
    (h : other = root → (W.getStatus root r.world).1 ≠ .ok (some .full)) : Stays root r (decline W other r) := by
  have hasked : Stays root r (r.call (W.getStatus other)).2 := .call root _ _
  have hfst := Run.call_fst r (W.getStatus other)
  unfold decline
  rcases hc : r.call (W.getStatus other) with ⟨outcome, r₁⟩
  rw [hc] at hasked hfst
  dsimp only at hasked hfst
  rcases outcome with (e | _ | _ | _)
  · exact hasked.trans (.log root r₁ _)
  · exact hasked
  · exact hasked
  · refine hasked.trans (.notify r₁ ?_)
    rintro (rfl : other = root)
    exact h rfl hfst.symm

end BlockDag.Downloader
