/-
Which steps report a root as added, mark it, or make it full. A root is marked, and gets full, when
it is in flight and waits for nothing; it is reported as added once it was marked, or if it is full
already.
-/
import BlockDag.Proofs.Memory

namespace BlockDag.Downloader

variable {ω : Type} {W : World ω} {rules : Rules} {Delivers : Bytes → Prop} {σ σ' : Stage} {r r' : Run ω}
variable {mem : ω → MemoryStore}

/-- The effect reports `root` as added, or marks it. -/
def Effect.Reports (e : Effect) (root : RootId) : Prop :=
  e = .notified (.added root) ∨ ∃ outcome, e = .marked root outcome

/-- The news that the effect is, if it is news. -/
def Effect.update? : Effect → Option Update
  | .notified update => some update
  | _ => none

/-- The last moment of a run whose last effect is news. -/
theorem Run.exists_last (update : Update) (h : (r.trace.head?.bind fun m => m.effect.update?) = some update) :
    ∃ m earlier, r.trace = m :: earlier ∧ m.effect = .notified update := by
  obtain ⟨m, hm, he⟩ := Option.bind_eq_some_iff.1 h
  obtain ⟨earlier, ht⟩ := List.head?_eq_some_iff.1 hm
  refine ⟨m, earlier, ht, ?_⟩
  unfold Effect.update? at he
  split at he
  · next heq =>
    rw [heq, Option.some.inj he]
  · cases he

/-- Nothing is reported or marked. -/
def Moment.Silent (m : Moment ω) : Prop := ∀ root, ¬ m.effect.Reports root

/-- Why a step at `σ` and `r` reports `root`, and the moment of it. -/
inductive Report (W : World ω) (σ : Stage) (r : Run ω) (root : RootId) : Moment ω → Prop
  /-- The store says that the root is full. -/
  | announced : (W.getStatus root r.world).1 = .ok (some .full) →
      Report W σ r root ⟨.notified (.added root), (W.getStatus root r.world).2, r.state⟩
  /-- The root is in flight and waits for nothing. -/
  | marked (w : List BlockId) (d : Download) : σ = ⟨[], [], w, [], []⟩ → r.state.roots.get? root = some d → d.Complete →
      Report W σ r root ⟨.marked root (W.setStatus root .full r.world).1, (W.setStatus root .full r.world).2, r.state⟩
  /-- The root was marked. -/
  | finished (m : Moment ω) (outcome : Except StoreError Unit) : m ∈ r.trace → m.effect = .marked root outcome →
      Report W σ r root ⟨.notified (.added root), r.world, r.state⟩

/-- A step reports one root or none. -/
theorem Step.report (hs : Step W rules σ r σ' r') : Run.Adds Moment.Silent r r' ∨
    ∃ root m, Report W σ r root m ∧ m.world = r'.world ∧
      Run.Adds Moment.Silent { r with trace := m :: r.trace } r' := by
  cases hs with
  | logged | broke => exact .inl (.emit (by simp [Moment.Silent, Effect.Reports, Update.added, Update.broken]))
  | expanded child d => exact .inl (await_adds _ _ _ (by simp [Moment.Silent, Effect.Reports]))
  | released root d => exact .inl (dismiss_adds _ _ _ (by simp [Moment.Silent, Effect.Reports]))
  | arranged | asked | refused | found | missed | discarded | orphaned | settled | spared => exact .inl (.refl rfl)
  | announced root hf => exact .inr ⟨root, _, .announced hf, rfl, .refl rfl⟩
  | judged a awaiting p =>
    refine .inl ((Pass.take_adds W rules a awaiting p r).mono ?_)
    rintro m ⟨⟨e, he⟩ | ⟨aw, he⟩, -⟩ root
    · simp [he, Effect.Reports]
    · simp [he, Effect.Reports]
  | fetched => exact .inl (.cons rfl (by simp [Moment.Silent, Effect.Reports]))
  | @completed w r root d hd hc =>
    obtain ⟨new, hn, hnew⟩ := mark_trace root r W
    rw [mark_world] at hn
    refine .inr ⟨root, _, .marked w d rfl hd hc, (mark_world root r W).symm, ?_⟩
    have hmark : Run.Adds Moment.Silent { r with trace := ⟨.marked root (W.setStatus root .full r.world).1,
        (W.setStatus root .full r.world).2, r.state⟩ :: r.trace } (mark W root r) := by
      refine ⟨new, hn, ?_⟩
      intro m hm root
      obtain ⟨⟨e, he⟩, -⟩ := hnew m hm
      simp [he, Effect.Reports]
    exact hmark.trans (dismiss_adds _ _ _ (by simp [Moment.Silent, Effect.Reports]))
  | finished root hm =>
    obtain ⟨m, hm, outcome, he⟩ := hm
    exact .inr ⟨root, _, .finished m outcome hm he, rfl, .refl rfl⟩

theorem Report.reports {root : RootId} {m : Moment ω} (h : Report W σ r root m) {other : RootId} :
    m.effect.Reports other ↔ other = root := by
  cases h <;> simp [Effect.Reports, Update.added, eq_comm]

/-- What a step adds to the trace is silent, or the report. -/
theorem Step.adds_report (hs : Step W rules σ r σ' r') :
    Run.Adds (fun m => ∀ root, m.effect.Reports root → Report W σ r root m ∧ m.world = r'.world) r r' := by
  rcases hs.report with hsilent | ⟨root, m, hr, hw, hsilent⟩
  · exact hsilent.mono fun m hm root he => absurd he (hm root)
  · refine .trans (.cons rfl ?_) (hsilent.mono fun m hm root he => absurd he (hm root))
    intro other he
    rw [hr.reports.1 he]
    exact ⟨hr, hw⟩

/-- A report is not part of a silent stretch. -/
theorem silent_split (h : Run.Adds Moment.Silent r r') {later earlier : List (Moment ω)} {m : Moment ω} {root : RootId}
    (ht : r'.trace = later ++ m :: earlier) (he : m.effect.Reports root) :
    ∃ later', r.trace = later' ++ m :: earlier := by
  obtain ⟨new, hn, hsilent⟩ := h
  rcases List.append_eq_append_iff.1 (hn.symm.trans ht) with ⟨l, -, hl⟩ | ⟨l, hl, hl'⟩
  · exact ⟨l, hl⟩
  · cases l with
    | nil => exact ⟨[], hl'.symm⟩
    | cons x l =>
      obtain ⟨rfl, -⟩ := List.cons.inj hl'
      exact absurd he (hsilent m (hl ▸ List.mem_append_right _ List.mem_cons_self) root)

/-- All that happened before a report happened before the step. -/
theorem Step.report_split (hs : Step W rules σ r σ' r') {later earlier : List (Moment ω)} {m : Moment ω}
    {root : RootId} (ht : r'.trace = later ++ m :: earlier) (he : m.effect.Reports root) :
    (∃ later', r.trace = later' ++ m :: earlier) ∨
      earlier = r.trace ∧ Report W σ r root m ∧ m.world = r'.world := by
  rcases hs.report with hsilent | ⟨other, m', hr, hw, hsilent⟩
  · exact .inl (silent_split hsilent ht he)
  · obtain ⟨later', hl⟩ := silent_split hsilent ht he
    cases later' with
    | nil =>
      obtain ⟨rfl, rfl⟩ := List.cons.inj hl
      rw [hr.reports.1 he]
      exact .inr ⟨rfl, hr, hw⟩
    | cons x later' => exact .inl ⟨later', (List.cons.inj hl).2⟩

/-- Opening an event reports no root. -/
theorem Opening.adds (ho : Opening W Delivers r σ' r') : Run.Adds Moment.Silent r r' := by
  cases ho with
  | launched root tag timeout => exact ⟨_, launch_trace _ _ _ _, by simp [Moment.Silent, Effect.Reports]⟩
  | delivered => exact .refl rfl

/-- A root gets full only when it is in flight and waits for nothing, by being marked. -/
theorem Step.full_cases (hm : W.MemoryLike mem) (hs : Step W rules σ r σ' r') {root : RootId}
    (hf : (mem r'.world).status root = some .full) : (mem r.world).status root = some .full ∨
      ∃ w d m, σ = ⟨[], [], w, [], []⟩ ∧ r.state.roots.get? root = some d ∧ d.Complete ∧
        m ∈ r'.trace ∧ m.effect = .marked root (.ok ()) := by
  cases hs with
  | logged | discarded | expanded | orphaned | settled | released | broke | spared | finished => exact .inl hf
  | arranged xs => rw [Run.call_world, hm.arrange_mem] at hf; exact .inl hf
  | asked other => rw [Run.call_world, hm.getStatus_mem] at hf; exact .inl hf
  | announced other => rw [Run.notify_world, Run.call_world, hm.getStatus_mem] at hf; exact .inl hf
  | refused other e he => rw [Run.call_world, hm.mem_setStatus_of_error he] at hf; exact .inl hf
  | found id | missed id => rw [Run.call_world, hm.view_mem] at hf; exact .inl hf
  | fetched => exact .inl ((congrArg (fun s => MemoryStore.status s root) (hm.fetch_mem _ _ _ _)).symm.trans hf)
  | judged a awaiting p =>
    rcases take_mem hm rules a awaiting p r with hw | ⟨-, hw⟩
    · rw [hw] at hf
      exact .inl hf
    · rw [hw, MemoryStore.status_put] at hf
      exact .inl hf
  | @completed w r other d hd hc =>
    rw [dismiss_world, mark_world] at hf
    by_cases hne : other = root
    · subst hne
      cases hout : (W.setStatus other .full r.world).1 with
      | ok _ =>
        obtain ⟨new, hn, -⟩ := mark_trace other r W
        refine .inr ⟨w, d, ⟨.marked other (.ok ()), (mark W other r).world, r.state⟩, rfl, hd, hc, ?_, rfl⟩
        refine List.mem_cons_of_mem _ ?_
        rw [hn, hout]
        exact List.mem_append_right _ List.mem_cons_self
      | error e =>
        rw [hm.mem_setStatus_of_error hout] at hf
        exact .inl hf
    · rw [hm.status_setStatus_of_ne hne] at hf
      exact .inl hf

/-- Opening an event makes no root full. -/
theorem Opening.full (hm : W.MemoryLike mem) (ho : Opening W Delivers r σ' r') {root : RootId}
    (hf : (mem r'.world).status root = some .full) : (mem r.world).status root = some .full := by
  cases ho with
  | launched other tag timeout hn hok =>
    rw [launch_world, Run.call_world] at hf
    by_cases hne : other = root
    · rw [← hne, hm.status_setStatus_of_ok hok] at hf
      cases hf
    · rw [hm.status_setStatus_of_ne hne] at hf
      exact hf
  | delivered => exact hf

end BlockDag.Downloader
