/-
No alarm is ever given. The reports of something wrong in the downloader itself stand where a handler
finds what the books rule out, so none of them is made, at any time, whatever the store answers,
whatever the network refuses, and in the middle of a pass no less than between events.
-/
import BlockDag.Proofs.Malformed

namespace BlockDag.Downloader

variable {ω : Type} {W : World ω} {rules : Rules} {Delivers : Bytes → Prop} {world : ω}
variable {σ σ' : Stage} {r r' : Run ω}

/-- What is reported here, if anything, is no alarm. -/
def Moment.Calm (m : Moment ω) : Prop := ∀ entry, m.effect = .logged entry → ¬ entry.Alarm

theorem Moment.calm_of_not_logged {m : Moment ω} (h : ∀ entry, m.effect ≠ .logged entry) : m.Calm :=
  fun entry he => absurd he (h entry)

theorem Moment.calm_of_logged {m : Moment ω} {entry : LogEntry} (he : m.effect = .logged entry)
    (h : ¬ entry.Alarm) : m.Calm := by
  rintro entry' he'
  obtain rfl : entry = entry' := Effect.logged.inj (he.symm.trans he')
  exact h

/-- Judging a block that is awaited gives no alarm: each root that awaits it is in flight, has as many
positions outstanding, and has a shape unless this is its root block. -/
theorem Books.take_calm {a : Arrival} {awaiting : Awaiting} (hb : Books rules [] r.state)
    (ha : r.state.pending.get? a.id = some awaiting) (W : World ω) (p : Pass) :
    Run.Adds Moment.Calm r (Pass.take W rules a awaiting p r).2.2 := by
  obtain ⟨s, stored, htrace, hstored, -⟩ := hb.take_trace ha W p
  refine ⟨stored ++ [_], htrace.trans (List.append_cons _ _ _), ?_⟩
  intro m hm
  rcases List.mem_append.1 hm with hm | hm
  · obtain ⟨⟨e, he⟩, -⟩ := hstored m hm
    exact Moment.calm_of_logged he not_false
  · rw [List.mem_singleton.1 hm]
    exact Moment.calm_of_not_logged (by simp)

/-- No step gives an alarm. -/
theorem Step.calm (hb : Books rules σ.owed r.state) (hs : Step W rules σ r σ' r') : Run.Adds Moment.Calm r r' := by
  have hquiet : ∀ {e : Effect} {w : ω} {s : State}, (∀ entry, e ≠ .logged entry) → (⟨e, w, s⟩ : Moment ω).Calm :=
    fun h => Moment.calm_of_not_logged h
  cases hs with
  | logged entry hcalm => exact .emit (Moment.calm_of_logged rfl hcalm)
  | broke | finished => exact .emit (hquiet (by simp))
  | arranged | asked | refused | found | missed | discarded | orphaned | settled | spared => exact .refl rfl
  | announced => exact .trans (.refl rfl) (.emit (hquiet (by simp)))
  | judged a awaiting p ha => exact hb.take_calm ha W p
  | expanded => exact await_adds _ _ _ (hquiet (by simp))
  | released => exact dismiss_adds _ _ _ (hquiet (by simp))
  | fetched => exact .cons rfl (hquiet (by simp))
  | completed root =>
    refine (mark_adds _ _ W (hquiet (by simp)) fun e => ?_).trans (dismiss_adds _ _ _ (hquiet (by simp)))
    exact Moment.calm_of_logged rfl not_false

theorem Opening.calm (ho : Opening W Delivers r σ' r') : Run.Adds Moment.Calm r r' := by
  cases ho with
  | launched root tag timeout =>
    refine ⟨_, launch_trace _ _ _ _, ?_⟩
    intro m hm
    simp only [List.mem_cons, List.not_mem_nil, or_false] at hm
    rcases hm with rfl | rfl | rfl
    · exact Moment.calm_of_logged rfl not_false
    · exact Moment.calm_of_not_logged (by simp)
    · exact Moment.calm_of_not_logged (by simp)
  | delivered => exact .refl rfl

theorem Reached.calm (h : Reached W rules Delivers world σ r) : ∀ m ∈ r.trace, m.Calm := by
  induction h with
  | start => simp
  | opened _ ho ih => exact fun m hm => (ho.calm.mem hm).elim (ih m) id
  | step hr hs ih => exact fun m hm => ((hs.calm hr.books).mem hm).elim (ih m) id

/-- What a new downloader reports, one with a past reports too. -/
theorem Past.calm (past : Past ω) {m : Moment ω} (h : m.Calm) : (past.moment m).Calm := by
  intro entry he
  refine h entry ?_
  unfold Past.moment Past.effect at he
  split at he
  · cases he
  · cases he
  · cases he
  · exact he

/-- Over a whole lifetime, in any world, no alarm is given at any moment. -/
theorem never_alarmed (W : World ω) (rules : Rules) (commands : List Command) (world : ω) {m : Moment ω}
    (hm : m ∈ (lifetime W rules commands world).trace) {entry : LogEntry} (he : m.effect = .logged entry) :
    ¬ entry.Alarm := by
  have hcalm : ∀ m ∈ (lifetime W rules commands world).trace, m.Calm :=
    lifetime_trace (fun W events world => (history_reached W rules events world).calm) (fun past _ => past.calm) _ _
  exact hcalm m hm entry he

/-- The report that the effect is, if it is one. -/
def Effect.logged? : Effect → Option LogEntry
  | .logged entry => some entry
  | _ => none

theorem Effect.logged?_eq_some_iff {e : Effect} {entry : LogEntry} : e.logged? = some entry ↔ e = .logged entry := by
  cases e <;> simp [logged?]

/-- A block proves two roots malformed that wait for the same blocks, and asking again for what the
first one leaves behind fails, in the middle of the pass. -/
theorem never_alarmed_severed : ∃ m ∈ severed.trace, m.effect = .logged (.fetchFailed 1 1 (.transport "refused")) ∧
    ¬ (LogEntry.fetchFailed 1 1 (.transport "refused")).Alarm := by
  have hfailed : ∃ m ∈ severed.trace, m.effect.logged? = some (.fetchFailed 1 1 (.transport "refused")) := by
    decide +kernel
  obtain ⟨m, hm, he⟩ := hfailed
  rw [Effect.logged?_eq_some_iff] at he
  refine ⟨m, hm, he, ?_⟩
  unfold severed at hm
  exact never_alarmed (World.over MemoryStore.operations rationed) Sample.rules
    (_ ++ [.event (.delivered (.of stump) stump)]) (.empty, 3) (by rw [lifetime_append]; exact hm) he

end BlockDag.Downloader
