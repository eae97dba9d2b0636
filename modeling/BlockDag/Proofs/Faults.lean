/-
Soundness where single calls on the store fail. A completed root has every block of its tree in the
store, but for blocks that putting failed on, which is logged and nothing more; and it is full exactly
if marking it did not fail. It is reported as added all the same.
-/
import BlockDag.Proofs.Reports
import BlockDag.Proofs.Trees

namespace BlockDag.Downloader

variable {ω : Type} {W : World ω} {rules : Rules} {Delivers : Bytes → Prop} {world : ω} {mem : ω → MemoryStore}
variable {σ σ' : Stage} {r r' : Run ω} {s s' : MemoryStore} {trace trace' : List (Moment ω)} {root : RootId}

/-- Putting the block `id` failed. -/
def PutFailed (trace : List (Moment ω)) (id : BlockId) : Prop := ∃ m ∈ trace, ∃ e, m.effect = .logged (.notStored id e)

/-- The store has the bytes `raw` for `id`; or they have that name, and it has bytes for it unless
putting them failed. -/
def Kept (s : MemoryStore) (trace : List (Moment ω)) (id : BlockId) (raw : Bytes) : Prop :=
  s.view id = .ok raw ∨ id.Names raw ∧ (s.Holds id ∨ PutFailed trace id)

/-- The tree below `root` is kept, and its header is accepted. -/
def Covered (rules : Rules) (s : MemoryStore) (trace : List (Moment ω)) (root : RootId) : Prop :=
  ∃ (tag : DataTag) (t : Schema) (tree : Nat → NamedBlock), t.Laid tree ∧ (tree 0).1 = root ∧
    Judgement.rootSchema rules tag (Block.dataOf (tree 0).2) = .ok t ∧
    ∀ ix < t.totalBlocks, Kept s trace (tree ix).1 (tree ix).2

theorem Kept.mono (hle : s.Le s') (ht : ∀ m ∈ trace, m ∈ trace') {id : BlockId} {raw : Bytes}
    (h : Kept s trace id raw) : Kept s' trace' id raw := by
  rcases h with hv | ⟨hn, hh | ⟨m, hm, he⟩⟩
  · exact .inl (hle.view hv)
  · exact .inr ⟨hn, .inl (hle.holds hh)⟩
  · exact .inr ⟨hn, .inr ⟨m, ht m hm, he⟩⟩

theorem Covered.mono (hle : s.Le s') (ht : ∀ m ∈ trace, m ∈ trace') (h : Covered rules s trace root) :
    Covered rules s' trace' root := by
  obtain ⟨tag, t, tree, hlaid, h0, hroot, hkept⟩ := h
  exact ⟨tag, t, tree, hlaid, h0, hroot, fun ix hix => (hkept ix hix).mono hle ht⟩

/-- Judging logs a put that fails. -/
theorem judge_putFailed {a : Arrival} {awaiting : Awaiting} {p : Pass} {e : StoreError} (hc : a.received = true)
    (hv : (Pass.judge W rules a awaiting p r).1.validated ≠ [])
    (he : (W.put a.id a.raw (W.arrange awaiting r.world).2).1 = .error e) :
    PutFailed (Pass.judge W rules a awaiting p r).2.2.trace a.id := by
  -- storing is what the put is made for
  have hstore : ∀ r₀ : Run ω, (W.put a.id a.raw r₀.world).1 = .error e →
      PutFailed (Pass.store W a (Pass.judge W rules a awaiting p r).1 r₀).trace a.id := by
    intro r₀ he
    unfold Pass.store
    rw [if_pos ⟨hc, hv⟩]
    rw [← Run.call_fst] at he
    rcases hcall : r₀.call (W.put a.id a.raw) with ⟨outcome, r₁⟩
    rw [hcall] at he
    dsimp only at he
    rw [he]
    exact ⟨_, List.mem_cons_self, e, rfl⟩
  have hworld : ∀ entries, (((Pass.resolveAll (W.arrange awaiting r.world).1 p (r.call (W.arrange awaiting)).2).2.emit
      (.judged a.id (W.arrange awaiting r.world).1 (Pass.judge W rules a awaiting p r).1)).logAll entries).world =
        (W.arrange awaiting r.world).2 := by
    intro entries
    rw [Run.logAll_world, Run.emit_world, Pass.resolveAll_world, Run.call_world]
  obtain ⟨m, hm, hlog⟩ := hstore (((Pass.resolveAll (W.arrange awaiting r.world).1 p
    (r.call (W.arrange awaiting)).2).2.emit (.judged a.id (W.arrange awaiting r.world).1
      (Pass.judge W rules a awaiting p r).1)).logAll (Pass.judge W rules a awaiting p r).1.log)
        (by rw [hworld]; exact he)
  exact ⟨m, (Pass.assignAll_adds _ _).mem_of_mem hm, hlog⟩

/-- Blocks are kept, but for those that putting failed on. -/
theorem keeping_kept (hm : W.MemoryLike mem) (rules : Rules) (Delivers : Bytes → Prop) (world : ω) :
    Keeping W rules Delivers world fun r id raw => Kept (mem r.world) r.trace id raw where
  opened _ ho h := h.mono (ho.le hm) fun _ hmem => ho.adds.mem_of_mem hmem
  step _ hs h := h.mono (hs.le hm) fun _ hmem => hs.trace.mem_of_mem hmem
  judged := by
    intro q w r a awaiting p h ha hvalid
    have hstock := h.stock hm
    have hle := take_le hm rules a awaiting p r
    cases hc : a.received with
    | false => exact .inl (hle.view (hstock.resident a List.mem_cons_self hc))
    | true =>
      refine .inr ⟨(hstock.received a List.mem_cons_self hc).1, ?_⟩
      rcases hm.put a.id a.raw (W.arrange awaiting r.world).2 with
        ⟨-, hp⟩ | ⟨⟨causes, he⟩, -⟩
      · refine .inl ?_
        rw [Pass.take_world, if_pos ⟨hc, hvalid⟩, hp]
        exact MemoryStore.holds_put_iff.2 (.inr rfl)
      · exact .inr (judge_putFailed hc hvalid he)

/-! ## Reports -/

/-- A root is full exactly if it was at the start or was marked, and what was marked is covered. -/
structure Audit (rules : Rules) (mem : ω → MemoryStore) (start : MemoryStore) (r : Run ω) : Prop where
  full : ∀ {root}, (mem r.world).status root = some .full →
    start.status root = some .full ∨ ∃ m ∈ r.trace, m.effect = .marked root (.ok ())
  kept : start.Le (mem r.world)
  marked : ∀ {m root outcome}, m ∈ r.trace → m.effect = .marked root outcome →
    Covered rules (mem r.world) r.trace root ∧ (outcome = .ok () → (mem r.world).status root = some .full)

/-- What holds at a moment `m` that reports `root`, after all that happened `earlier`. -/
structure Reported (rules : Rules) (mem : ω → MemoryStore) (start : MemoryStore) (root : RootId)
    (earlier : List (Moment ω)) (m : Moment ω) : Prop where
  full : (mem m.world).status root = some .full ↔
    start.status root = some .full ∨ ∃ m' ∈ m :: earlier, m'.effect = .marked root (.ok ())
  covered : start.status root = some .full ∨ Covered rules (mem m.world) earlier root

section Step

variable {start : MemoryStore}

theorem Audit.opened (hm : W.MemoryLike mem) (h : Audit rules mem start r) (ho : Opening W Delivers r σ' r') :
    Audit rules mem start r' := by
  have hle := ho.le hm
  refine ⟨?_, h.kept.trans hle, ?_⟩
  · intro root hf
    refine (h.full (ho.full hm hf)).imp id ?_
    rintro ⟨m, hmem, he⟩
    exact ⟨m, ho.adds.mem_of_mem hmem, he⟩
  · intro m root outcome hmem he
    rcases ho.adds.mem hmem with hmem | hsilent
    · obtain ⟨hc, hf⟩ := h.marked hmem he
      exact ⟨hc.mono hle fun _ h => ho.adds.mem_of_mem h, fun ho => hle.full (hf ho)⟩
    · exact absurd (.inr ⟨outcome, he⟩) (hsilent root)

/-- A root that is marked is covered then. -/
theorem covered_of_complete (hm : W.MemoryLike mem) (hr : Reached W rules Delivers world σ r) {w : List BlockId}
    {d : Download} (hσ : σ = ⟨[], [], w, [], []⟩) (hd : r.state.roots.get? root = some d) (hc : d.Complete) :
    Covered rules (mem r.world) r.trace root := by
  subst hσ
  obtain ⟨t, tree, hlaid, h0, hroot, hkept⟩ := hr.exists_tree (keeping_kept hm rules Delivers world) hd hc
  exact ⟨d.tag, t, tree, hlaid, h0, hroot, hkept⟩

theorem Audit.step (hm : W.MemoryLike mem) (hr : Reached W rules Delivers world σ r) (h : Audit rules mem start r)
    (hs : Step W rules σ r σ' r') : Audit rules mem start r' := by
  have hle := hs.le hm
  have htrace : ∀ m ∈ r.trace, m ∈ r'.trace := fun m hmem => hs.trace.mem_of_mem hmem
  refine ⟨?_, h.kept.trans hle, ?_⟩
  · intro root hf
    rcases hs.full_cases hm hf with hf | ⟨-, -, m, -, -, -, hmem, he⟩
    · refine (h.full hf).imp id ?_
      rintro ⟨m, hmem, he⟩
      exact ⟨m, htrace m hmem, he⟩
    · exact .inr ⟨m, hmem, he⟩
  · intro m root outcome hmem he
    rcases hs.adds_report.mem hmem with hmem | hreport
    · obtain ⟨hc, hf⟩ := h.marked hmem he
      exact ⟨hc.mono hle htrace, fun ho => hle.full (hf ho)⟩
    · obtain ⟨hrep, hw⟩ := hreport root (.inr ⟨outcome, he⟩)
      rw [← hw]
      cases hrep with
      | announced => cases he
      | finished => cases he
      | marked w d hσ hd hc =>
        refine ⟨(covered_of_complete hm hr hσ hd hc).mono (hm.setStatus_le root .full r.world) htrace, ?_⟩
        intro ho
        rw [Effect.marked.injEq] at he
        exact hm.status_setStatus_of_ok (he.2.trans ho)

theorem Report.reported (hm : W.MemoryLike mem) (hr : Reached W rules Delivers world σ r) (h : Audit rules mem start r)
    {m : Moment ω} (hrep : Report W σ r root m) : Reported rules mem start root r.trace m := by
  -- where the store did not change, what was known before is enough
  have hsame : ∀ {m : Moment ω}, mem m.world = mem r.world → m.effect = .notified (.added root) →
      (start.status root = some .full ∨ ∃ m' ∈ r.trace, ∃ outcome, m'.effect = .marked root outcome) →
      Reported rules mem start root r.trace m := by
    intro m hw he hmarked
    constructor
    · rw [hw]
      constructor
      · intro hf
        refine (h.full hf).imp id ?_
        rintro ⟨m', hmem, he'⟩
        exact ⟨m', List.mem_cons_of_mem _ hmem, he'⟩
      · rintro (hf | ⟨m', hmem, he'⟩)
        · exact h.kept.full hf
        · rcases List.mem_cons.1 hmem with rfl | hmem
          · rw [he] at he'
            cases he'
          · exact (h.marked hmem he').2 rfl
    · refine hmarked.imp id ?_
      rintro ⟨m', hmem, outcome, he'⟩
      rw [hw]
      exact (h.marked hmem he').1
  cases hrep with
  | announced hf =>
    refine hsame (hm.getStatus_mem root r.world) rfl ((h.full (hm.status_of_ok hf)).imp id ?_)
    rintro ⟨m, hmem, he⟩
    exact ⟨m, hmem, _, he⟩
  | finished m' outcome hmem he => exact hsame rfl rfl (.inr ⟨m', hmem, outcome, he⟩)
  | marked w d hσ hd hc =>
    have hle := hm.setStatus_le root .full r.world
    refine ⟨?_, .inr ((covered_of_complete hm hr hσ hd hc).mono hle fun _ h => h)⟩
    constructor
    · intro hf
      cases hout : (W.setStatus root .full r.world).1 with
      | ok _ => exact .inr ⟨_, List.mem_cons_self, rfl⟩
      | error e =>
        dsimp only at hf
        rw [hm.mem_setStatus_of_error hout] at hf
        refine (h.full hf).imp id ?_
        rintro ⟨m', hmem, he'⟩
        exact ⟨m', List.mem_cons_of_mem _ hmem, he'⟩
    · rintro (hf | ⟨m', hmem, he'⟩)
      · exact hle.full (h.kept.full hf)
      · rcases List.mem_cons.1 hmem with rfl | hmem
        · rw [Effect.marked.injEq] at he'
          exact hm.status_setStatus_of_ok he'.2
        · exact hle.full ((h.marked hmem he').2 rfl)

end Step

theorem Reached.audit (hm : W.MemoryLike mem) (h : Reached W rules Delivers world σ r) :
    Audit rules mem (mem world) r := by
  induction h with
  | start => exact ⟨.inl, .refl _, by simp⟩
  | opened _ ho ih => exact ih.opened hm ho
  | step hr hs ih => exact ih.step hm hr hs

/-- Every report is as it should be, whatever was reported before. -/
theorem Reached.reported (hm : W.MemoryLike mem) (h : Reached W rules Delivers world σ r)
    {later earlier : List (Moment ω)} {m : Moment ω} (ht : r.trace = later ++ m :: earlier)
    (he : m.effect.Reports root) : Reported rules mem (mem world) root earlier m := by
  induction h generalizing later with
  | start => simp at ht
  | opened _ ho ih =>
    obtain ⟨later', hl⟩ := silent_split ho.adds ht he
    exact ih hl
  | step hr hs ih =>
    rcases hs.report_split ht he with ⟨later', hl⟩ | ⟨rfl, hrep, -⟩
    · exact ih hl
    · exact hrep.reported hm hr (hr.audit hm)

/-- Over a store in memory on which single calls may fail, a root that is reported as added, or moved to
full, is full then exactly if marking it succeeded; and every block of its tree is there, but for
those that putting failed on. Only roots that were full at the start are reported without that. -/
theorem reported_except_failed (hm : W.MemoryLike mem) (rules : Rules) (events : List Event) (world : ω)
    {later earlier : List (Moment ω)} {m : Moment ω} {root : RootId}
    (htrace : (history W rules events world).trace = later ++ m :: earlier)
    (hreport : m.effect = .notified (.added root) ∨ ∃ outcome, m.effect = .marked root outcome) :
    ((mem m.world).status root = some .full ↔
      (mem world).status root = some .full ∨ ∃ m' ∈ m :: earlier, m'.effect = .marked root (.ok ())) ∧
    ((mem world).status root = some .full ∨
      ∃ (tag : DataTag) (t : Schema) (tree : Nat → NamedBlock), t.Laid tree ∧ (tree 0).1 = root ∧
        Judgement.rootSchema rules tag (Block.dataOf (tree 0).2) = .ok t ∧
        ∀ ix < t.totalBlocks, (mem m.world).view (tree ix).1 = .ok (tree ix).2 ∨
          (tree ix).1.Names (tree ix).2 ∧ ((mem m.world).Holds (tree ix).1 ∨
            ∃ m' ∈ earlier, ∃ e, m'.effect = .logged (.notStored (tree ix).1 e))) := by
  have h := (history_reached W rules events world).reported hm htrace hreport
  exact ⟨h.full, h.covered⟩

/-- Marking the root fails, and so it is reported without being full. -/
theorem reported_except_failed_word : ∃ m earlier,
    (Sample.runWith [(.setFull, (Sample.blob Sample.word).root)] (Sample.download Sample.word)).trace =
      [] ++ m :: earlier ∧
    m.effect = .notified (.added (Sample.blob Sample.word).root) ∧
    (m.world.1.1.status (Sample.blob Sample.word).root = some .full ↔
      MemoryStore.empty.status (Sample.blob Sample.word).root = some .full ∨
        ∃ m' ∈ m :: earlier, m'.effect = .marked (Sample.blob Sample.word).root (.ok ())) ∧
    (MemoryStore.empty.status (Sample.blob Sample.word).root = some .full ∨
      ∃ (tag : DataTag) (t : Schema) (tree : Nat → NamedBlock), t.Laid tree ∧
        (tree 0).1 = (Sample.blob Sample.word).root ∧
        Judgement.rootSchema Sample.rules tag (Block.dataOf (tree 0).2) = .ok t ∧
        ∀ ix < t.totalBlocks, m.world.1.1.view (tree ix).1 = .ok (tree ix).2 ∨
          (tree ix).1.Names (tree ix).2 ∧ (m.world.1.1.Holds (tree ix).1 ∨
            ∃ m' ∈ earlier, ∃ e, m'.effect = .logged (.notStored (tree ix).1 e))) := by
  obtain ⟨m, earlier, ht, he⟩ : ∃ m earlier,
      (Sample.runWith [(.setFull, (Sample.blob Sample.word).root)] (Sample.download Sample.word)).trace =
        [] ++ m :: earlier ∧
      m.effect = .notified (.added (Sample.blob Sample.word).root) := Run.exists_last _ (by decide +kernel)
  exact ⟨m, earlier, ht, he, reported_except_failed (World.over_withFaults_memoryLike Simulation.Refusals.outside)
    Sample.rules (Sample.download Sample.word) ((.empty, [(.setFull, (Sample.blob Sample.word).root)]), Sample.network)
    ht (.inl he)⟩

/-- Putting the only block of a payload fails, and still its root is full and reported as added. -/
theorem added_without_block :
    (World.over MemoryStore.operations.withFaults Simulation.Refusals.outside).MemoryLike (fun w => w.1.1) ∧
    EncodedBlob.split Sample.rules.size .blockBody Sample.word = .ok (Sample.blob Sample.word) ∧
    (∃ m earlier,
      (Sample.runWith [(.put, (Sample.blob Sample.word).root)] (Sample.download Sample.word)).trace = m :: earlier ∧
      m.effect = .notified (.added (Sample.blob Sample.word).root)) ∧
    (Sample.runWith [(.put, (Sample.blob Sample.word).root)] (Sample.download Sample.word)).world.1.1.status
      (Sample.blob Sample.word).root = some .full ∧
    ∃ b ∈ (Sample.blob Sample.word).blocks,
      ¬ (Sample.runWith [(.put, (Sample.blob Sample.word).root)]
        (Sample.download Sample.word)).world.1.1.Holds b.1 := by
  exact ⟨World.over_withFaults_memoryLike _, Sample.split_eq (by decide +kernel), Run.exists_last _ (by decide +kernel),
    by decide +kernel, by decide +kernel⟩

end BlockDag.Downloader
