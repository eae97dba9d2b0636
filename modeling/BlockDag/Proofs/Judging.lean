/-
What judging a block does. The verdict depends on the roots' states before and on the block alone;
judging changes the downloads' states only, and for each root in flight it comes to one of three
cases: the root did not await the block, the block proves its tree malformed, or the block opens at
every position that awaited it and its children take their place.
-/
import BlockDag.Proofs.Growth
import BlockDag.Proofs.Pending
import BlockDag.Proofs.Run

namespace BlockDag

/-! ## Judgements -/

namespace Judgement

variable {rules : Rules} {size : Nat} {block : Block} {root : RootId} {d : Download} {positions : List Nat}

/-- The children that a judgement leads to. -/
def children : Judgement → List Child
  | .valid _ children => children
  | _ => []

/-- What a judgement finds wrong with the tree. -/
def error? : Judgement → Option FormatError
  | .malformed e => some e
  | _ => none

/-- The shape that a judgement gives to the tree. -/
def fresh : Judgement → Option Schema
  | .valid fresh _ => fresh
  | _ => none

theorem checkAll_eq_ok_iff {s : Schema} {links : Nat} :
    checkAll s size links positions = .ok () ↔ ∀ ix ∈ positions, s.check ix size links = .ok () := by
  induction positions with
  | nil => simp [checkAll]
  | cons ix positions ih =>
    rw [checkAll, List.forall_mem_cons, ← ih]
    cases h : s.check ix size links with
    | error e => simp [bind, Except.bind]
    | ok u => simp [bind, Except.bind]

/-- Positions that are resolved already play no part. -/
theorem ofBlock_resolve (parsed : Except FormatError Block) (state : Option Download) (n : Nat) :
    ofBlock rules size parsed root (state.map fun d => (d.resolve root n).2) positions =
      ofBlock rules size parsed root state positions := by
  cases state with
  | none => rfl
  | some d => rfl

theorem mem_childrenAt {links : List BlockId} {ix : Nat} {c : Child} :
    c ∈ childrenAt rules root links ix ↔
      c.root = root ∧ ∃ i, links[i]? = some c.id ∧ c.position = rules.layout.firstChild ix + i := by
  unfold childrenAt
  rw [List.mem_map]
  constructor
  · rintro ⟨⟨id, i⟩, hm, rfl⟩
    exact ⟨rfl, i, List.mem_zipIdx_iff_getElem?.1 hm, rfl⟩
  · rintro ⟨rfl, i, hi, hp⟩
    refine ⟨(c.id, i), List.mem_zipIdx_iff_getElem?.2 hi, ?_⟩
    dsimp only
    rw [← hp]

/-- Trees of the rules' block size are numbered by the rules' layout. -/
theorem layout_eq {s : Schema} (hs : s.size = rules.size) : rules.layout = s.layout := by
  unfold Rules.layout Schema.layout
  rw [hs]

/-- The children of a block that opens at a position are at the position's children. -/
theorem map_position_childrenAt {s : Schema} (hs : s.size = rules.size) {ix : Nat} {raw : Bytes}
    (ho : Join.openBlock s ix raw = .ok block) :
    (childrenAt rules root block.links ix).map Child.position = s.children ix := by
  unfold childrenAt Schema.children
  rw [layout_eq hs, ← Join.links_of_openBlock ho, List.map_map]
  apply List.ext_getElem
  · simp
  · intro i hi hi'
    simp

/-- The children at a position are what the block's links lead to. -/
theorem mem_childrenAt_iff_linked {s : Schema} (hs : s.size = rules.size) {links : List BlockId} {ix : Nat}
    {c : Child} : c ∈ childrenAt rules root links ix ↔
      c.root = root ∧ (c.position, c.id) ∈ Join.linked s ix links := by
  rw [mem_childrenAt, layout_eq hs]
  refine and_congr_right fun _ => ?_
  unfold Join.linked
  constructor
  · rintro ⟨i, hi, hp⟩
    rw [List.mem_iff_getElem?]
    refine ⟨i, ?_⟩
    obtain ⟨hlt, -⟩ := List.getElem?_eq_some_iff.1 hi
    rw [List.getElem?_zip_eq_some]
    refine ⟨?_, hi⟩
    rw [List.getElem?_range' hlt, hp, Nat.one_mul]
  · intro hm
    obtain ⟨i, hi⟩ := List.mem_iff_getElem?.1 hm
    obtain ⟨hp, hl⟩ := List.getElem?_zip_eq_some.1 hi
    obtain ⟨hlt, -⟩ := List.getElem?_eq_some_iff.1 hl
    rw [List.getElem?_range' hlt, Nat.one_mul, Option.some.injEq] at hp
    exact ⟨i, hl, hp.symm⟩

theorem root_of_mem_children {parsed : Except FormatError Block} {state : Option Download} {c : Child}
    (h : c ∈ (ofBlock rules size parsed root state positions).children) : c.root = root := by
  have key : ∀ block fresh s, c ∈ (bySchema rules root size block positions fresh s).children → c.root = root := by
    intro block fresh s h
    unfold bySchema at h
    split at h
    · simp [children] at h
    · obtain ⟨ix, -, hc⟩ := List.mem_flatMap.1 h
      exact (mem_childrenAt.1 hc).1
  unfold ofBlock at h
  split at h
  · simp [children] at h
  · split at h
    · simp [children] at h
    · split at h
      · split at h
        · simp [children] at h
        · exact key _ _ _ h
      · split at h
        · simp [children] at h
        · exact key _ _ _ h

/-- Only the root block gives a shape. -/
theorem zero_mem_of_fresh {parsed : Except FormatError Block} {state : Option Download} {s : Schema}
    (h : (ofBlock rules size parsed root state positions).fresh = some s) : 0 ∈ positions := by
  have key : ∀ block t, (bySchema rules root size block positions none t).fresh = none := by
    intro block t
    unfold bySchema
    split <;> rfl
  unfold ofBlock at h
  split at h
  · cases h
  · split at h
    · cases h
    · split at h
      · assumption
      · split at h
        · cases h
        · rw [key] at h
          cases h

/-- A judgement by a shape. -/
theorem bySchema_cases (raw : Bytes) (hdecode : Block.decode raw = .ok block) (fresh : Option Schema) (s : Schema) :
    (∃ e, bySchema rules root raw.length block positions fresh s = .malformed e) ∨
    (∀ ix ∈ positions, Join.openBlock s ix raw = .ok block) ∧
      bySchema rules root raw.length block positions fresh s =
        .valid fresh (positions.flatMap (childrenAt rules root block.links)) := by
  unfold bySchema
  cases hc : checkAll s raw.length block.links.length positions with
  | error e => exact .inl ⟨e, rfl⟩
  | ok u =>
    refine .inr ⟨?_, rfl⟩
    intro ix hix
    have := checkAll_eq_ok_iff.1 hc ix hix
    exact Join.openBlock_eq_ok_iff.2 ⟨hdecode, Schema.check_eq_ok_iff.1 this⟩

/-- A block that opens at every position is valid for a shape. -/
theorem bySchema_eq_valid {raw : Bytes} {s : Schema} (h : ∀ ix ∈ positions, Join.openBlock s ix raw = .ok block)
    (fresh : Option Schema) : bySchema rules root raw.length block positions fresh s =
      .valid fresh (positions.flatMap (childrenAt rules root block.links)) := by
  unfold bySchema
  rw [checkAll_eq_ok_iff.2 fun ix hix => Schema.check_eq_ok_iff.2 (Join.openBlock_eq_ok_iff.1 (h ix hix)).2]

/-- The judgement of a root in flight: while it waits for its root block the header decides on the
shape, and later the shape decides on the block. -/
theorem ofBlock_cases (rules : Rules) (root : RootId) (raw : Bytes) (hne : positions ≠ [])
    (hreq : d.phase = .requested → ∀ ix ∈ positions, ix = 0) (hexp : ∀ s, d.phase = .expanding s → 0 ∉ positions) :
    (∃ e, ofBlock rules raw.length (Block.decode raw) root (some d) positions = .malformed e) ∨
    ∃ block s fresh, (∀ ix ∈ positions, Join.openBlock s ix raw = .ok block) ∧
      ofBlock rules raw.length (Block.decode raw) root (some d) positions =
        .valid fresh (positions.flatMap (childrenAt rules root block.links)) ∧
      (d.phase = .expanding s ∧ fresh = none ∨
        d.phase = .requested ∧ fresh = some s ∧ rootSchema rules d.tag block.data = .ok s) := by
  unfold ofBlock
  cases hdecode : Block.decode raw with
  | error e => exact .inl ⟨e, rfl⟩
  | ok block =>
    dsimp only
    cases hphase : d.phase with
    | requested =>
      -- it is awaited at 0 only, so the block is the root block
      have h0 : 0 ∈ positions := by
        obtain ⟨ix, hix⟩ := List.exists_mem_of_ne_nil _ hne
        exact hreq hphase ix hix ▸ hix
      rw [if_pos h0]
      cases hroot : rootSchema rules d.tag block.data with
      | error e => exact .inl ⟨e, rfl⟩
      | ok s =>
        refine (bySchema_cases raw hdecode (some s) s).imp id ?_
        rintro ⟨hopen, hvalid⟩
        exact ⟨block, s, some s, hopen, hvalid, .inr ⟨rfl, rfl, hroot⟩⟩
    | expanding s =>
      have hschema : d.schema? = some s := by
        unfold Download.schema?
        rw [hphase]
      rw [if_neg (hexp s hphase), hschema]
      refine (bySchema_cases raw hdecode none s).imp id ?_
      rintro ⟨hopen, hvalid⟩
      exact ⟨block, s, none, hopen, hvalid, .inl ⟨rfl, rfl⟩⟩

/-- A block that opens at every position is valid for a root in flight that has the shape, or that
takes it from the block. -/
theorem ofBlock_of_openBlock {raw : Bytes} {s : Schema} (hne : positions ≠ [])
    (hopen : ∀ ix ∈ positions, Join.openBlock s ix raw = .ok block)
    (hphase : d.phase = .expanding s ∧ 0 ∉ positions ∨
      (∀ ix ∈ positions, ix = 0) ∧ rootSchema rules d.tag block.data = .ok s) :
    ∃ fresh, ofBlock rules raw.length (Block.decode raw) root (some d) positions =
      .valid fresh (positions.flatMap (childrenAt rules root block.links)) := by
  obtain ⟨ix, hix⟩ := List.exists_mem_of_ne_nil _ hne
  have hdecode := (Join.openBlock_eq_ok_iff.1 (hopen ix hix)).1
  unfold ofBlock
  rw [hdecode]
  dsimp only
  rcases hphase with ⟨hexp, h0⟩ | ⟨hzero, hroot⟩
  · have hschema : d.schema? = some s := by
      unfold Download.schema?
      rw [hexp]
    rw [if_neg h0, hschema]
    exact ⟨none, bySchema_eq_valid hopen none⟩
  · rw [if_pos (hzero ix hix ▸ hix), hroot]
    exact ⟨some s, bySchema_eq_valid hopen (some s)⟩

end Judgement

/-! ## Verdicts -/

namespace Verdict

variable {v : Verdict} {rules : Rules} {raw : Bytes} {awaiting : Awaiting} {roots : Table RootId Download}
variable {root : RootId}

theorem children_eq (v : Verdict) : v.children = v.judgements.flatMap fun e => e.2.children := by
  rfl

theorem mem_malformed {e : FormatError} : (root, e) ∈ v.malformed ↔ (root, .malformed e) ∈ v.judgements := by
  unfold malformed
  rw [List.mem_filterMap]
  constructor
  · rintro ⟨⟨r, j⟩, hm, hj⟩
    cases j <;> simp at hj
    obtain ⟨rfl, rfl⟩ := hj
    exact hm
  · intro hm
    exact ⟨_, hm, rfl⟩

theorem malformed_eq (v : Verdict) :
    v.malformed = v.judgements.filterMap fun e => e.2.error?.map fun error => (e.1, error) := by
  unfold malformed
  congr 1
  funext ⟨root, j⟩
  cases j <;> rfl

/-- What is found wrong with a root is what its judgement finds. -/
theorem get?_malformed (hkeys : (Table.keys v.judgements).Nodup) (root : RootId) :
    Table.get? root v.malformed = (Table.get? root v.judgements).bind Judgement.error? := by
  rw [malformed_eq, Table.get?_filterMap hkeys]

theorem schemas_eq (v : Verdict) :
    v.schemas = v.judgements.filterMap fun e => e.2.fresh.map fun s => (e.1, s) := by
  unfold schemas
  congr 1
  funext ⟨root, j⟩
  cases j with
  | valid fresh cs => cases fresh <;> rfl
  | _ => rfl

/-- The shape that a root is given is the one of its judgement. -/
theorem get?_schemas (hkeys : (Table.keys v.judgements).Nodup) (root : RootId) :
    Table.get? root v.schemas = (Table.get? root v.judgements).bind Judgement.fresh := by
  rw [schemas_eq, Table.get?_filterMap hkeys]

theorem mem_validated : root ∈ v.validated ↔ ∃ fresh cs, (root, .valid fresh cs) ∈ v.judgements := by
  unfold validated
  rw [List.mem_filterMap]
  constructor
  · rintro ⟨⟨other, j⟩, hm, hj⟩
    cases j <;> simp at hj
    subst hj
    exact ⟨_, _, hm⟩
  · rintro ⟨fresh, cs, hm⟩
    exact ⟨_, hm, rfl⟩

theorem log_eq_nil (h : ∀ e ∈ v.judgements, (∃ error, e.2 = .malformed error) ∨ ∃ fresh cs, e.2 = .valid fresh cs) :
    v.log = [] := by
  unfold log
  rw [List.filterMap_eq_nil_iff]
  rintro ⟨root, j⟩ he
  obtain ⟨error, rfl⟩ | ⟨fresh, cs, rfl⟩ := h _ he
  · rfl
  · rfl

theorem keys_ofBlock : Table.keys (ofBlock rules raw awaiting roots).judgements = Table.keys awaiting := by
  simp [ofBlock, Table.keys, Function.comp_def]

theorem get?_ofBlock : Table.get? root (ofBlock rules raw awaiting roots).judgements =
    (Table.get? root awaiting).map
      (Judgement.ofBlock rules raw.length (Block.decode raw) root (roots.get? root)) := by
  unfold ofBlock
  induction awaiting with
  | nil => rfl
  | cons e awaiting ih =>
    obtain ⟨other, positions⟩ := e
    by_cases h : other = root
    · simp [Table.get?, h]
    · simpa [Table.get?, h] using ih

theorem mem_ofBlock {j : Judgement} : (root, j) ∈ (ofBlock rules raw awaiting roots).judgements ↔
    ∃ positions, (root, positions) ∈ awaiting ∧
      j = Judgement.ofBlock rules raw.length (Block.decode raw) root (roots.get? root) positions := by
  simp only [ofBlock, List.mem_map, Prod.exists, Prod.mk.injEq]
  constructor
  · rintro ⟨r, ps, hm, rfl, rfl⟩
    exact ⟨ps, hm, rfl⟩
  · rintro ⟨ps, hm, rfl⟩
    exact ⟨root, ps, hm, rfl, rfl⟩

/-- The children of a root are those of its judgement. -/
theorem children_of_root (hkeys : (Table.keys v.judgements).Nodup)
    (hown : ∀ e ∈ v.judgements, ∀ c ∈ e.2.children, c.root = e.1) (root : RootId) :
    (v.children.filter fun c => decide (c.root = root)) =
      ((Table.get? root v.judgements).map Judgement.children).getD [] := by
  rw [children_eq]
  generalize v.judgements = judgements at *
  induction judgements with
  | nil => rfl
  | cons e judgements ih =>
    obtain ⟨other, j⟩ := e
    obtain ⟨hn, hkeys⟩ := List.nodup_cons.1 hkeys
    have hrest := ih hkeys fun f hf => hown f (List.mem_cons_of_mem _ hf)
    have hself : ∀ c ∈ j.children, c.root = other := hown _ List.mem_cons_self
    rw [List.flatMap_cons, List.filter_append, hrest]
    by_cases h : other = root
    · subst h
      -- no later judgement is about the same root
      have hnone : Table.get? other judgements = none := Table.get?_eq_none_iff.2 hn
      have hall : (j.children.filter fun c => decide (c.root = other)) = j.children := by
        rw [List.filter_eq_self]
        intro c hc
        simpa using hself c hc
      rw [hnone, hall, Table.get?, if_pos rfl]
      exact List.append_nil _
    · have hnone : (j.children.filter fun c => decide (c.root = root)) = [] := by
        rw [List.filter_eq_nil_iff]
        intro c hc
        rw [hself c hc]
        simpa using h
      rw [hnone, Table.get?, if_neg h]
      rfl

theorem root_of_mem_judgement :
    ∀ e ∈ (ofBlock rules raw awaiting roots).judgements, ∀ c ∈ e.2.children, c.root = e.1 := by
  rintro ⟨root, j⟩ he c hc
  obtain ⟨positions, -, rfl⟩ := mem_ofBlock.1 he
  exact Judgement.root_of_mem_children hc

theorem mem_awaiting_of_malformed {e : FormatError} (h : (root, e) ∈ (ofBlock rules raw awaiting roots).malformed) :
    ∃ positions, (root, positions) ∈ awaiting := by
  obtain ⟨positions, hm, -⟩ := mem_ofBlock.1 (mem_malformed.1 h)
  exact ⟨positions, hm⟩

theorem mem_awaiting_of_child {c : Child} (h : c ∈ (ofBlock rules raw awaiting roots).children) :
    ∃ positions, (c.root, positions) ∈ awaiting := by
  rw [children_eq, List.mem_flatMap] at h
  obtain ⟨⟨other, j⟩, hj, hc⟩ := h
  obtain ⟨positions, hm, -⟩ := mem_ofBlock.1 hj
  obtain rfl : c.root = other := root_of_mem_judgement _ hj c hc
  exact ⟨positions, hm⟩

end Verdict

/-! ## Judging in a pass -/

/-- The phase after a tree was given a shape, if it was: only the first one counts. -/
def DownloadPhase.given : DownloadPhase → Option Schema → DownloadPhase
  | .requested, some s => .expanding s
  | phase, _ => phase

@[simp] theorem DownloadPhase.given_none (phase : DownloadPhase) : phase.given none = phase := by
  cases phase <;> rfl

namespace Downloader.Pass

variable {ω : Type} {W : World ω} {rules : Rules} {a : Arrival} {awaiting : Awaiting} {p : Pass} {r : Run ω}

@[simp] theorem resolveAll_world (awaiting : Awaiting) (p : Pass) (r : Run ω) :
    (resolveAll awaiting p r).2.world = r.world := by
  induction awaiting generalizing p r with
  | nil => rfl
  | cons e awaiting ih =>
    obtain ⟨root, positions⟩ := e
    rw [resolveAll]
    split
    · exact ih p r
    · rw [ih]
      simp [Run.setDownload]

theorem resolve_tuned {root : RootId} {n : Nat} {d : Download} (h : r.state.roots.get? root = some d) :
    r.state.Tuned ((r.logAll (d.resolve root n).1).setDownload root (d.resolve root n).2).state := by
  rw [← Run.logAll_state r (d.resolve root n).1] at h ⊢
  exact .setDownload h rfl rfl rfl

theorem resolveAll_tuned (awaiting : Awaiting) (p : Pass) (r : Run ω) :
    r.state.Tuned (resolveAll awaiting p r).2.state := by
  induction awaiting generalizing p r with
  | nil => exact .refl _
  | cons e awaiting ih =>
    obtain ⟨root, positions⟩ := e
    rw [resolveAll]
    split
    · exact ih p r
    · next d hd =>
      exact (resolve_tuned hd).trans (ih _ _)

/-- Resolving takes the awaited positions off what is outstanding, for each root. -/
theorem resolveAll_get? (hd : (Table.keys awaiting).Nodup) (p : Pass) (r : Run ω) (root : RootId) :
    (resolveAll awaiting p r).2.state.roots.get? root =
      (r.state.roots.get? root).map fun d => (d.resolve root (awaiting.positions root).length).2 := by
  induction awaiting generalizing p r with
  | nil => simp [resolveAll, Awaiting.positions, Table.get?, Download.resolve]
  | cons e awaiting ih =>
    obtain ⟨other, positions⟩ := e
    obtain ⟨hn, hd⟩ := List.nodup_cons.1 hd
    rw [resolveAll, Awaiting.positions_cons]
    split
    · next hnone =>
      rw [ih hd]
      split
      · next h =>
        subst h
        rw [hnone]
        rfl
      · rfl
    · next d hsome =>
      rw [ih hd]
      simp only [Run.setDownload, Run.logAll_state, Table.get?_insert]
      by_cases h : other = root
      · subst h
        -- a root occurs once, so what is resolved for it here is not resolved again
        rw [if_pos rfl, if_pos rfl, hsome, Awaiting.positions_eq_nil hn]
        rfl
      · rw [if_neg h, if_neg h]

@[simp] theorem assignAll_world (schemas : List (RootId × Schema)) (r : Run ω) :
    (assignAll schemas r).world = r.world := by
  induction schemas generalizing r with
  | nil => rfl
  | cons e schemas ih =>
    obtain ⟨root, schema⟩ := e
    rw [assignAll]
    split
    · exact ih r
    · rw [ih]
      simp [Run.setDownload]

theorem assign_tuned {root : RootId} (schema : Schema) {d : Download} (h : r.state.roots.get? root = some d) :
    r.state.Tuned ((r.logAll (d.assign root schema).1).setDownload root (d.assign root schema).2).state := by
  have hkept : (d.assign root schema).2.tag = d.tag ∧ (d.assign root schema).2.session = d.session ∧
      (d.assign root schema).2.descendants = d.descendants := by
    unfold Download.assign
    split <;> exact ⟨rfl, rfl, rfl⟩
  rw [← Run.logAll_state r (d.assign root schema).1] at h ⊢
  exact .setDownload h hkept.1 hkept.2.1 hkept.2.2

theorem assignAll_tuned (schemas : List (RootId × Schema)) (r : Run ω) :
    r.state.Tuned (assignAll schemas r).state := by
  induction schemas generalizing r with
  | nil => exact .refl _
  | cons e schemas ih =>
    obtain ⟨root, schema⟩ := e
    rw [assignAll]
    split
    · exact ih r
    · next d hd =>
      exact (assign_tuned schema hd).trans (ih _)

/-- A download keeps everything but its phase when trees are given their shapes, and the phase too
if none is given to its own. -/
theorem assignAll_get? (schemas : List (RootId × Schema)) (r : Run ω) {root : RootId} {d : Download}
    (h : r.state.roots.get? root = some d) :
    (assignAll schemas r).state.roots.get? root = some { d with phase := d.phase.given (Table.get? root schemas) } := by
  induction schemas generalizing r d with
  | nil => rw [assignAll, h, Table.get?, DownloadPhase.given_none]
  | cons e schemas ih =>
    obtain ⟨other, s⟩ := e
    rw [assignAll]
    by_cases ho : other = root
    · subst ho
      rw [h, Table.get?, if_pos rfl]
      dsimp only
      rw [ih _ (d := (d.assign other s).2) (by simp [Run.setDownload, Table.get?_insert])]
      cases hd : d.phase <;> simp [Download.assign, hd, DownloadPhase.given]
    · rw [Table.get?, if_neg ho]
      split
      · exact ih r h
      · refine ih _ ?_
        simp only [Run.setDownload, Run.logAll_state, Table.get?_insert, if_neg ho]
        exact h

/-- The verdict is that of the states before. -/
theorem judge_verdict (hd : (Table.keys awaiting).Nodup) : (judge W rules a awaiting p r).1 =
    Verdict.ofBlock rules a.raw (W.arrange awaiting r.world).1 r.state.roots := by
  have hd' := ((W.arrange_perm awaiting r.world).map Prod.fst).nodup_iff.2 hd
  unfold judge Verdict.ofBlock
  simp only [Run.call_fst]
  congr 1
  -- each judgement looks at a state in which the positions are resolved already
  apply List.map_congr_left
  rintro ⟨root, positions⟩ -
  rw [resolveAll_get? hd', Judgement.ofBlock_resolve]
  rfl

theorem store_state (verdict : Verdict) (r : Run ω) : (store W a verdict r).state = r.state := by
  unfold store
  split
  · have hs := Run.call_state r (W.put a.id a.raw)
    rcases hc : r.call (W.put a.id a.raw) with ⟨outcome, r'⟩
    rw [hc] at hs
    cases outcome <;> exact hs
  · rfl

theorem store_world (verdict : Verdict) (r : Run ω) : (store W a verdict r).world =
    if a.received ∧ verdict.validated ≠ [] then (W.put a.id a.raw r.world).2 else r.world := by
  unfold store
  split
  · have hw := Run.call_world r (W.put a.id a.raw)
    rcases hc : r.call (W.put a.id a.raw) with ⟨outcome, r'⟩
    rw [hc] at hw
    cases outcome <;> exact hw
  · rfl

section Judge

variable (W rules a awaiting p r)

/-- Judging changes the downloads' states, and the world only by arranging and storing. -/
theorem judge_world : (judge W rules a awaiting p r).2.2.world =
    if a.received ∧ (judge W rules a awaiting p r).1.validated ≠ [] then
      (W.put a.id a.raw (W.arrange awaiting r.world).2).2
    else (W.arrange awaiting r.world).2 := by
  unfold judge
  simp only [assignAll_world, store_world, Run.logAll_world, Run.emit_world, resolveAll_world, Run.call_world]

theorem judge_tuned : r.state.Tuned (judge W rules a awaiting p r).2.2.state := by
  have hr := resolveAll_tuned (W.arrange awaiting r.world).1 p (r.call (W.arrange awaiting)).2
  have hs := assignAll_tuned (judge W rules a awaiting p r).1.schemas (store W a
    (judge W rules a awaiting p r).1 (((resolveAll (W.arrange awaiting r.world).1 p
      (r.call (W.arrange awaiting)).2).2.emit (.judged a.id (W.arrange awaiting r.world).1
        (judge W rules a awaiting p r).1)).logAll (judge W rules a awaiting p r).1.log))
  rw [store_state, Run.logAll_state, Run.emit_state] at hs
  exact State.Tuned.trans hr hs

end Judge

theorem judge_get? (hd : (Table.keys awaiting).Nodup) {root : RootId} {d : Download}
    (h : r.state.roots.get? root = some d) :
    (judge W rules a awaiting p r).2.2.state.roots.get? root = some
      { d with
        outstanding := d.outstanding - (awaiting.positions root).length
        phase := d.phase.given (Table.get? root (judge W rules a awaiting p r).1.schemas) } := by
  have hp := W.arrange_perm awaiting r.world
  have hd' := (hp.map Prod.fst).nodup_iff.2 hd
  have hpos : Awaiting.positions (W.arrange awaiting r.world).1 root = awaiting.positions root := by
    unfold Awaiting.positions
    rw [Table.get?_perm hp hd']
  unfold judge
  simp only []
  rw [assignAll_get? _ _ (d := (d.resolve root (awaiting.positions root).length).2) (by
    rw [store_state, Run.logAll_state, Run.emit_state, Run.call_fst, resolveAll_get? hd', Run.call_state, h, hpos]
    rfl)]
  rfl

/-! ## The fate of a root -/

/-- What judging `raw` comes to for a root in flight that awaited it at `positions`. -/
inductive Fate (rules : Rules) (raw : Bytes) (v : Verdict) (root : RootId) (positions : List Nat) :
    Download → Download → Prop
  /-- The block was not awaited. -/
  | passed (d) : positions = [] → (v.children.filter fun c => decide (c.root = root)) = [] →
      (∀ e, (root, e) ∉ v.malformed) → Fate rules raw v root positions d d
  /-- The block proves the tree malformed. -/
  | broken (d) (e : FormatError) : positions ≠ [] → (root, e) ∈ v.malformed →
      (v.children.filter fun c => decide (c.root = root)) = [] → root ∉ v.validated →
      Fate rules raw v root positions d { d with outstanding := d.outstanding - positions.length }
  /-- The block opens where it was awaited, and its children take its place. -/
  | grown (d) (block : Block) (s : Schema) : positions ≠ [] → (∀ ix ∈ positions, Join.openBlock s ix raw = .ok block) →
      (d.phase = .expanding s ∨ d.phase = .requested ∧ Judgement.rootSchema rules d.tag block.data = .ok s) →
      (v.children.filter fun c => decide (c.root = root)) =
        positions.flatMap (Judgement.childrenAt rules root block.links) →
      root ∈ v.validated → (∀ e, (root, e) ∉ v.malformed) →
      Fate rules raw v root positions d
        { d with outstanding := d.outstanding - positions.length, phase := .expanding s }

/-- The children of a root that grows are what the block links to at its places. -/
theorem mem_children_iff_linked {children : List Child} {root : RootId} {positions : List Nat} {block : Block}
    {s : Schema} (hsize : s.size = rules.size)
    (hc : (children.filter fun c => decide (c.root = root)) =
      positions.flatMap (Judgement.childrenAt rules root block.links)) {id : BlockId} {ix : Nat} :
    ⟨root, id, ix⟩ ∈ children ↔ ∃ j ∈ positions, (ix, id) ∈ Join.linked s j block.links := by
  have hown : ⟨root, id, ix⟩ ∈ children ↔
      (⟨root, id, ix⟩ : Child) ∈ children.filter fun c => decide (c.root = root) := by simp
  rw [hown, hc, List.mem_flatMap]
  refine exists_congr fun j => and_congr_right fun _ => ?_
  rw [Judgement.mem_childrenAt_iff_linked hsize]
  exact and_iff_right rfl

/-- Judging a block decides on every root in flight. -/
theorem judge_fate (hw : awaiting.WF) {root : RootId} {d : Download} (h : r.state.roots.get? root = some d)
    (hreq : d.phase = .requested → ∀ ix ∈ awaiting.positions root, ix = 0)
    (hexp : ∀ s, d.phase = .expanding s → 0 ∉ awaiting.positions root) :
    ∃ d', (judge W rules a awaiting p r).2.2.state.roots.get? root = some d' ∧
      Fate rules a.raw (judge W rules a awaiting p r).1 root (awaiting.positions root) d d' := by
  refine ⟨_, judge_get? hw.nodup h, ?_⟩
  have hp := W.arrange_perm awaiting r.world
  have hd' := (hp.map Prod.fst).nodup_iff.2 hw.nodup
  rw [judge_verdict hw.nodup]
  -- all that the verdict says of the root is in its judgement
  have hkeys : (Table.keys
      (Verdict.ofBlock rules a.raw (W.arrange awaiting r.world).1 r.state.roots).judgements).Nodup := by
    rw [Verdict.keys_ofBlock]
    exact hd'
  have hj : Table.get? root (Verdict.ofBlock rules a.raw (W.arrange awaiting r.world).1 r.state.roots).judgements =
      (Table.get? root awaiting).map (Judgement.ofBlock rules a.raw.length (Block.decode a.raw) root (some d)) := by
    rw [Verdict.get?_ofBlock, h, Table.get?_perm hp hd']
  have hchildren := Verdict.children_of_root hkeys Verdict.root_of_mem_judgement root
  have hschema := Verdict.get?_schemas hkeys root
  generalize Verdict.ofBlock rules a.raw (W.arrange awaiting r.world).1 r.state.roots = v at *
  have hmalformed : ∀ e, (root, e) ∈ v.malformed ↔ Table.get? root v.judgements = some (.malformed e) :=
    fun e => Verdict.mem_malformed.trans (Table.get?_eq_some_iff hkeys).symm
  cases hg : Table.get? root awaiting with
  | none =>
    have hpos : awaiting.positions root = [] := by
      rw [Awaiting.positions, hg]
      rfl
    rw [hg, Option.map_none] at hj
    rw [hj] at hchildren hschema
    rw [hpos, hschema, Option.bind_none, DownloadPhase.given_none]
    refine Fate.passed d rfl hchildren ?_
    intro e he
    rw [hmalformed, hj] at he
    cases he
  | some positions =>
    have hpos : awaiting.positions root = positions := by
      rw [Awaiting.positions, hg]
      rfl
    have hne : positions ≠ [] := hw.filled _ (Table.mem_of_get? hg)
    rw [hg, Option.map_some] at hj
    rw [hpos] at hreq hexp ⊢
    rcases Judgement.ofBlock_cases rules root a.raw hne hreq hexp with
      ⟨e, hbroken⟩ | ⟨block, s, fresh, hopen, hvalid, hphase⟩
    · rw [hbroken] at hj
      rw [hj] at hchildren hschema
      have hnone : Table.get? root v.schemas = none := hschema
      rw [hnone, DownloadPhase.given_none]
      refine Fate.broken d e hne ((hmalformed e).2 hj) hchildren ?_
      intro hm
      obtain ⟨fresh, cs, hvalid⟩ := Verdict.mem_validated.1 hm
      rw [Table.get?_of_mem hkeys hvalid] at hj
      cases hj
    · rw [hvalid] at hj
      rw [hj] at hchildren hschema
      have hgiven : d.phase.given (Table.get? root v.schemas) = .expanding s := by
        rw [hschema]
        rcases hphase with ⟨he, rfl⟩ | ⟨hr, rfl, -⟩
        · rw [he]
          rfl
        · rw [hr]
          rfl
      rw [hgiven]
      refine Fate.grown d block s hne hopen ?_ hchildren (Verdict.mem_validated.2 ⟨_, _, Table.mem_of_get? hj⟩) ?_
      · rcases hphase with ⟨he, -⟩ | ⟨hr, -, hroot⟩
        · exact .inl he
        · exact .inr ⟨hr, hroot⟩
      · intro e he
        rw [hmalformed, hj] at he
        cases he

/-! ## The trace of judging -/

theorem resolveAll_adds (awaiting : Awaiting) (p : Pass) (r : Run ω) :
    Run.Adds (fun m => (∃ e, m.effect = .logged e) ∧ r.state.Tuned m.state ∧ m.world = r.world) r
      (resolveAll awaiting p r).2 := by
  induction awaiting generalizing p r with
  | nil => exact .refl rfl
  | cons e awaiting ih =>
    obtain ⟨root, positions⟩ := e
    rw [resolveAll]
    split
    · exact ih p r
    · next d hd =>
      have hset := resolve_tuned (n := positions.length) hd
      refine (Run.Adds.setDownload (fun entry => ⟨⟨entry, rfl⟩, .refl _, rfl⟩) _ _).trans ((ih _ _).mono ?_)
      rintro m ⟨he, ht, hw⟩
      exact ⟨he, hset.trans ht, by rw [hw]; simp [Run.setDownload]⟩

theorem assignAll_adds (schemas : List (RootId × Schema)) (r : Run ω) :
    Run.Adds (fun m => (∃ e, m.effect = .logged e) ∧ r.state.Tuned m.state ∧ m.world = r.world) r
      (assignAll schemas r) := by
  induction schemas generalizing r with
  | nil => exact .refl rfl
  | cons e schemas ih =>
    obtain ⟨root, schema⟩ := e
    rw [assignAll]
    split
    · exact ih r
    · next d hd =>
      have hset := assign_tuned schema hd
      refine (Run.Adds.setDownload (fun entry => ⟨⟨entry, rfl⟩, .refl _, rfl⟩) _ _).trans ((ih _).mono ?_)
      rintro m ⟨he, ht, hw⟩
      exact ⟨he, hset.trans ht, by rw [hw]; simp [Run.setDownload]⟩

theorem store_adds (verdict : Verdict) (r : Run ω) :
    Run.Adds (fun m => (∃ e, m.effect = .logged (.notStored a.id e)) ∧ m.state = r.state ∧
      m.world = (store W a verdict r).world) r (store W a verdict r) := by
  unfold store
  split
  · have hs := Run.call_state r (W.put a.id a.raw)
    have ht := Run.call_trace r (W.put a.id a.raw)
    rcases hc : r.call (W.put a.id a.raw) with ⟨outcome, r'⟩
    rw [hc] at hs ht
    cases outcome with
    | ok u => exact .refl ht
    | error e => exact .trans (.refl ht) (.emit ⟨⟨_, rfl⟩, hs, rfl⟩)
  · exact .refl rfl

/-- Judging adds its verdict to the trace, and reports. -/
theorem judge_adds (W : World ω) (rules : Rules) (a : Arrival) (awaiting : Awaiting) (p : Pass) (r : Run ω) :
    Run.Adds (fun m =>
    ((∃ e, m.effect = .logged e) ∨ ∃ awaiting', m.effect = .judged a.id awaiting' (judge W rules a awaiting p r).1) ∧
      r.state.Tuned m.state ∧
      (m.world = (W.arrange awaiting r.world).2 ∨ m.world = (judge W rules a awaiting p r).2.2.world))
    r (judge W rules a awaiting p r).2.2 := by
  have hworld := judge_world W rules a awaiting p r
  have ht := resolveAll_tuned (W.arrange awaiting r.world).1 p (r.call (W.arrange awaiting)).2
  have hw := resolveAll_world (W.arrange awaiting r.world).1 p (r.call (W.arrange awaiting)).2
  have hres := resolveAll_adds (W.arrange awaiting r.world).1 p (r.call (W.arrange awaiting)).2
  rw [Run.call_state] at ht hres
  -- arranging adds nothing; then come what resolving logs, the verdict, what it logs, and storing
  have harranged : Run.Adds (fun _ => False) r (r.call (W.arrange awaiting)).2 := .refl rfl
  refine .trans (harranged.mono fun _ h => h.elim) (.trans (hres.mono ?_) ?_)
  · rintro m ⟨he, hs, hw⟩
    exact ⟨.inl he, hs, .inl hw⟩
  refine .trans (Run.Adds.emit (e := .judged a.id (W.arrange awaiting r.world).1 (judge W rules a awaiting p r).1)
    ⟨.inr ⟨_, rfl⟩, ht, .inl hw⟩) ?_
  refine .trans (Run.Adds.logAll (judge W rules a awaiting p r).1.log ?_) ?_
  · intro entry
    exact ⟨.inl ⟨entry, rfl⟩, ht, .inl hw⟩
  have hstore := store_adds (W := W) (a := a) (judge W rules a awaiting p r).1
    ((((resolveAll (W.arrange awaiting r.world).1 p (r.call (W.arrange awaiting)).2).2.emit
      (.judged a.id (W.arrange awaiting r.world).1 (judge W rules a awaiting p r).1))).logAll
        (judge W rules a awaiting p r).1.log)
  have hend : (store W a (judge W rules a awaiting p r).1
      ((((resolveAll (W.arrange awaiting r.world).1 p (r.call (W.arrange awaiting)).2).2.emit
        (.judged a.id (W.arrange awaiting r.world).1 (judge W rules a awaiting p r).1))).logAll
          (judge W rules a awaiting p r).1.log)).world = (judge W rules a awaiting p r).2.2.world := by
    rw [store_world, hworld, Run.logAll_world, Run.emit_world, hw, Run.call_world]
  refine .trans (hstore.mono ?_) ((assignAll_adds _ _).mono ?_)
  · rintro m ⟨⟨e, he⟩, hs, hw⟩
    refine ⟨.inl ⟨_, he⟩, ?_, .inr (hw.trans hend)⟩
    rw [hs, Run.logAll_state, Run.emit_state]
    exact ht
  · rintro m ⟨he, hs, hw⟩
    refine ⟨.inl he, ht.trans ?_, .inr (hw.trans hend)⟩
    rw [store_state, Run.logAll_state, Run.emit_state] at hs
    exact hs

/-! ## Judging without a report

Where the downloads agree with what is awaited, judging reports nothing but a failed store. -/

/-- Resolving no more than is outstanding reports nothing. -/
theorem resolveAll_trace (hd : (Table.keys awaiting).Nodup) (p : Pass) (r : Run ω)
    (h : ∀ root d, r.state.roots.get? root = some d → (awaiting.positions root).length ≤ d.outstanding) :
    (resolveAll awaiting p r).2.trace = r.trace := by
  induction awaiting generalizing p r with
  | nil => rfl
  | cons e awaiting ih =>
    obtain ⟨other, positions⟩ := e
    obtain ⟨hn, hd⟩ := List.nodup_cons.1 hd
    have hrest : ∀ {root}, other = root → (Awaiting.positions awaiting root).length = 0 := by
      rintro root rfl
      rw [Awaiting.positions_eq_nil hn]
      rfl
    rw [resolveAll]
    split
    · next hnone =>
      refine ih hd p r ?_
      intro root d hroot
      have := h root d hroot
      rw [Awaiting.positions_cons] at this
      split at this
      · next heq =>
        rw [hrest heq]
        exact Nat.zero_le _
      · exact this
    · next d hsome =>
      have hfits := h other d hsome
      rw [Awaiting.positions_cons, if_pos rfl] at hfits
      have hnothing : (d.resolve other positions.length).1 = [] := if_neg (Nat.not_lt.2 hfits)
      dsimp only
      rw [ih hd, hnothing]
      · rfl
      · intro root d' hroot
        rcases Table.get?_insert_eq_some_iff.1 hroot with ⟨heq, -⟩ | ⟨hne, hroot⟩
        · rw [hrest heq]
          exact Nat.zero_le _
        · rw [Run.logAll_state] at hroot
          have := h root d' hroot
          rwa [Awaiting.positions_cons, if_neg hne] at this

/-- Giving trees their first shapes reports nothing. -/
theorem assignAll_trace {schemas : List (RootId × Schema)} (hd : (Table.keys schemas).Nodup) (r : Run ω)
    (h : ∀ root d, root ∈ Table.keys schemas → r.state.roots.get? root = some d → d.phase = .requested) :
    (assignAll schemas r).trace = r.trace := by
  induction schemas generalizing r with
  | nil => rfl
  | cons e schemas ih =>
    obtain ⟨other, schema⟩ := e
    obtain ⟨hn, hd⟩ := List.nodup_cons.1 hd
    rw [assignAll]
    split
    · exact ih hd r fun root d hroot => h root d (List.mem_cons_of_mem _ hroot)
    · next d hsome =>
      have hnothing : (d.assign other schema).1 = [] := by
        unfold Download.assign
        rw [h other d List.mem_cons_self hsome]
      dsimp only
      rw [ih hd, hnothing]
      · rfl
      · intro root d' hroot hd'
        have hne : other ≠ root := by
          rintro rfl
          exact hn hroot
        rw [hnothing] at hd'
        rcases Table.get?_insert_eq_some_iff.1 hd' with ⟨heq, -⟩ | ⟨-, hd'⟩
        · exact absurd heq hne
        · exact h root d' (List.mem_cons_of_mem _ hroot) hd'

/-- Judging adds its verdict to the trace, and at most that the block could not be stored. -/
theorem judge_trace (hd : (Table.keys awaiting).Nodup)
    (hresolve : ∀ root d, r.state.roots.get? root = some d → (awaiting.positions root).length ≤ d.outstanding)
    (hlog : (judge W rules a awaiting p r).1.log = [])
    (hassign : ∀ root d, root ∈ Table.keys (judge W rules a awaiting p r).1.schemas →
      r.state.roots.get? root = some d → d.phase = .requested) :
    ∃ (s : State) (stored : List (Moment ω)), (judge W rules a awaiting p r).2.2.trace =
        stored ++ ⟨.judged a.id (W.arrange awaiting r.world).1 (judge W rules a awaiting p r).1,
          (W.arrange awaiting r.world).2, s⟩ :: r.trace ∧
      (∀ m ∈ stored, (∃ e, m.effect = .logged (.notStored a.id e)) ∧ m.state = s) ∧
      ∀ root, s.roots.get? root =
        (r.state.roots.get? root).map fun d => (d.resolve root (awaiting.positions root).length).2 := by
  have hp := W.arrange_perm awaiting r.world
  have hd' := (hp.map Prod.fst).nodup_iff.2 hd
  have hpos : ∀ root, Awaiting.positions (W.arrange awaiting r.world).1 root = awaiting.positions root := by
    intro root
    unfold Awaiting.positions
    rw [Table.get?_perm hp hd']
  have hres := resolveAll_trace hd' p (r.call (W.arrange awaiting)).2 (by
    intro root d hroot
    rw [hpos]
    exact hresolve root d hroot)
  have hget := resolveAll_get? hd' p (r.call (W.arrange awaiting)).2
  have hworld := resolveAll_world (W.arrange awaiting r.world).1 p (r.call (W.arrange awaiting)).2
  have hkeys : (Table.keys (judge W rules a awaiting p r).1.schemas).Nodup := by
    rw [judge_verdict hd, Verdict.schemas_eq]
    refine Table.nodup_filterMap ?_ _
    rw [Verdict.keys_ofBlock]
    exact hd'
  have hjudge : (judge W rules a awaiting p r).2.2 = assignAll (judge W rules a awaiting p r).1.schemas
      (store W a (judge W rules a awaiting p r).1 (((resolveAll (W.arrange awaiting r.world).1 p
        (r.call (W.arrange awaiting)).2).2.emit (.judged a.id (W.arrange awaiting r.world).1
          (judge W rules a awaiting p r).1)).logAll (judge W rules a awaiting p r).1.log)) := rfl
  rw [hlog] at hjudge
  generalize (judge W rules a awaiting p r).1 = v at *
  generalize (resolveAll (W.arrange awaiting r.world).1 p (r.call (W.arrange awaiting)).2).2 = resolved at *
  obtain ⟨stored, hstored, hall⟩ := store_adds (W := W) (a := a) v
    ((resolved.emit (.judged a.id (W.arrange awaiting r.world).1 v)).logAll [])
  refine ⟨resolved.state, stored, ?_, ?_, ?_⟩
  · rw [hjudge, assignAll_trace hkeys, hstored]
    · rw [show (resolved.emit (.judged a.id (W.arrange awaiting r.world).1 v)).logAll [] =
        resolved.emit (.judged a.id (W.arrange awaiting r.world).1 v) from rfl, Run.emit_trace, hres, hworld]
      rfl
    · intro root d hroot hd
      rw [store_state, Run.logAll_state, Run.emit_state, hget] at hd
      obtain ⟨d₀, hd₀, rfl⟩ := Option.map_eq_some_iff.1 hd
      exact hassign root d₀ hroot hd₀
  · intro m hm
    obtain ⟨he, hs, -⟩ := hall m hm
    exact ⟨he, hs⟩
  · intro root
    rw [hget, hpos]
    rfl

/-! ## Taking a block out of the index -/

/-- Takes a block out of the index and judges it. -/
def take (W : World ω) (rules : Rules) (a : Arrival) (awaiting : Awaiting) (p : Pass) (r : Run ω) :
    Verdict × Pass × Run ω :=
  judge W rules a awaiting p (r.setPending (r.state.pending.without a.id))

section Take

variable (W rules a awaiting p r)

theorem take_tuned :
    (r.setPending (r.state.pending.without a.id)).state.Tuned (take W rules a awaiting p r).2.2.state :=
  judge_tuned W rules a awaiting p _

@[simp] theorem take_pending : (take W rules a awaiting p r).2.2.state.pending = r.state.pending.without a.id :=
  (take_tuned W rules a awaiting p r).pending

@[simp] theorem take_keys : (take W rules a awaiting p r).2.2.state.roots.keys = r.state.roots.keys :=
  (take_tuned W rules a awaiting p r).keys

theorem take_world : (take W rules a awaiting p r).2.2.world =
    if a.received ∧ (take W rules a awaiting p r).1.validated ≠ [] then
      (W.put a.id a.raw (W.arrange awaiting r.world).2).2
    else (W.arrange awaiting r.world).2 :=
  judge_world W rules a awaiting p _

theorem take_adds : Run.Adds (fun m =>
    ((∃ e, m.effect = .logged e) ∨ ∃ awaiting', m.effect = .judged a.id awaiting' (take W rules a awaiting p r).1) ∧
      (r.setPending (r.state.pending.without a.id)).state.Tuned m.state ∧
      (m.world = (W.arrange awaiting r.world).2 ∨ m.world = (take W rules a awaiting p r).2.2.world))
    r (take W rules a awaiting p r).2.2 :=
  .trans (.refl rfl) (judge_adds W rules a awaiting p (r.setPending (r.state.pending.without a.id)))

end Take

/-- The verdict is that of the states before. -/
theorem take_verdict (hd : (Table.keys awaiting).Nodup) : (take W rules a awaiting p r).1 =
    Verdict.ofBlock rules a.raw (W.arrange awaiting r.world).1 r.state.roots :=
  judge_verdict hd

end Downloader.Pass

end BlockDag
