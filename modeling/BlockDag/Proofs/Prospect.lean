/-
What becomes of one download as a block comes in. Its prospect is decided by what it waits for, by the
block and by the store: by the blocks of the store that it reaches from the positions that await the
block, and by whether they open there. If one of them does not, the tree is malformed; otherwise the
download waits for those that the store does not have, or is complete if there are none. The other
downloads play no part in it, nor does the order in which the pass takes its blocks up.
-/
import BlockDag.Proofs.Departures
import BlockDag.Proofs.Endings
import BlockDag.Proofs.Soundness

namespace BlockDag.Downloader

variable {ν : Type} {N : Outside ν} {rules : Rules} {Delivers : Bytes → Prop} {start : MemoryStore}
variable {σ σ' : Stage} {r r' : Run (MemoryStore × ν)} {root : RootId} {id : BlockId} {ix : Nat}

/-! ## What handlers rely on -/

/-- All is in order over a store in memory. -/
structure Intact (rules : Rules) (Delivers : Bytes → Prop) (start : MemoryStore) (σ : Stage)
    (r : Run (MemoryStore × ν)) : Prop where
  books : Books rules σ.owed r.state
  sessions : Sessions r.state
  ledger : Ledger rules σ r
  sought : Sought σ r
  stock : Stock Prod.fst Delivers start σ r

theorem Intact.step (h : Intact rules Delivers start σ r)
    (hs : Step (World.over MemoryStore.operations N) rules σ r σ' r') : Intact rules Delivers start σ' r' where
  books := h.books.step hs
  sessions := h.sessions.step hs
  ledger := h.ledger.step h.books h.sessions hs
  sought := h.sought.step h.books hs
  stock := h.stock.step (World.over_memoryLike N) hs

theorem Intact.opened (h : Intact rules Delivers start .idle r)
    (ho : Opening (World.over MemoryStore.operations N) Delivers r σ' r') : Intact rules Delivers start σ' r' where
  books := h.books.opened ho
  sessions := h.sessions.opened ho
  ledger := h.ledger.opened h.books h.sessions ho
  sought := h.sought.opened ho
  stock := h.stock.opened (World.over_memoryLike N) ho

theorem Reached.intact {world : MemoryStore × ν}
    (h : Reached (World.over MemoryStore.operations N) rules Delivers world σ r) : Intact rules Delivers world.1 σ r :=
  ⟨h.books, h.sessions, h.ledger, h.sought, h.stock (World.over_memoryLike N)⟩

/-! ## Prospects -/

/-- A download, the positions at which it waits for blocks, a block that comes in, and the store. What
the download waits for it has asked for, and the store does not have it. -/
structure Prospect where
  download : Download
  positions : BlockId → List Nat
  store : MemoryStore
  id : BlockId
  raw : Bytes
  asked : ∀ {id}, positions id ≠ [] → id ∈ download.descendants
  missing : ∀ {id}, positions id ≠ [] → ¬ store.Holds id

namespace Prospect

variable {c : Prospect} {t t' : Schema}

/-- The store with the block. -/
def stored (c : Prospect) : MemoryStore := c.store.put c.id c.raw

/-- The block as it arrives. -/
def arrival (c : Prospect) : Arrival := ⟨c.id, c.raw, true⟩

/-- The tree has the shape `t`, or takes it from the block. -/
def Shaped (rules : Rules) (c : Prospect) (t : Schema) : Prop :=
  c.download.phase = .expanding t ∨ c.download.phase = .requested ∧
    ∃ block, Block.decode c.raw = .ok block ∧ Judgement.rootSchema rules c.download.tag block.data = .ok t

/-- The positions that await the block, and those that blocks of the store link to from there. -/
inductive Reaches (rules : Rules) (c : Prospect) : BlockId → Nat → Prop
  | here {ix : Nat} : ix ∈ c.positions c.id → Reaches rules c c.id ix
  | link {id : BlockId} {ix : Nat} {raw : Bytes} {t : Schema} {block : Block} {e : Nat × BlockId} :
      Reaches rules c id ix → c.stored.view id = .ok raw → c.Shaped rules t → Join.openBlock t ix raw = .ok block →
      e ∈ Join.linked t ix block.links → Reaches rules c e.2 e.1

/-- What the download waits for afterwards: the blocks it waited for before, and those it reaches that
the store does not have. -/
def Leaves (rules : Rules) (c : Prospect) (id : BlockId) (ix : Nat) : Prop :=
  ix ∈ c.positions id ∧ id ≠ c.id ∨ c.Reaches rules id ix ∧ ¬ c.stored.Holds id

/-- Some block of the store that the download reaches does not open there. -/
def Rejected (rules : Rules) (c : Prospect) : Prop :=
  ∃ id ix raw, c.Reaches rules id ix ∧ c.stored.view id = .ok raw ∧
    ∀ t block, c.Shaped rules t → Join.openBlock t ix raw ≠ .ok block

/-- The phase afterwards: the shape is known once the download has the block. -/
def Enters (rules : Rules) (c : Prospect) (phase : DownloadPhase) : Prop :=
  c.positions c.id = [] ∧ phase = c.download.phase ∨
    c.positions c.id ≠ [] ∧ ∃ t, c.Shaped rules t ∧ phase = .expanding t

/-- The blocks that the download has asked for afterwards. -/
def Asks (rules : Rules) (c : Prospect) (id : BlockId) : Prop :=
  id ∈ c.download.descendants ∨ ∃ ix, c.Reaches rules id ix

/-- `d` is the download afterwards, but for what is outstanding. -/
structure Becomes (rules : Rules) (c : Prospect) (d : Download) : Prop where
  tag : d.tag = c.download.tag
  session : d.session = c.download.session
  phase : c.Enters rules d.phase
  descendants : ∀ id, id ∈ d.descendants ↔ c.Asks rules id

theorem Shaped.unique (h : c.Shaped rules t) (h' : c.Shaped rules t') : t = t' := by
  rcases h with hp | ⟨hp, block, hdecode, hroot⟩ <;> rcases h' with hp' | ⟨hp', block', hdecode', hroot'⟩
  · exact DownloadPhase.expanding.inj (hp.symm.trans hp')
  · rw [hp] at hp'
    cases hp'
  · rw [hp] at hp'
    cases hp'
  · obtain rfl := Except.ok.inj (hdecode.symm.trans hdecode')
    exact Except.ok.inj (hroot.symm.trans hroot')

/-- Nothing is reached where nobody awaits the block. -/
theorem Reaches.awaited (h : c.Reaches rules id ix) : c.positions c.id ≠ [] := by
  induction h with
  | here hix => exact List.ne_nil_of_mem hix
  | link _ _ _ _ _ ih => exact ih

theorem Enters.unique {phase phase' : DownloadPhase} (h : c.Enters rules phase) (h' : c.Enters rules phase') :
    phase = phase' := by
  rcases h with ⟨hnone, hp⟩ | ⟨hsome, t, ht, hp⟩ <;> rcases h' with ⟨hnone', hp'⟩ | ⟨hsome', t', ht', hp'⟩
  · exact hp.trans hp'.symm
  · exact absurd hnone hsome'
  · exact absurd hnone' hsome
  · rw [hp, hp', ht.unique ht']

/-- The download afterwards is decided. -/
theorem Becomes.unique {d d' : Download} (h : c.Becomes rules d) (h' : c.Becomes rules d')
    (hcount : d.outstanding = d'.outstanding) : d = d' := by
  have htag := h.tag.trans h'.tag.symm
  have hsession := h.session.trans h'.session.symm
  have hphase := h.phase.unique h'.phase
  have hdescendants : d.descendants = d'.descendants :=
    Std.ExtTreeSet.ext_mem fun id => (h.descendants id).trans (h'.descendants id).symm
  obtain ⟨tag, session, phase, descendants, outstanding⟩ := d
  obtain ⟨tag', session', phase', descendants', outstanding'⟩ := d'
  dsimp only at htag hsession hphase hdescendants hcount
  rw [htag, hsession, hphase, hdescendants, hcount]

/-- A block that the download waited for, and that is not the one that comes in, is not there. -/
theorem not_view_of_mem (h : ix ∈ c.positions id) (hne : id ≠ c.id) (raw : Bytes) : c.stored.view id ≠ .ok raw := by
  intro hv
  rcases MemoryStore.holds_put_iff.1 (MemoryStore.holds_iff.2 ⟨raw, hv⟩) with hholds | heq
  · exact c.missing (List.ne_nil_of_mem h) hholds
  · exact hne heq

end Prospect

open Prospect

variable {c : Prospect}

/-! ## While the block is handled -/

/-- What is handled is from the store, or is the block, the only one from the network; and the store
has what it had, and nothing more but the block. -/
structure Supply (c : Prospect) (σ : Stage) (r : Run (MemoryStore × ν)) : Prop where
  least : c.store.Le r.world.1
  most : ∀ {id raw}, r.world.1.view id = .ok raw → c.stored.view id = .ok raw
  arrival : ∀ a ∈ σ.queue, a.received = true → a = c.arrival

namespace Supply

/-- Where no block is put into the store or comes in. -/
theorem carry (h : Supply c σ r) (hle : r.world.1.Le r'.world.1)
    (hview : ∀ {id raw}, r'.world.1.view id = .ok raw → r.world.1.view id = .ok raw)
    (hqueue : ∀ a ∈ σ'.queue, a ∈ σ.queue ∨ a.received = false) : Supply c σ' r' := by
  refine ⟨h.least.trans hle, fun hv => h.most (hview hv), ?_⟩
  intro a ha hc
  rcases hqueue a ha with ha | hnot
  · exact h.arrival a ha hc
  · rw [hc] at hnot
    cases hnot

theorem step (h : Supply c σ r) (hs : Step (World.over MemoryStore.operations N) rules σ r σ' r') : Supply c σ' r' := by
  have hle : r.world.1.Le r'.world.1 := hs.le (World.over_memoryLike N)
  cases hs with
  | logged | arranged | asked | announced | missed | expanded | orphaned | fetched | settled | released | broke | spared
  | finished => exact h.carry hle (fun hv => hv) fun a ha => .inl ha
  | discarded => exact h.carry hle (fun hv => hv) fun a ha => .inl (List.mem_cons_of_mem _ ha)
  | refused other =>
    refine h.carry hle (fun hv => ?_) fun a ha => .inl ha
    rwa [← MemoryStore.view_setStatus r.world.1 other .part]
  | found j raw =>
    refine h.carry hle (fun hv => hv) fun a ha => ?_
    rcases List.mem_append.1 ha with ha | ha
    · exact .inl ha
    · rw [List.mem_singleton.1 ha]
      exact .inr rfl
  | completed other d =>
    refine h.carry hle (fun hv => ?_) fun a ha => .inl ha
    rw [dismiss_world, mark_world] at hv
    rwa [← MemoryStore.view_setStatus r.world.1 other .full]
  | judged a awaiting p =>
    refine ⟨h.least.trans hle, ?_, fun b hb => h.arrival b (List.mem_cons_of_mem _ hb)⟩
    intro j raw hv
    rcases take_mem (World.over_memoryLike N) rules a awaiting p r with hw | ⟨hc, hw⟩
    · rw [hw] at hv
      exact h.most hv
    · obtain rfl := h.arrival a List.mem_cons_self hc
      rw [hw, MemoryStore.view_put_eq_ok_iff] at hv
      rcases hv with hv | ⟨rfl, rfl, hn⟩
      · exact h.most hv
      · exact MemoryStore.view_put_eq_ok_iff.2 (.inr ⟨rfl, rfl, fun hholds => hn (h.least.holds hholds)⟩)

/-- A block that is judged is there when the block has come in. -/
theorem view_of_mem (h : Supply c σ r) (hi : Intact rules Delivers start σ r) {a : Arrival} (ha : a ∈ σ.queue)
    (hp : r.state.pending.Has a.id) : c.stored.view a.id = .ok a.raw := by
  cases hc : a.received with
  | false => exact h.most (hi.stock.resident a ha hc)
  | true =>
    have hnot := hi.sought.not_holds ha hc hp
    obtain rfl := h.arrival a ha hc
    exact MemoryStore.view_put_eq_ok_iff.2 (.inr ⟨rfl, rfl, fun hholds => hnot (h.least.holds hholds)⟩)

end Supply

/-- The store has `raw` as the block `id`, which the download `d` asked for. -/
def Obtained (r : Run (MemoryStore × ν)) (d : Download) (id : BlockId) (raw : Bytes) : Prop :=
  r.world.1.view id = .ok raw ∧ id ∈ d.descendants

/-- Where the download `d` of `root` stands while the block is handled: it has the block or is yet to be
judged by it, and of what it is to reach, every position was filled or is open. -/
structure Tracks (rules : Rules) (c : Prospect) (root : RootId) (σ : Stage) (r : Run (MemoryStore × ν))
    (d : Download) : Prop where
  tag : d.tag = c.download.tag
  session : d.session = c.download.session
  phase : c.arrival ∈ σ.queue ∧ d.phase = c.download.phase ∧
      r.state.pending.positions c.id root = c.positions c.id ∨
    c.Enters rules d.phase ∧ (c.positions c.id ≠ [] → r.world.1.view c.id = .ok c.raw)
  within : ∀ {id ix}, Open σ.owed r.state root id ix → ix ∈ c.positions id ∧ id ≠ c.id ∨ c.Reaches rules id ix
  rest : ∀ {id ix}, ix ∈ c.positions id → id ≠ c.id → Open σ.owed r.state root id ix
  grown : ∀ {t ix}, c.Shaped rules t → ix ∈ c.positions c.id →
    Grown t (Obtained r d) (Open σ.owed r.state root) c.id ix
  asked : ∀ {id}, id ∈ d.descendants → c.Asks rules id
  kept : ∀ {id}, id ∈ c.download.descendants → id ∈ d.descendants

namespace Tracks

variable {d d' : Download}

/-- Where the download is open at the same positions, and has asked for no block but at those. -/
theorem carry (h : Tracks rules c root σ r d) (hd : d'.tag = d.tag ∧ d'.session = d.session ∧ d'.phase = d.phase)
    (hopen : ∀ id ix, Open σ'.owed r'.state root id ix ↔ Open σ.owed r.state root id ix)
    (hview : ∀ {id raw}, r.world.1.view id = .ok raw → r'.world.1.view id = .ok raw)
    (harrival : c.arrival ∈ σ.queue → r.state.pending.positions c.id root = c.positions c.id →
      c.arrival ∈ σ'.queue ∧ r'.state.pending.positions c.id root = c.positions c.id ∨ c.positions c.id = [])
    (hmore : ∀ {id}, id ∈ d.descendants → id ∈ d'.descendants)
    (hnew : ∀ {id}, id ∈ d'.descendants → id ∈ d.descendants ∨ ∃ ix, Open σ.owed r.state root id ix) :
    Tracks rules c root σ' r' d' := by
  obtain ⟨htag, hsession, hphase⟩ := hd
  refine ⟨htag.trans h.tag, hsession.trans h.session, ?_, fun ho => h.within ((hopen _ _).1 ho),
    fun hix hne => (hopen _ _).2 (h.rest hix hne), ?_, ?_, fun hid => hmore (h.kept hid)⟩
  · rw [hphase]
    rcases h.phase with ⟨hin, hsame, hpos⟩ | ⟨henters, hhas⟩
    · rcases harrival hin hpos with ⟨hin', hpos'⟩ | hnone
      · exact .inl ⟨hin', hsame, hpos'⟩
      · exact .inr ⟨.inl ⟨hnone, hsame⟩, fun hsome => absurd hnone hsome⟩
    · exact .inr ⟨henters, fun hsome => hview (hhas hsome)⟩
  · intro t ix ht hix
    exact (h.grown ht hix).fill (fun id raw hk => ⟨hview hk.1, hmore hk.2⟩) fun id ix ho => .missing ((hopen _ _).2 ho)
  · intro id hid
    rcases hnew hid with hid | ⟨ix, ho⟩
    · exact h.asked hid
    · rcases h.within ho with ⟨hix, -⟩ | hreach
      · exact .inl (c.asked (List.ne_nil_of_mem hix))
      · exact .inr ⟨ix, hreach⟩

/-- Where the download stays as it is. -/
theorem same (h : Tracks rules c root σ r d)
    (hopen : ∀ id ix, Open σ'.owed r'.state root id ix ↔ Open σ.owed r.state root id ix)
    (hview : ∀ {id raw}, r.world.1.view id = .ok raw → r'.world.1.view id = .ok raw)
    (harrival : c.arrival ∈ σ.queue → r.state.pending.positions c.id root = c.positions c.id →
      c.arrival ∈ σ'.queue ∧ r'.state.pending.positions c.id root = c.positions c.id ∨ c.positions c.id = []) :
    Tracks rules c root σ' r' d :=
  h.carry ⟨rfl, rfl, rfl⟩ hopen hview harrival id .inl

section Judging

variable {q : List Arrival} {w : List BlockId} {a : Arrival} {awaiting : Awaiting} {p : Pass}

/-- A block is awaited where the download is to reach it. -/
theorem reaches (h : Tracks rules c root ⟨a :: q, [], w, [], []⟩ r d) (hv : c.stored.view a.id = .ok a.raw)
    (hix : ix ∈ r.state.pending.positions a.id root) : c.Reaches rules a.id ix := by
  rcases h.within (.inl hix) with ⟨hmem, hne⟩ | hreach
  · exact absurd hv (Prospect.not_view_of_mem hmem hne a.raw)
  · exact hreach

/-- The shape that decides on a block that is awaited is the one that the tree has by then, or takes. -/
theorem shaped_iff (h : Tracks rules c root ⟨a :: q, [], w, [], []⟩ r d)
    (hi : Intact rules Delivers start ⟨a :: q, [], w, [], []⟩ r) (hreach : c.positions c.id ≠ []) {block : Block}
    (hdecode : Block.decode a.raw = .ok block) {t : Schema} : c.Shaped rules t ↔
      d.phase = .expanding t ∨ d.phase = .requested ∧ Judgement.rootSchema rules d.tag block.data = .ok t := by
  rcases h.phase with ⟨hin, hsame, -⟩ | ⟨henters, -⟩
  · -- the block itself is judged
    obtain rfl := hi.sought.eq_of_received hin rfl
    rw [hsame, h.tag, Shaped]
    refine or_congr_right (and_congr_right fun _ => ⟨?_, fun hroot => ⟨block, hdecode, hroot⟩⟩)
    rintro ⟨block', hdecode', hroot⟩
    obtain rfl := Except.ok.inj (hdecode.symm.trans hdecode')
    exact hroot
  · rcases henters with ⟨hnone, -⟩ | ⟨-, t', ht', hphase⟩
    · exact absurd hnone hreach
    · rw [hphase]
      constructor
      · intro ht
        rw [ht.unique ht']
        exact .inl rfl
      · rintro (heq | ⟨heq, -⟩)
        · rw [← DownloadPhase.expanding.inj heq]
          exact ht'
        · cases heq

/-- A root that a block proves malformed reaches it at a position where it does not open. -/
theorem rejected (h : Tracks rules c root ⟨a :: q, [], w, [], []⟩ r d)
    (hi : Intact rules Delivers start ⟨a :: q, [], w, [], []⟩ r) (hv : c.stored.view a.id = .ok a.raw)
    (ha : r.state.pending.get? a.id = some awaiting) (W : World (MemoryStore × ν))
    (hd : r.state.roots.get? root = some d) (hne : r.state.pending.positions a.id root ≠ []) {e : FormatError}
    (hm : (root, e) ∈ (Pass.take W rules a awaiting p r).1.malformed) : c.Rejected rules := by
  by_contra hnot
  have hopens : ∀ ix ∈ r.state.pending.positions a.id root, ∃ t block, c.Shaped rules t ∧
      Join.openBlock t ix a.raw = .ok block := by
    intro ix hix
    by_contra hno
    exact hnot ⟨a.id, ix, a.raw, h.reaches hv hix, hv, fun t block ht ho => hno ⟨t, block, ht, ho⟩⟩
  obtain ⟨ix₀, hix₀⟩ := List.exists_mem_of_ne_nil _ hne
  obtain ⟨t, block, ht, ho⟩ := hopens ix₀ hix₀
  have hdecode := (Join.openBlock_eq_ok_iff.1 ho).1
  have hall : ∀ ix ∈ r.state.pending.positions a.id root, Join.openBlock t ix a.raw = .ok block := by
    intro ix hix
    obtain ⟨t', block', ht', ho'⟩ := hopens ix hix
    obtain rfl := Except.ok.inj (hdecode.symm.trans (Join.openBlock_eq_ok_iff.1 ho').1)
    rwa [ht.unique ht']
  exact hi.books.not_malformed ha W p hd hall ((h.shaped_iff hi (h.reaches hv hix₀).awaited hdecode).1 ht) e hm

/-- Where a block fills all the positions that await it, and those that it links to are open. -/
theorem fill (h : Tracks rules c root ⟨a :: q, [], w, [], []⟩ r d)
    (hi : Intact rules Delivers start ⟨a :: q, [], w, [], []⟩ r) (hv : c.stored.view a.id = .ok a.raw)
    (hd : r.state.roots.get? root = some d) (hne : r.state.pending.positions a.id root ≠ []) {t : Schema}
    {block : Block} (ht : c.Shaped rules t)
    (hblock : ∀ ix ∈ r.state.pending.positions a.id root, Join.openBlock t ix a.raw = .ok block)
    (hphase : d' = { d with phase := .expanding t, outstanding := d'.outstanding })
    (hle : r.world.1.Le r'.world.1) (hview : r'.world.1.view a.id = .ok a.raw)
    (hopen : ∀ {id ix}, Open σ'.owed r'.state root id ix ↔ ix ∈ r.state.pending.positions id root ∧ id ≠ a.id ∨
      ∃ j ∈ r.state.pending.positions a.id root, (ix, id) ∈ Join.linked t j block.links) :
    Tracks rules c root σ' r' d' := by
  obtain ⟨ix₀, hix₀⟩ := List.exists_mem_of_ne_nil _ hne
  have hsome := (h.reaches hv hix₀).awaited
  have hasked := hi.books.asked hd hne
  rw [hphase]
  refine ⟨h.tag, h.session, .inr ⟨.inr ⟨hsome, t, ht, rfl⟩, fun _ => ?_⟩, ?_, ?_, ?_, h.asked, h.kept⟩
  · rcases h.phase with ⟨hin, -⟩ | ⟨-, hhas⟩
    · obtain rfl := hi.sought.eq_of_received hin rfl
      exact hview
    · exact hle.view (hhas hsome)
  · intro id ix ho
    rcases hopen.1 ho with ⟨ho, -⟩ | ⟨j, hj, hl⟩
    · exact h.within (.inl ho)
    · exact .inr (.link (h.reaches hv hj) hv ht (hblock j hj) hl)
  · intro id ix hix hother
    rcases h.rest hix hother with ho | ho
    · refine hopen.2 (.inl ⟨ho, ?_⟩)
      rintro rfl
      exact Prospect.not_view_of_mem hix hother a.raw hv
    · cases ho
  · intro t' ix ht' hix
    obtain rfl := ht.unique ht'
    refine (h.grown ht hix).fill (fun id raw hk => ⟨hle.view hk.1, hk.2⟩) ?_
    -- the positions that awaited the block have it now, and their children are open
    rintro id j (ho | ho)
    · by_cases heq : id = a.id
      · subst heq
        exact .block ⟨hview, hasked⟩ (hblock j ho) fun e he => .missing (hopen.2 (.inr ⟨j, ho, he⟩))
      · exact .missing (hopen.2 (.inl ⟨ho, heq⟩))
    · cases ho

/-- A judged block fills the positions that await it, and opens those that it links to. -/
theorem take (h : Tracks rules c root ⟨a :: q, [], w, [], []⟩ r d)
    (hi : Intact rules Delivers start ⟨a :: q, [], w, [], []⟩ r) (hv : c.stored.view a.id = .ok a.raw)
    (ha : r.state.pending.get? a.id = some awaiting) (hd : r.state.roots.get? root = some d)
    (hf : Pass.Fate rules a.raw (Pass.take (World.over MemoryStore.operations N) rules a awaiting p r).1 root
      (r.state.pending.positions a.id root) d d')
    (hspared : ∀ e, (root, e) ∉ (Pass.take (World.over MemoryStore.operations N) rules a awaiting p r).1.malformed) :
    Tracks rules c root
      ⟨q, [], w, (Pass.take (World.over MemoryStore.operations N) rules a awaiting p r).1.children,
        (Pass.take (World.over MemoryStore.operations N) rules a awaiting p r).1.malformed⟩
      (Pass.take (World.over MemoryStore.operations N) rules a awaiting p r).2.2 d' := by
  have hle := take_le (World.over_memoryLike N) rules a awaiting p r
  have hstored : (Pass.take (World.over MemoryStore.operations N) rules a awaiting p r).1.validated ≠ [] → _ :=
    hi.sought.view_take hi.stock ha
  have hpending := Pass.take_pending (World.over MemoryStore.operations N) rules a awaiting p r
  generalize (Pass.take (World.over MemoryStore.operations N) rules a awaiting p r).1 = v at *
  generalize (Pass.take (World.over MemoryStore.operations N) rules a awaiting p r).2.2 = r' at *
  have hpositions : ∀ {id ix}, ix ∈ r'.state.pending.positions id root ↔
      ix ∈ r.state.pending.positions id root ∧ id ≠ a.id := by
    rw [hpending]
    exact PendingIndex.mem_positions_without
  cases hf with
  | passed hnone hchildren =>
    have hopen : ∀ id ix, Open v.children r'.state root id ix ↔ Open [] r.state root id ix := by
      intro id ix
      constructor
      · exact fun ho => .inl (hpositions.1 (positions_of_open hchildren ho)).1
      · intro ho
        have hix := positions_of_open rfl ho
        refine .inl (hpositions.2 ⟨hix, ?_⟩)
        rintro rfl
        rw [hnone] at hix
        cases hix
    refine h.same hopen hle.view ?_
    intro hin hpos
    obtain rfl := hi.sought.eq_of_received hin rfl
    exact .inr (hpos.symm.trans hnone)
  | broken e _ hm => exact absurd hm (hspared e)
  | grown block t hne hblock hphase hchildren hval =>
    obtain ⟨ix₀, hix₀⟩ := List.exists_mem_of_ne_nil _ hne
    have hdecode := (Join.openBlock_eq_ok_iff.1 (hblock ix₀ hix₀)).1
    have ht := (h.shaped_iff hi (h.reaches hv hix₀).awaited hdecode).2 hphase
    have hsize := (hi.books.small_of_phase hd hphase).2
    refine h.fill hi hv hd hne ht hblock rfl hle (hstored (List.ne_nil_of_mem hval)) ?_
    intro id ix
    exact or_congr hpositions (Pass.mem_children_iff_linked hsize hchildren)

end Judging

end Tracks

/-! ## When no block is left to be handled -/

namespace Tracks

variable {d : Download} {w : List BlockId}
variable (h : Tracks rules c root ⟨[], [], w, [], []⟩ r d) (hi : Intact rules Delivers start ⟨[], [], w, [], []⟩ r)
variable (hsupply : Supply c ⟨[], [], w, [], []⟩ r)

include h hsupply

/-- What the download reaches of the store with the block is there. -/
theorem holds (hreach : c.Reaches rules id ix) (hholds : c.stored.Holds id) : r.world.1.Holds id := by
  rcases MemoryStore.holds_put_iff.1 hholds with hbefore | rfl
  · exact hsupply.least.holds hbefore
  · rcases h.phase with ⟨hin, -⟩ | ⟨-, hhas⟩
    · cases hin
    · exact MemoryStore.holds_iff.2 ⟨c.raw, hhas hreach.awaited⟩

include hi

/-- Where the download is to reach a block and is open, the block is not there. -/
theorem not_stored (hreach : c.Reaches rules id ix) (ho : Open [] r.state root id ix) : ¬ c.stored.Holds id := by
  intro hholds
  rcases ho with hix | hnone
  · have hp : r.state.pending.Has id := PendingIndex.has_of_positions (List.ne_nil_of_mem hix)
    exact hi.sought.not_holds_of_idle hp (h.holds hsupply hreach hholds)
  · cases hnone

/-- All that the download reaches is grown. -/
theorem grown_of_reaches (hreach : c.Reaches rules id ix) :
    ∃ t, c.Shaped rules t ∧ Grown t (Obtained r d) (Open [] r.state root) id ix := by
  induction hreach with
  | here hix =>
    rcases h.phase with ⟨hin, -⟩ | ⟨⟨hnone, -⟩ | ⟨-, t, ht, -⟩, -⟩
    · cases hin
    · rw [hnone] at hix
      cases hix
    · exact ⟨t, ht, h.grown ht hix⟩
  | link hreach hv ht ho he ih =>
    obtain ⟨t', ht', hgrown⟩ := ih
    obtain rfl := ht.unique ht'
    cases hgrown with
    | missing hopen =>
      exact absurd (MemoryStore.holds_iff.2 ⟨_, hv⟩) (h.not_stored hi hsupply hreach hopen)
    | block hobtained ho' hbelow =>
      -- it is the block that the store has, so it links to the same
      obtain rfl := Except.ok.inj (hv.symm.trans (hsupply.most hobtained.1))
      obtain rfl := Except.ok.inj (ho.symm.trans ho')
      exact ⟨_, ht, hbelow _ he⟩

/-- The download waits for what its prospect says. -/
theorem mem_positions_iff (id : BlockId) (ix : Nat) :
    ix ∈ r.state.pending.positions id root ↔ c.Leaves rules id ix := by
  have hpositions : Open [] r.state root id ix → ix ∈ r.state.pending.positions id root := positions_of_open rfl
  constructor
  · intro hix
    exact (h.within (.inl hix)).imp_right fun hreach => ⟨hreach, h.not_stored hi hsupply hreach (.inl hix)⟩
  · rintro (⟨hix, hne⟩ | ⟨hreach, hnot⟩)
    · exact hpositions (h.rest hix hne)
    · obtain ⟨t, -, hgrown⟩ := h.grown_of_reaches hi hsupply hreach
      cases hgrown with
      | missing hopen => exact hpositions hopen
      | block hobtained => exact absurd (MemoryStore.holds_iff.2 ⟨_, hsupply.most hobtained.1⟩) hnot

/-- A download that goes on was not rejected. -/
theorem not_rejected : ¬ c.Rejected rules := by
  rintro ⟨id, ix, raw, hreach, hv, hno⟩
  obtain ⟨t, ht, hgrown⟩ := h.grown_of_reaches hi hsupply hreach
  cases hgrown with
  | missing hopen => exact h.not_stored hi hsupply hreach hopen (MemoryStore.holds_iff.2 ⟨raw, hv⟩)
  | block hobtained ho =>
    obtain rfl := Except.ok.inj (hv.symm.trans (hsupply.most hobtained.1))
    exact hno t _ ht ho

theorem becomes (hd : r.state.roots.get? root = some d) : c.Becomes rules d := by
  refine ⟨h.tag, h.session, ?_, fun id => ⟨h.asked, ?_⟩⟩
  · rcases h.phase with ⟨hin, -⟩ | ⟨henters, -⟩
    · cases hin
    · exact henters
  · rintro (hid | ⟨ix, hreach⟩)
    · exact h.kept hid
    · obtain ⟨t, -, hgrown⟩ := h.grown_of_reaches hi hsupply hreach
      cases hgrown with
      | missing hopen => exact hi.books.asked hd (List.ne_nil_of_mem (positions_of_open rfl hopen))
      | block hobtained => exact hobtained.2

end Tracks

/-! ## Step by step -/

/-- The download of `root` stands where it should, if it is in flight and not proved malformed. -/
def Tracked (rules : Rules) (c : Prospect) (root : RootId) (σ : Stage) (r : Run (MemoryStore × ν)) : Prop :=
  ∀ d, r.state.roots.get? root = some d → (∀ e, (root, e) ∉ σ.doomed) → Tracks rules c root σ r d

/-- `root` is marked only if nothing is left for it, and proved malformed only if it is rejected. -/
structure Prospect.Bears (rules : Rules) (c : Prospect) (root : RootId) (m : Moment (MemoryStore × ν)) : Prop where
  completes : m.Completes root → (∀ id ix, ¬ c.Leaves rules id ix) ∧ ¬ c.Rejected rules
  dooms : m.Dooms root → c.Rejected rules

theorem Prospect.bears_of {m : Moment (MemoryStore × ν)} (hm : ∀ root outcome, m.effect ≠ .marked root outcome)
    (hj : ∀ id awaiting verdict, m.effect ≠ .judged id awaiting verdict) : c.Bears rules root m := by
  constructor
  · rintro ⟨outcome, d, he, -⟩
    exact absurd he (hm root outcome)
  · rintro ⟨⟨id, awaiting, verdict, e, he, -⟩, -⟩
    exact absurd he (hj id awaiting verdict)

namespace Tracked

theorem step (hi : Intact rules Delivers start σ r) (hsupply : Supply c σ r) (h : Tracked rules c root σ r)
    (hs : Step (World.over MemoryStore.operations N) rules σ r σ' r') : Tracked rules c root σ' r' := by
  have hle : r.world.1.Le r'.world.1 := hs.le (World.over_memoryLike N)
  cases hs with
  | logged | arranged | asked | announced | refused | missed | fetched | settled | broke | finished =>
    exact fun d hd hdoomed => (h d hd hdoomed).same (fun _ _ => .rfl) hle.view fun hin hpos => .inl ⟨hin, hpos⟩
  | found j raw =>
    intro d hd hdoomed
    exact (h d hd hdoomed).same (fun _ _ => .rfl) hle.view fun hin hpos => .inl ⟨List.mem_append_left _ hin, hpos⟩
  | discarded a hn =>
    intro d hd hdoomed
    refine (h d hd hdoomed).same (fun _ _ => .rfl) hle.view fun hin hpos => ?_
    rcases List.mem_cons.1 hin with rfl | hin
    · -- nobody awaits the block
      refine .inr (hpos.symm.trans ?_)
      by_contra hne
      exact hn (PendingIndex.has_of_positions hne)
    · exact .inl ⟨hin, hpos⟩
  | judged a awaiting p ha =>
    intro d' hd' hspared
    obtain ⟨d, hd, hf⟩ := hi.books.fate ha _ p hd'
    have hp : r.state.pending.Has a.id := (PendingIndex.has_iff_get? _ _).2 ⟨awaiting, ha⟩
    have hv := hsupply.view_of_mem hi List.mem_cons_self hp
    exact (h d hd (by simp)).take hi hv ha hd hf hspared
  | @expanded q w o r child d₀ hd₀ =>
    intro d hd hdoomed
    -- nothing is from the network where children are owed
    have hnot : c.arrival ∉ q := by
      intro hin
      have := hi.sought.received_eq_false hin (.inr (List.cons_ne_nil child o))
      cases this
    rcases Table.get?_insert_eq_some_iff.1 hd with ⟨rfl, rfl⟩ | ⟨hne, hd⟩
    · refine (h d₀ hd₀ (by simp)).carry ⟨rfl, rfl, rfl⟩ (fun _ _ => open_await) hle.view
        (fun hin => absurd hin hnot) (fun hid => Std.ExtTreeSet.mem_insert.2 (.inr hid)) ?_
      intro j hj
      rcases Std.ExtTreeSet.mem_insert.1 hj with heq | hj
      · obtain rfl : child.id = j := Std.LawfulEqCmp.compare_eq_iff_eq.1 heq
        exact .inr ⟨child.position, .inr List.mem_cons_self⟩
      · exact .inl hj
    · exact (h d hd (by simp)).same (fun _ _ => open_await) hle.view fun hin => absurd hin hnot
  | orphaned child hn =>
    intro d hd hdoomed
    have hne : child.root ≠ root := by
      rintro rfl
      rw [hn] at hd
      cases hd
    exact (h d hd hdoomed).same (fun _ _ => (open_cons_of_ne hne).symm) hle.view fun hin hpos => .inl ⟨hin, hpos⟩
  | released other e =>
    intro d hd hdoomed
    obtain ⟨hne, hd⟩ := get?_of_dismiss hd
    refine (h d hd hdoomed).same (fun _ _ => open_dismiss hne) hle.view fun hin hpos => .inl ⟨hin, ?_⟩
    rw [dismiss_pending, PendingIndex.positions_removeRoot, if_neg fun hc => hne hc.1]
    exact hpos
  | spared hout =>
    intro d hd _
    refine (h d hd fun e he => hout _ he ?_).same (fun _ _ => .rfl) hle.view fun hin hpos => .inl ⟨hin, hpos⟩
    rw [State.InFlight, Table.has_iff_get?, hd]
    rfl
  | completed other e =>
    intro d hd hdoomed
    obtain ⟨hne, hd⟩ := get?_of_dismiss hd
    rw [mark_state] at hd
    refine (h d hd hdoomed).same (fun _ _ => ?_) hle.view fun hin => by cases hin
    rw [open_dismiss hne, mark_state]

/-- A moment of a step bears out the prospect. -/
theorem adds (hi : Intact rules Delivers start σ r) (hsupply : Supply c σ r) (h : Tracked rules c root σ r)
    (hs : Step (World.over MemoryStore.operations N) rules σ r σ' r') : Run.Adds (c.Bears rules root) r r' := by
  cases hs with
  | logged | broke | finished => exact .emit (Prospect.bears_of (by simp) (by simp))
  | arranged | asked | refused | found | missed | discarded | orphaned | settled | spared => exact .refl rfl
  | announced => exact .trans (.refl rfl) (.emit (Prospect.bears_of (by simp) (by simp)))
  | expanded child d => exact await_adds _ _ _ (Prospect.bears_of (by simp) (by simp))
  | fetched => exact .cons rfl (Prospect.bears_of (by simp) (by simp))
  | released other d => exact dismiss_adds _ _ _ (Prospect.bears_of (by simp) (by simp))
  | @completed w r other d hd hc =>
    refine (mark_adds _ _ _ ⟨?_, ?_⟩ fun e => Prospect.bears_of (by simp) (by simp)).trans
      (dismiss_adds _ _ _ (Prospect.bears_of (by simp) (by simp)))
    · rintro ⟨_, d', ⟨⟩, hd', hc'⟩
      have htracks := h d' hd' (by simp)
      refine ⟨fun id ix hleaves => ?_, htracks.not_rejected hi hsupply⟩
      have hix := (htracks.mem_positions_iff hi hsupply id ix).2 hleaves
      rw [(hi.books.complete_iff hd').1 hc'] at hix
      cases hix
    · rintro ⟨⟨_, _, _, _, he, -⟩, -⟩
      cases he
  | judged a awaiting p ha =>
    obtain ⟨s, stored, htrace, hstored, -⟩ := hi.books.take_trace ha (World.over MemoryStore.operations N) p
    refine ⟨_, htrace.trans (List.append_cons _ _ _), ?_⟩
    intro m hm
    rcases List.mem_append.1 hm with hm | hm
    · obtain ⟨⟨e, he⟩, -⟩ := hstored m hm
      exact Prospect.bears_of (by simp [he]) (by simp [he])
    rw [List.mem_singleton.1 hm]
    constructor
    · rintro ⟨_, _, he, -⟩
      cases he
    · rintro ⟨⟨_, _, _, e, ⟨⟩, hmal⟩, -⟩
      have hmem := hmal
      rw [Pass.take_verdict (hi.books.pending _ _ ha).nodup] at hmem
      obtain ⟨positions, hmem⟩ := Verdict.mem_awaiting_of_malformed hmem
      obtain ⟨hne, hpos, d, hd⟩ := hi.books.of_mem_awaiting ha
        (((World.over MemoryStore.operations N).arrange_perm awaiting r.world).mem_iff.1 hmem)
      have hp : r.state.pending.Has a.id := (PendingIndex.has_iff_get? _ _).2 ⟨awaiting, ha⟩
      have hv := hsupply.view_of_mem hi List.mem_cons_self hp
      exact (h d hd (by simp)).rejected hi hv ha _ hd (hpos.symm ▸ hne) hmal

end Tracked

/-- What holds of a handler at work on the block, for `root`. -/
structure Handling (rules : Rules) (Delivers : Bytes → Prop) (start : MemoryStore) (c : Prospect) (root : RootId)
    (r₀ : Run (MemoryStore × ν)) (σ : Stage) (r : Run (MemoryStore × ν)) : Prop where
  intact : Intact rules Delivers start σ r
  supply : Supply c σ r
  tracked : Tracked rules c root σ r
  adds : Run.Adds (c.Bears rules root) r₀ r

theorem Handling.leads {r₀ : Run (MemoryStore × ν)} (h : Handling rules Delivers start c root r₀ σ r)
    (hl : Leads (World.over MemoryStore.operations N) rules σ r σ' r') :
    Handling rules Delivers start c root r₀ σ' r' := by
  induction hl with
  | refl => exact h
  | tail _ hs ih =>
    exact ⟨ih.intact.step hs, ih.supply.step hs, ih.tracked.step ih.intact ih.supply hs,
      ih.adds.trans (ih.tracked.adds ih.intact ih.supply hs)⟩

/-! ## From the first step to the last -/

/-- `c` is the prospect of `root` here. -/
structure Prospect.Of (c : Prospect) (root : RootId) (r : Run (MemoryStore × ν)) : Prop where
  download : r.state.roots.get? root = some c.download
  positions : ∀ id, r.state.pending.positions id root = c.positions id
  store : r.world.1 = c.store

/-- Between events, every download has a prospect for every block. -/
theorem Intact.exists_prospect (h : Intact rules Delivers start .idle r) {d : Download}
    (hd : r.state.roots.get? root = some d) (id : BlockId) (raw : Bytes) :
    ∃ c : Prospect, c.arrival = ⟨id, raw, true⟩ ∧ c.Of root r := by
  have hmissing : ∀ {j}, r.state.pending.positions j root ≠ [] → ¬ r.world.1.Holds j :=
    fun hne => h.sought.not_holds_of_idle (PendingIndex.has_of_positions hne)
  exact ⟨⟨d, fun j => r.state.pending.positions j root, r.world.1, id, raw, h.books.asked hd, hmissing⟩, rfl, hd,
    fun _ => rfl, rfl⟩

/-- The block arrives. -/
theorem Prospect.Of.handling (hc : c.Of root r) (h : Intact rules Delivers start .idle r) (hn : c.id.Names c.raw)
    (hdelivers : Delivers c.raw) (N : Outside ν) :
    Handling rules Delivers start c root r ⟨[c.arrival], [], [], [], []⟩ r := by
  have hopening : Opening (World.over MemoryStore.operations N) Delivers r ⟨[c.arrival], [], [], [], []⟩ r :=
    .delivered c.id c.raw hn hdelivers
  refine ⟨h.opened hopening, ⟨?_, ?_, fun a ha _ => List.mem_singleton.1 ha⟩, ?_, .refl rfl⟩
  · rw [hc.store]
    exact .refl _
  · rw [hc.store]
    exact fun hv => (MemoryStore.le_put _ _ _).view hv
  · intro d hd _
    obtain rfl := Option.some.inj (hc.download.symm.trans hd)
    have hopen : ∀ {id ix}, Open [] r.state root id ix ↔ ix ∈ c.positions id := by
      intro id ix
      rw [← hc.positions]
      exact ⟨positions_of_open rfl, .inl⟩
    refine ⟨rfl, rfl, .inl ⟨List.mem_singleton_self _, rfl, hc.positions _⟩, ?_, fun hix _ => hopen.2 hix,
      fun _ hix => .missing (hopen.2 hix), .inl, fun hid => hid⟩
    intro id ix ho
    by_cases hid : id = c.id
    · subst hid
      exact .inr (.here (hopen.1 ho))
    · exact .inl ⟨hopen.1 ho, hid⟩

/-- The download goes on, and waits for what its prospect leaves. -/
structure Continues (rules : Rules) (c : Prospect) (root : RootId) (r r' : Run (MemoryStore × ν)) (d : Download) :
    Prop where
  download : r'.state.roots.get? root = some d
  becomes : c.Becomes rules d
  positions : ∀ id ix, ix ∈ r'.state.pending.positions id root ↔ c.Leaves rules id ix
  nodup : (r'.state.pending.waits root).Nodup
  leaves : ∃ id ix, c.Leaves rules id ix
  kept : ¬ c.Rejected rules
  news : newsOf root r'.trace = newsOf root r.trace

/-- What becomes of the download: it goes on if its prospect leaves something to wait for, it is complete
if that is nothing, or it is broken if it is rejected. -/
inductive Outcome (rules : Rules) (c : Prospect) (root : RootId) (r r' : Run (MemoryStore × ν)) : Prop
  | continues (d : Download) : Continues rules c root r r' d → Outcome rules c root r r'
  | completed : r'.state.roots.get? root = none → (∀ id ix, ¬ c.Leaves rules id ix) → ¬ c.Rejected rules →
      newsOf root r'.trace = .added root :: newsOf root r.trace → Outcome rules c root r r'
  | broken : r'.state.roots.get? root = none → c.Rejected rules →
      newsOf root r'.trace = .broken root :: newsOf root r.trace → Outcome rules c root r r'

/-- A pass over the block makes of a download what its prospect says, if every call is accepted. -/
theorem Prospect.Of.outcome (hc : c.Of root r) (h : Intact rules Delivers start .idle r) (hbusy : r.state.Busy)
    (hn : c.id.Names c.raw) (hdelivers : Delivers c.raw) (N : Outside ν)
    (haccepted : Run.Adds Moment.Accepted r
      (process (World.over MemoryStore.operations N) rules c.arrival r)) :
    Outcome rules c root r (process (World.over MemoryStore.operations N) rules c.arrival r) := by
  have hhandling := hc.handling h hn hdelivers N
  have hlead := process_leads (W := World.over MemoryStore.operations N) hhandling.intact.books
  have hbusy' := process_busy (W := World.over MemoryStore.operations N) rules c.arrival hbusy
  have hend := hhandling.leads hlead
  have hpasses := process_passes (World.over MemoryStore.operations N) root rules c.arrival r
  generalize process (World.over MemoryStore.operations N) rules c.arrival r = r' at *
  cases hpasses with
  | stays hstays =>
    have hin : r'.state.InFlight root := by
      rw [hstays.inFlight_iff, State.InFlight, Table.has_iff_get?, hc.download]
      rfl
    obtain ⟨d, hd⟩ := Option.isSome_iff_exists.1 ((Table.has_iff_get? _ _).1 hin)
    have htracks := hend.tracked d hd (by simp [Stage.idle])
    have hpositions := htracks.mem_positions_iff hend.intact hend.supply
    -- it is not complete, so it waits for something
    have hwaits : ¬ ∀ id, r'.state.pending.positions id root = [] :=
      fun hnone => hbusy' root d hd ((hend.intact.books.complete_iff hd).2 hnone)
    obtain ⟨id, hne⟩ := not_forall.1 hwaits
    obtain ⟨ix, hix⟩ := List.exists_mem_of_ne_nil _ hne
    have hleaves : c.Leaves rules id ix := (hpositions id ix).1 hix
    obtain ⟨new, htrace, haside⟩ := hstays.aside
    refine .continues d ⟨hd, htracks.becomes hend.intact hend.supply hd, hpositions,
      hend.intact.ledger.nodup_waits hend.intact.books hd, ⟨id, ix, hleaves⟩,
      htracks.not_rejected hend.intact hend.supply, ?_⟩
    rw [htrace, newsOf_aside_append haside]
  | departs hdeparts =>
    obtain ⟨new, htrace, hending, hall⟩ := hdeparts.ending.and_adds (hend.adds.and haccepted)
    have hout := State.not_inFlight_iff.1 hdeparts.after
    have hnews : newsOf root r'.trace = newsOf root new ++ newsOf root r.trace := by rw [htrace, newsOf_append]
    cases hending with
    | completed hadded hcompletes hspared =>
      obtain ⟨m, hm, hcompletes⟩ := hcompletes
      obtain ⟨hnothing, hkept⟩ := (hall m hm).1.completes hcompletes
      exact .completed hout hnothing hkept (by rw [hnews, hadded]; rfl)
    | malformed hbroken hdooms =>
      obtain ⟨m, hm, hdooms⟩ := hdooms
      exact .broken hout ((hall m hm).1.dooms hdooms) (by rw [hnews, hbroken]; rfl)
    | refused later m earlier _ heq hdenies =>
      obtain ⟨call, e, he, hrefused, -⟩ := hdenies
      have hm : m ∈ new := heq ▸ List.mem_append_right _ List.mem_cons_self
      have hok := (hall m hm).2
      unfold Moment.Accepted Effect.Accepted at hok
      rw [he] at hok
      dsimp only at hok
      rw [hrefused] at hok
      cases hok

end BlockDag.Downloader
