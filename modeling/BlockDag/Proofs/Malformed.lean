/-
What becomes of malformed trees. A root whose tree a block proves malformed is out of flight after the
event. It is reported as broken once, unless another root that is given up before it leaves blocks
behind for which both were waiting: where the call that asks for them again is refused, the root goes
out of flight without news.
-/
import BlockDag.Proofs.Lifecycle
import BlockDag.Proofs.Restart

namespace BlockDag.Downloader

variable {ω : Type} {W : World ω} {rules : Rules} {Delivers : Bytes → Prop} {world : ω}
variable {σ : Stage} {r r' : Run ω} {root : RootId}

/-! ## Only roots in flight are judged -/

/-- Every root that is judged malformed is in flight at the time. -/
theorem Reached.dooms (h : Reached W rules Delivers world σ r) :
    ∀ m ∈ r.trace, m.Condemns root → m.Dooms root := by
  have hstep : ∀ {r r' : Run ω}, Run.Adds (fun m => m.Condemns root → m.Dooms root) r r' →
      (∀ m ∈ r.trace, m.Condemns root → m.Dooms root) → ∀ m ∈ r'.trace, m.Condemns root → m.Dooms root :=
    fun hadds hall m hm => (hadds.mem hm).elim (hall m) id
  have hother : ∀ {m : Moment ω}, (∀ id awaiting verdict, m.effect ≠ .judged id awaiting verdict) →
      m.Condemns root → m.Dooms root := by
    rintro m hne ⟨_, _, _, _, he, -⟩
    exact absurd he (hne _ _ _)
  induction h with
  | start => simp
  | opened _ ho ih =>
    cases ho with
    | launched other tag timeout =>
      exact hstep (.trans (.refl rfl) (launch_adds other tag timeout _ (hother (by simp)) (hother (by simp))
        (hother (by simp)))) ih
    | delivered => exact ih
  | @step σ r σ' r' hr hs ih =>
    cases hs with
    | logged | broke | finished => exact hstep (.emit (hother (by simp))) ih
    | arranged | asked | refused | found | missed | discarded | orphaned | settled | spared => exact ih
    | announced => exact hstep (.trans (.refl rfl) (.emit (hother (by simp)))) ih
    | expanded child d => exact hstep (await_adds _ _ _ (hother (by simp))) ih
    | fetched => exact hstep (.cons rfl (hother (by simp))) ih
    | released other d => exact hstep (dismiss_adds _ _ _ (hother (by simp))) ih
    | completed other d =>
      exact hstep (.trans (mark_adds other r W (hother (by simp)) fun _ => hother (by simp))
        (dismiss_adds _ _ _ (hother (by simp)))) ih
    | judged a awaiting p ha =>
      obtain ⟨s, stored, htrace, hstored, hroots⟩ := hr.books.take_trace ha W p
      intro m hm hc
      rw [htrace] at hm
      rcases List.mem_append.1 hm with hm | hm
      · obtain ⟨⟨e, he⟩, -⟩ := hstored m hm
        exact hother (by simp [he]) hc
      rcases List.mem_cons.1 hm with rfl | hm
      · refine ⟨hc, ?_⟩
        obtain ⟨_, _, _, e, he, hmal⟩ := hc
        cases he
        rw [Pass.take_verdict (hr.books.pending _ _ ha).nodup] at hmal
        obtain ⟨positions, hm⟩ := Verdict.mem_awaiting_of_malformed hmal
        obtain ⟨-, -, d, hd⟩ := hr.books.of_mem_awaiting ha ((W.arrange_perm awaiting r.world).mem_iff.1 hm)
        change State.InFlight s root
        rw [State.InFlight, Table.has_iff_get?, hroots, hd]
        rfl
      · exact ih m hm hc

/-! ## What becomes of them -/

/-- A root that an event dooms is out of flight afterwards. It is reported as broken, or a call was
refused later that listed what it waited for. -/
structure Downfall (root : RootId) (later : List (Moment ω)) (m : Moment ω) (earlier : List (Moment ω))
    (after : State) : Prop where
  out : ¬ after.InFlight root
  news : newsOf root (later ++ m :: earlier) = [.broken root] ∨
    newsOf root (later ++ m :: earlier) = [] ∧ ∃ m' ∈ later, m'.Denies root

theorem Moment.Denies.not_dooms {m : Moment ω} (h : m.Denies root) : ¬ m.Dooms root := by
  obtain ⟨call, e, he, -⟩ := h
  rintro ⟨⟨_, _, _, _, hj, -⟩, -⟩
  rw [he] at hj
  cases hj

/-- Of the ways a download ends, two are left for a root that was doomed. -/
theorem Ending.downfall {later earlier : List (Moment ω)} {m : Moment ω} (h : Ending root (later ++ m :: earlier))
    (hd : m.Dooms root) : newsOf root (later ++ m :: earlier) = [.broken root] ∨
      newsOf root (later ++ m :: earlier) = [] ∧ ∃ m' ∈ later, m'.Denies root := by
  have hm : m ∈ later ++ m :: earlier := List.mem_append_right _ List.mem_cons_self
  cases h with
  | completed _ _ hspared => exact absurd hd (hspared m hm)
  | malformed hnews _ => exact .inl hnews
  | refused after m' before hnews heq hdenied hspared =>
    refine .inr ⟨hnews, m', ?_, hdenied⟩
    -- the refused call came after the judging, since nothing was judged after it
    rcases List.append_eq_append_iff.1 heq with ⟨between, rfl, hrest⟩ | ⟨between, rfl, hrest⟩
    · cases between with
      | nil =>
        obtain rfl : m = m' := (List.cons.inj hrest).1
        exact absurd hd hdenied.not_dooms
      | cons x between =>
        obtain rfl : m = x := (List.cons.inj hrest).1
        exact absurd hd (hspared m (by simp))
    · cases between with
      | nil =>
        obtain rfl : m' = m := (List.cons.inj hrest).1
        exact absurd hd hdenied.not_dooms
      | cons x between =>
        obtain rfl : m' = x := (List.cons.inj hrest).1
        simp

theorem Turn.downfall {command : Command} (h : Turn W root command r r') {later earlier : List (Moment ω)}
    {m : Moment ω} (ht : r'.trace = later ++ m :: earlier ++ r.trace) (hd : m.Dooms root) :
    Downfall root later m earlier r'.state := by
  have hm : m ∈ later ++ m :: earlier := List.mem_append_right _ List.mem_cons_self
  have hspared : ¬ Run.Adds (Moment.Spares root) r r' := fun h => ((Run.Does.of_adds h).holds ht m hm).2 hd
  cases h with
  | rests _ _ h | lasts _ _ _ h | expires _ _ _ _ h => exact absurd h hspared
  | full _ _ _ _ _ _ _ h => exact absurd hd ((h.holds ht).2 m hm)
  | ends _ hout h => exact ⟨hout, (h.holds ht).downfall hd⟩
  | stops _ _ _ h => exact absurd (.refl h) hspared

theorem Past.dooms (past : Past ω) {m : Moment ω} (h : m.Condemns root → m.Dooms root) :
    (past.moment m).Condemns root → (past.moment m).Dooms root := by
  intro hc
  refine ⟨hc, ?_⟩
  obtain ⟨id, awaiting, verdict, e, he, hm⟩ := hc
  have hjudged : m.effect = .judged id awaiting verdict := by
    change past.effect m.effect = _ at he
    cases heffect : m.effect <;> rw [heffect] at he <;> cases he
    rfl
  have hin := (h ⟨id, awaiting, verdict, e, hjudged, hm⟩).2
  exact (past.inFlight_iff ⟨m.world, m.state, []⟩ root).2 hin

/-- In every lifetime, each root that a block of an event proves malformed is out of flight afterwards,
and reported as broken exactly once, unless a call was refused after the block was judged that listed
a block for which the root was still waiting. -/
theorem malformed_reported (W : World ω) (rules : Rules) (commands : List Command) (world : ω) (event : Event)
    {later earlier : List (Moment ω)} {m : Moment ω}
    (ht : (handle W rules event (lifetime W rules commands world)).trace =
      later ++ m :: earlier ++ (lifetime W rules commands world).trace) (hm : m.Condemns root) :
    Downfall root later m earlier (handle W rules event (lifetime W rules commands world)).state := by
  have hdooms : ∀ m ∈ (lifetime W rules (commands ++ [.event event]) world).trace, m.Condemns root → m.Dooms root :=
    lifetime_trace (fun W events world => (history_reached W rules events world).dooms) (fun past _ => past.dooms) _ _
  rw [lifetime_append, obey, ht] at hdooms
  exact (obey_turn W rules root (.event event) _).downfall ht (hdooms m (by simp) hm)

/-! ## A root that is lost -/

/-- A network that accepts so many calls, and then no more. -/
def rationed : Outside Nat where
  fetch _ _ _ left := (if left = 0 then .error (.transport "refused") else .ok (), left - 1)
  arrange xs left := (xs, left)
  arrange_perm _ _ := .refl _

/-- A root of two leaves. -/
def fork (left right : BlockId) : Bytes :=
  Bytes.ofNat linkCountSize 2 ++
    (left.bytes ++ right.bytes ++ (Bytes.ofNat lengthHeaderSize 139 ++ [DataTag.blockBody.byte]))

/-- A block without links and data, which is no leaf of such a root. -/
def stump : Bytes := [0, 0]

/-- A leaf that never arrives. -/
def missing : BlockId := .of [1]

/-- Two roots of the same leaves. -/
def firstFork : Bytes := fork missing (.of stump)

def secondFork : Bytes := fork (.of stump) missing

/-- Both roots come in, so that both wait for both leaves; three calls are accepted. -/
def sharing : Run (MemoryStore × Nat) :=
  lifetime (World.over MemoryStore.operations rationed) Sample.rules
    [.event (.kickoff (.of firstFork) .blockBody), .event (.delivered (.of firstFork) firstFork),
      .event (.kickoff (.of secondFork) .blockBody), .event (.delivered (.of secondFork) secondFork)] (.empty, 3)

/-- Then the leaf comes in that fits neither. -/
def severed : Run (MemoryStore × Nat) :=
  handle (World.over MemoryStore.operations rationed) Sample.rules (.delivered (.of stump) stump) sharing

/-- The block judged proves the tree malformed. -/
def Effect.condemns (root : RootId) : Effect → Bool
  | .judged _ _ verdict => verdict.malformed.any fun x => decide (x.1 = root)
  | _ => false

theorem Moment.condemns_of {m : Moment ω} (h : m.effect.condemns root = true) : m.Condemns root := by
  unfold Effect.condemns at h
  split at h
  · next id awaiting verdict he =>
    obtain ⟨⟨other, e⟩, hm, heq⟩ := List.any_eq_true.1 h
    obtain rfl : other = root := of_decide_eq_true heq
    exact ⟨id, awaiting, verdict, e, he, hm⟩
  · cases h

/-- What this last event did, around the judging of a root. -/
theorem severed_split (root : RootId) (h : ∃ m ∈ severed.trace.take 8, m.effect.condemns root = true) :
    ∃ later m earlier, severed.trace = later ++ m :: earlier ++ sharing.trace ∧ m.Condemns root ∧
      later ++ m :: earlier = severed.trace.take 8 := by
  obtain ⟨m, hm, hc⟩ := h
  obtain ⟨later, earlier, hnew⟩ := List.append_of_mem hm
  have hgrows : Run.Adds (fun _ => True) sharing severed :=
    (handle_lasts root Sample.rules (by simp) sharing).grows
  obtain ⟨new, htrace, -⟩ := hgrows
  have hlength : new.length = 8 := by
    have hall : severed.trace.length = 8 + sharing.trace.length := by decide +kernel
    rw [htrace, List.length_append] at hall
    exact Nat.add_right_cancel hall
  have htake : severed.trace.take 8 = new := by rw [htrace, List.take_left' hlength]
  exact ⟨later, m, earlier, by rw [← hnew, htake, htrace], Moment.condemns_of hc, hnew.symm⟩

/-- The root that is given up first is reported as broken. -/
theorem malformed_reported_first : ∃ later m earlier, severed.trace = later ++ m :: earlier ++ sharing.trace ∧
    m.Condemns (.of firstFork) ∧ newsOf (.of firstFork) (later ++ m :: earlier) = [.broken (.of firstFork)] ∧
    Downfall (.of firstFork) later m earlier severed.state := by
  obtain ⟨later, m, earlier, htrace, hm, hnew⟩ := severed_split (.of firstFork) (by decide +kernel)
  refine ⟨later, m, earlier, htrace, hm, by rw [hnew]; decide +kernel, ?_⟩
  exact malformed_reported (World.over MemoryStore.operations rationed) Sample.rules _ _ _ htrace hm

/-- The other one, which the same block proves malformed, is not reported: the leaf for which both were
waiting is asked for again under its session, that call is refused, and it goes out of flight. -/
theorem severed_unreported : ∃ later m earlier, severed.trace = later ++ m :: earlier ++ sharing.trace ∧
    m.Condemns (.of secondFork) ∧ newsOf (.of secondFork) (later ++ m :: earlier) = [] := by
  obtain ⟨later, m, earlier, htrace, hm, hnew⟩ := severed_split (.of secondFork) (by decide +kernel)
  exact ⟨later, m, earlier, htrace, hm, by rw [hnew]; decide +kernel⟩

end BlockDag.Downloader
