/-
Which blocks are asked for. A block that is waited for between events was asked for since somebody
waits for it, and the last call for it that was accepted went out under a session that goes on, or
that ended with a root that had never asked for the block. When a root ends, only its own blocks are
asked for again; a block that its session carried for another root is not.
-/
import BlockDag.Proofs.Memory

namespace BlockDag.Downloader

variable {ω : Type} {W : World ω} {rules : Rules} {Delivers : Bytes → Prop} {world : ω}
variable {σ σ' : Stage} {r r' : Run ω}

/-! ## Sessions -/

/-- Sessions are numbered as they are opened, every root in flight has its own, and that one is not
cancelled. -/
structure Sessions (s : State) : Prop where
  running : s.stopped = false
  bounded : ∀ {root d}, s.roots.get? root = some d → d.session ≤ s.opened
  ended : ∀ {session}, session ∈ s.cancelled → session ≤ s.opened
  going : ∀ {root d}, s.roots.get? root = some d → d.session ∉ s.cancelled
  owner : ∀ {root other d e}, s.roots.get? root = some d → s.roots.get? other = some e → d.session = e.session →
    root = other

namespace Sessions

variable {s s' : State}

theorem not_cancelled (h : Sessions s) {root : RootId} {d : Download} (hd : s.roots.get? root = some d) :
    ¬ s.Cancelled d.session := by
  rintro (hs | hc)
  · rw [h.running] at hs
    cases hs
  · exact h.going hd hc

/-- No session changes hands. -/
theorem carry (h : Sessions s) (ho : s'.opened = s.opened) (hc : s'.cancelled = s.cancelled)
    (hr : s'.stopped = s.stopped)
    (hs : ∀ {root d'}, s'.roots.get? root = some d' → ∃ d, s.roots.get? root = some d ∧ d'.session = d.session) :
    Sessions s' := by
  refine ⟨hr.trans h.running, ?_, ?_, ?_, ?_⟩
  · intro root d' hd'
    obtain ⟨d, hd, he⟩ := hs hd'
    rw [he, ho]
    exact h.bounded hd
  · intro session hm
    rw [ho]
    exact h.ended (hc ▸ hm)
  · intro root d' hd'
    obtain ⟨d, hd, he⟩ := hs hd'
    rw [he, hc]
    exact h.going hd
  · intro root other d' e' hd' he' heq
    obtain ⟨d, hd, hds⟩ := hs hd'
    obtain ⟨e, he, hes⟩ := hs he'
    exact h.owner hd he (by rw [← hds, heq, hes])

theorem dismiss (h : Sessions r.state) {root : RootId} {d : Download} (hd : r.state.roots.get? root = some d) :
    Sessions (Downloader.dismiss root d r).state := by
  refine ⟨h.running, fun he => h.bounded (get?_of_dismiss he).2, ?_, ?_,
    fun hd he => h.owner (get?_of_dismiss hd).2 (get?_of_dismiss he).2⟩
  · intro session hm
    rw [dismiss_cancelled] at hm
    rcases List.mem_append.1 hm with hm | hm
    · exact h.ended hm
    · rw [List.mem_singleton.1 hm]
      exact h.bounded hd
  · intro other e he hm
    rw [dismiss_cancelled] at hm
    obtain ⟨hne, he⟩ := get?_of_dismiss he
    rcases List.mem_append.1 hm with hm | hm
    · exact h.going he hm
    · exact hne (h.owner hd he (List.mem_singleton.1 hm).symm)

theorem step (h : Sessions r.state) (hs : Step W rules σ r σ' r') : Sessions r'.state := by
  cases hs with
  | logged | arranged | asked | announced | refused | found | missed | discarded | orphaned | fetched | settled | broke
  | spared | finished => exact h
  | judged a awaiting p =>
    have ht := Pass.take_tuned W rules a awaiting p r
    refine h.carry ht.opened ht.cancelled ht.stopped ?_
    intro root d' hd'
    obtain ⟨d, hd, -, he, -⟩ := ht.downloads hd'
    exact ⟨d, hd, he⟩
  | expanded child d hd =>
    refine h.carry rfl rfl rfl ?_
    intro root d' hd'
    obtain ⟨d₀, hd₀, rfl | rfl⟩ := get?_of_await hd hd'
    · exact ⟨d', hd₀, rfl⟩
    · exact ⟨d₀, hd₀, rfl⟩
  | released root d hd => exact h.dismiss hd
  | completed root d hd =>
    refine Sessions.dismiss (r := mark W root r) ?_ ?_
    · rw [mark_state]
      exact h
    · rw [mark_state]
      exact hd

theorem opened (h : Sessions r.state) (ho : Opening W Delivers r σ' r') : Sessions r'.state := by
  cases ho with
  | launched root tag timeout hn =>
    have hget : ∀ {other e},
        (launch root tag timeout (r.call (W.setStatus root .part)).2).state.roots.get? other = some e →
        e.session = r.state.opened + 1 ∧ root = other ∨
          r.state.roots.get? other = some e ∧ e.session ≤ r.state.opened := by
      intro other e he
      rcases Table.get?_insert_eq_some_iff.1 he with ⟨heq, rfl⟩ | ⟨-, he⟩
      · exact .inl ⟨rfl, heq⟩
      · exact .inr ⟨he, h.bounded he⟩
    refine ⟨h.running, ?_, fun hm => Nat.le_succ_of_le (h.ended hm), ?_, ?_⟩
    · intro other e he
      rcases hget he with ⟨hs, -⟩ | ⟨-, hs⟩
      · exact Nat.le_of_eq hs
      · exact Nat.le_succ_of_le hs
    · intro other e he hm
      rcases hget he with ⟨hs, -⟩ | ⟨he, -⟩
      · rw [hs] at hm
        exact absurd (h.ended hm) (Nat.not_succ_le_self _)
      · exact h.going he hm
    · intro a b d e hd he heq
      rcases hget hd with ⟨hs, rfl⟩ | ⟨hd, hs⟩
      · rcases hget he with ⟨-, rfl⟩ | ⟨-, hs'⟩
        · rfl
        · rw [← heq, hs] at hs'
          exact absurd hs' (Nat.not_succ_le_self _)
      · rcases hget he with ⟨hs', -⟩ | ⟨he, -⟩
        · rw [heq, hs'] at hs
          exact absurd hs (Nat.not_succ_le_self _)
        · exact h.owner hd he heq
  | delivered => exact h

end Sessions

theorem Reached.sessions (h : Reached W rules Delivers world σ r) : Sessions r.state := by
  induction h with
  | start => exact ⟨rfl, by simp [State.initial, Table.get?], by simp [State.initial],
      by simp [State.initial, Table.get?], by simp [State.initial, Table.get?]⟩
  | opened _ ho ih => exact ih.opened ho
  | step _ hs ih => exact ih.step hs

/-! ## Calls -/

/-- At `m` a call for the block `id` was accepted, under the session of `root`; since then `id` is
waited for, and no other call for it was accepted. -/
structure Asked (id : BlockId) (root : RootId) (session : SessionId) (later : List (Moment ω)) (m : Moment ω) :
    Prop where
  accepted : ∃ blocks, m.effect = .fetched ⟨session, blocks, .ok ()⟩ ∧ id ∈ blocks
  owner : ∃ d, m.state.roots.get? root = some d ∧ d.session = session
  awaited : ∀ m' ∈ m :: later, m'.state.pending.Has id
  last : ∀ m' ∈ later, ∀ call, m'.effect = .fetched call → call.outcome = .ok () → id ∉ call.blocks

/-- Every download of `s` goes on in `s'`, and what it asked for it did ask for. -/
def State.GoesOn (s s' : State) : Prop := ∀ root d, s.roots.get? root = some d →
  ∃ d', s'.roots.get? root = some d' ∧ d'.session = d.session ∧ ∀ x ∈ d.descendants, x ∈ d'.descendants

/-- The last accepted call for `id` went out under a session that goes on, or that ended with a root
that had not asked for `id`. -/
inductive Requested (r : Run ω) (id : BlockId) : Prop
  | going {later m earlier} (root : RootId) (d : Download) : r.trace = later ++ m :: earlier →
      Asked id root d.session later m → r.state.roots.get? root = some d →
      (∀ m' ∈ m :: later, ∀ d', m'.state.roots.get? root = some d' → d'.session = d.session →
        ∀ x ∈ d'.descendants, x ∈ d.descendants) → Requested r id
  | ended {later m earlier} (root : RootId) (session : SessionId) : r.trace = later ++ m :: earlier →
      Asked id root session later m → session ∈ r.state.cancelled →
      (∀ m' ∈ m :: later, ∀ d', m'.state.roots.get? root = some d' → d'.session = session → id ∉ d'.descendants) →
      Requested r id

theorem State.GoesOn.refl (s : State) : s.GoesOn s := fun _ d hd => ⟨d, hd, rfl, fun _ h => h⟩

theorem State.Tuned.goesOn {s s' : State} (h : s.Tuned s') : s.GoesOn s' := by
  intro root d hd
  have hmem : root ∈ s'.roots.keys := h.keys ▸ Table.mem_keys_of_get? hd
  cases hg : s'.roots.get? root with
  | none => exact absurd hmem (Table.get?_eq_none_iff.1 hg)
  | some d' =>
    obtain ⟨d₀, hd₀, -, hs, hx⟩ := h.downloads hg
    rw [hd] at hd₀
    cases hd₀
    exact ⟨d', rfl, hs, fun x hx' => hx ▸ hx'⟩

theorem State.Tuned.goesOn_back {s s' : State} (h : s.Tuned s') : s'.GoesOn s := by
  intro root d' hd'
  obtain ⟨d, hd, -, hs, hx⟩ := h.downloads hd'
  exact ⟨d, hd, hs.symm, fun x hx' => hx ▸ hx'⟩

section Requested

variable {id : BlockId}

theorem mem_since {later new : List (Moment ω)} {m m' : Moment ω} :
    m' ∈ m :: (new ++ later) ↔ m' ∈ new ∨ m' ∈ m :: later := by
  rw [List.mem_cons, List.mem_append, List.mem_cons, or_left_comm]

theorem Asked.append {root : RootId} {session : SessionId} {later : List (Moment ω)} {m : Moment ω}
    (h : Asked id root session later m) {new : List (Moment ω)} (hawaited : ∀ m' ∈ new, m'.state.pending.Has id)
    (hlast : ∀ m' ∈ new, ∀ call, m'.effect = .fetched call → call.outcome = .ok () → id ∉ call.blocks) :
    Asked id root session (new ++ later) m := by
  refine ⟨h.accepted, h.owner, ?_, ?_⟩
  · intro m' hm'
    rcases mem_since.1 hm' with hm' | hm'
    · exact hawaited m' hm'
    · exact h.awaited m' hm'
  · intro m' hm'
    rcases List.mem_append.1 hm' with hm' | hm'
    · exact hlast m' hm'
    · exact h.last m' hm'

/-- While downloads go on and `id` is waited for, the last call for it stays the last one. -/
theorem Requested.extend (h : Requested r id) (hsessions : Sessions r'.state) (hgoes : r.state.GoesOn r'.state)
    (hcancelled : r'.state.cancelled = r.state.cancelled)
    (hnew : Run.Adds (fun m => m.state.pending.Has id ∧ m.state.GoesOn r'.state ∧
      ∀ call, m.effect = .fetched call → call.outcome = .ok () → id ∉ call.blocks) r r') : Requested r' id := by
  obtain ⟨new, hn, hp⟩ := hnew
  have hsplit : ∀ {later m earlier}, r.trace = later ++ m :: earlier → r'.trace = (new ++ later) ++ m :: earlier := by
    intro later m earlier ht
    rw [hn, ht, List.append_assoc]
  have happend : ∀ {root session later m}, Asked id root session later m → Asked id root session (new ++ later) m :=
    fun hasked => hasked.append (fun m' hm' => (hp m' hm').1) fun m' hm' => (hp m' hm').2.2
  cases h with
  | going root d ht hasked hd hdesc =>
    obtain ⟨d₁, hd₁, hs₁, hx₁⟩ := hgoes root d hd
    refine .going root d₁ (hsplit ht) (hs₁ ▸ happend hasked) hd₁ ?_
    intro m' hm' d' hd' he x hx
    rcases mem_since.1 hm' with hm' | hm'
    · obtain ⟨d₂, hd₂, -, hx₂⟩ := (hp m' hm').2.1 root d' hd'
      rw [hd₁] at hd₂
      cases hd₂
      exact hx₂ x hx
    · exact hx₁ x (hdesc m' hm' d' hd' (he.trans hs₁) x hx)
  | ended root session ht hasked hc hdesc =>
    refine .ended root session (hsplit ht) (happend hasked) (hcancelled ▸ hc) ?_
    intro m' hm' d' hd' he
    rcases mem_since.1 hm' with hm' | hm'
    · -- a cancelled session is not one of a root in flight
      obtain ⟨d₂, hd₂, hs₂, -⟩ := (hp m' hm').2.1 root d' hd'
      rw [← hcancelled, ← he, ← hs₂] at hc
      exact absurd hc (hsessions.going hd₂)
    · exact hdesc m' hm' d' hd' he

/-- When a root ends, a block that it never asked for keeps its last call. -/
theorem Requested.dismiss (hsessions : Sessions r.state) {root : RootId} {d : Download}
    (hd : r.state.roots.get? root = some d) (hp : (Downloader.dismiss root d r).state.pending.Has id)
    (h : Requested r id) : id ∈ d.descendants ∨ Requested (Downloader.dismiss root d r) id := by
  have hsessions' := hsessions.dismiss hd
  have ht' : (Downloader.dismiss root d r).trace =
      [⟨.released d.session root, r.world, (Downloader.dismiss root d r).state⟩] ++ r.trace := rfl
  have happend : ∀ {other session later m}, Asked id other session later m → Asked id other session
      ([⟨.released d.session root, r.world, (Downloader.dismiss root d r).state⟩] ++ later) m :=
    fun hasked => hasked.append (by simpa using hp) (by simp)
  cases h with
  | going other e ht hasked he hdesc =>
    by_cases hr : root = other
    · subst hr
      rw [hd] at he
      cases he
      -- the session ends, and with it the calls for blocks that this root never asked for
      by_cases hid : id ∈ d.descendants
      · exact .inl hid
      · refine .inr (.ended root d.session (by rw [ht', ht, List.append_assoc]) (happend hasked)
          (List.mem_append_right _ (List.mem_singleton.2 rfl)) ?_)
        intro m' hm' d' hd' hs hx
        rcases mem_since.1 hm' with hm' | hm'
        · rw [List.mem_singleton.1 hm'] at hd'
          exact (get?_of_dismiss hd').1 rfl
        · exact hid (hdesc m' hm' d' hd' hs id hx)
    · refine .inr (.going other e (by rw [ht', ht, List.append_assoc]) (happend hasked)
        (Table.get?_erase_eq_some_iff.2 ⟨hr, he⟩) ?_)
      intro m' hm' d' hd' hs x hx
      rcases mem_since.1 hm' with hm' | hm'
      · rw [List.mem_singleton.1 hm'] at hd'
        have hd'' := (get?_of_dismiss hd').2
        rw [he] at hd''
        cases hd''
        exact hx
      · exact hdesc m' hm' d' hd' hs x hx
  | ended other session ht hasked hc hdesc =>
    have hc' : session ∈ (Downloader.dismiss root d r).state.cancelled := List.mem_append_left _ hc
    refine .inr (.ended other session (by rw [ht', ht, List.append_assoc]) (happend hasked) hc' ?_)
    intro m' hm' d' hd' hs
    rcases mem_since.1 hm' with hm' | hm'
    · rw [List.mem_singleton.1 hm'] at hd'
      rw [← hs] at hc'
      exact absurd hc' (hsessions'.going hd')
    · exact hdesc m' hm' d' hd' hs

/-- Judging another block keeps the last call. -/
theorem Requested.take (W : World ω) (rules : Rules) (a : Arrival) (awaiting : Awaiting) (p : Pass)
    (hsessions : Sessions (Pass.take W rules a awaiting p r).2.2.state)
    (hp : (Pass.take W rules a awaiting p r).2.2.state.pending.Has id) (h : Requested r id) :
    Requested (Pass.take W rules a awaiting p r).2.2 id := by
  have ht := Pass.take_tuned W rules a awaiting p r
  refine h.extend hsessions ht.goesOn ht.cancelled ((Pass.take_adds W rules a awaiting p r).mono ?_)
  rintro m ⟨he, hm, -⟩
  refine ⟨?_, ?_, ?_⟩
  · rw [hm.pending, ← ht.pending]
    exact hp
  · intro root d hd
    obtain ⟨d₁, hd₁, hs₁, hx₁⟩ := hm.goesOn_back root d hd
    obtain ⟨d₂, hd₂, hs₂, hx₂⟩ := ht.goesOn root d₁ hd₁
    exact ⟨d₂, hd₂, hs₂.trans hs₁, fun x hx => hx₂ x (hx₁ x hx)⟩
  · intro call hcall
    rcases he with ⟨e, he⟩ | ⟨aw, he⟩
    · rw [he] at hcall
      cases hcall
    · rw [he] at hcall
      cases hcall

/-- Letting a root wait for a child keeps the last call for every block that was waited for. -/
theorem Requested.await {child : Child} {d : Download} (hd : r.state.roots.get? child.root = some d)
    (hsessions : Sessions (Pass.await child d r).state) (hp : r.state.pending.Has id) (h : Requested r id) :
    Requested (Pass.await child d r) id := by
  have hgoes : r.state.GoesOn (Pass.await child d r).state := by
    intro root e he
    rw [await_roots, Table.get?_insert]
    split
    · next heq =>
      rw [← heq, hd] at he
      cases he
      exact ⟨_, rfl, rfl, fun x hx => Std.ExtTreeSet.mem_insert.2 (.inr hx)⟩
    · exact ⟨e, he, rfl, fun _ h => h⟩
  refine h.extend hsessions hgoes rfl (await_adds _ _ _ ⟨?_, .refl _, by simp⟩)
  exact PendingIndex.has_insert.2 (.inr hp)

/-- Putting a root in flight keeps the last call for every block that was waited for. -/
theorem Requested.launch {root : RootId} {tag : DataTag} {timeout : Nat} (hn : ¬ r.state.InFlight root)
    (hsessions : Sessions (Downloader.launch root tag timeout (r.call (W.setStatus root .part)).2).state)
    (hp : r.state.pending.Has id) (h : Requested r id) :
    Requested (Downloader.launch root tag timeout (r.call (W.setStatus root .part)).2) id := by
  refine h.extend hsessions ?_ rfl ⟨_, launch_trace _ _ _ _, ?_⟩
  · intro other d hd
    refine ⟨d, ?_, rfl, fun _ h => h⟩
    rw [launch_roots, Table.get?_insert, if_neg]
    · exact hd
    · rintro rfl
      rw [State.InFlight, Table.has_iff_get?, hd] at hn
      exact hn rfl
  · intro m hm
    have hm' : m.state = (Downloader.launch root tag timeout (r.call (W.setStatus root .part)).2).state ∧
        ∀ call, m.effect ≠ .fetched call := by
      simp only [List.mem_cons, List.not_mem_nil, or_false] at hm
      rcases hm with rfl | rfl | rfl <;> simp
    refine ⟨?_, hm'.1 ▸ .refl _, fun call he => absurd he (hm'.2 call)⟩
    rw [hm'.1, launch_pending]
    exact PendingIndex.has_insert.2 (.inr hp)

/-- Where the state stays, the last call for a block stays until there is another. -/
theorem Requested.quiet (h : Requested r id) (hsessions : Sessions r.state) (hp : r.state.pending.Has id)
    (hstate : r'.state = r.state) (hnew : Run.Adds (fun m => m.state = r.state ∧
      ∀ call, m.effect = .fetched call → call.outcome = .ok () → id ∉ call.blocks) r r') : Requested r' id := by
  refine h.extend (hstate ▸ hsessions) (hstate ▸ .refl _) (by rw [hstate]) (hnew.mono ?_)
  rintro m ⟨hs, hcall⟩
  exact ⟨hs ▸ hp, by rw [hs, hstate]; exact .refl _, hcall⟩

end Requested

/-! ## Blocks that are waited for -/

/-- The block `id` is to be looked up, judged or asked for, or was asked for. -/
inductive Pursued (σ : Stage) (r : Run ω) (id : BlockId) : Prop
  | unseen : id ∈ σ.unseen → Pursued σ r id
  | queued (a : Arrival) : a ∈ σ.queue → a.id = id → Pursued σ r id
  | wanted : id ∈ σ.wanted → Pursued σ r id
  | requested : Requested r id → Pursued σ r id

namespace Pursued

/-- An accepted call is the last one for its blocks. -/
theorem requested_of_fetch {root : RootId} {d : Download} {blocks : List BlockId} {id : BlockId}
    (hd : r.state.roots.get? root = some d) (hp : r.state.pending.Has id) (hid : id ∈ blocks)
    (hok : (W.fetch d.session (!decide (r.state.Cancelled d.session)) blocks r.world).1 = .ok ()) :
    Requested (r.fetch W d.session blocks).2 id := by
  have ht : (r.fetch W d.session blocks).2.trace =
      [] ++ ⟨.fetched ⟨d.session, blocks, .ok ()⟩, r.world, r.state⟩ :: r.trace := by
    rw [← hok]
    rfl
  refine .going root d ht ⟨⟨blocks, rfl, hid⟩, ⟨d, hd, rfl⟩, by simpa using hp, by simp⟩ hd ?_
  · intro m' hm' d' hd' _ x hx
    rw [List.mem_singleton.1 hm', hd] at hd'
    cases hd'
    exact hx

/-- Where there is no less to do, a block stays pursued whose last call stays. -/
theorem carry {id : BlockId} (h : Pursued σ r id) (hu : ∀ x ∈ σ.unseen, x ∈ σ'.unseen)
    (hq : ∀ a ∈ σ.queue, a ∈ σ'.queue) (hw : ∀ x ∈ σ.wanted, x ∈ σ'.wanted)
    (hr : Requested r id → Pursued σ' r' id) : Pursued σ' r' id := by
  cases h with
  | unseen hid => exact .unseen (hu id hid)
  | queued a ha hid => exact .queued a (hq a ha) hid
  | wanted hid => exact .wanted (hw id hid)
  | requested hreq => exact hr hreq

theorem released {w : List BlockId} {q : List Arrival} {u : List BlockId} {o o' : List Child}
    {m m' : List (RootId × FormatError)} {root : RootId} {d : Download} {id : BlockId} (hsessions : Sessions r.state)
    (hd : r.state.roots.get? root = some d) (hp : (dismiss root d r).state.pending.Has id)
    (h : Pursued ⟨q, u, w, o, m⟩ r id) : Pursued ⟨q, u, w ++ d.descendants.toList, o', m'⟩ (dismiss root d r) id := by
  refine h.carry (fun _ h => h) (fun _ h => h) (fun _ h => List.mem_append_left _ h) fun hreq => ?_
  rcases hreq.dismiss hsessions hd hp with hid | hreq
  · exact .wanted (List.mem_append_right _ (Std.ExtTreeSet.mem_toList.2 hid))
  · exact .requested hreq

theorem step (hr : Reached W rules Delivers world σ r) (h : ∀ id, r.state.pending.Has id → Pursued σ r id)
    (hs : Step W rules σ r σ' r') {id : BlockId} (hp : r'.state.pending.Has id) : Pursued σ' r' id := by
  have hsessions := hr.sessions
  have hsessions' := hsessions.step hs
  have hb := hr.books
  -- what is left to do, and the last call, stay where only the trace changes
  have hquiet : r'.state = r.state → Run.Adds (fun m => m.state = r.state ∧ ∀ call, m.effect ≠ .fetched call) r r' →
      Requested r id → Requested r' id := by
    intro hstate hnew hreq
    refine hreq.quiet hsessions (hstate ▸ hp) hstate (hnew.mono ?_)
    rintro m ⟨hm, hcall⟩
    exact ⟨hm, fun call he => absurd he (hcall call)⟩
  cases hs with
  | logged | broke | finished =>
    exact (h id hp).carry (fun _ h => h) (fun _ h => h) (fun _ h => h) fun hreq =>
      .requested (hquiet rfl (.emit ⟨rfl, by simp⟩) hreq)
  | arranged | asked | refused =>
    exact (h id hp).carry (fun _ h => h) (fun _ h => h) (fun _ h => h) fun hreq =>
      .requested (hquiet rfl (.refl rfl) hreq)
  | announced root =>
    exact (h id hp).carry (fun _ h => h) (fun _ h => h) (fun _ h => h) fun hreq =>
      .requested (hquiet rfl (.trans (.refl rfl) (.emit ⟨rfl, by simp⟩)) hreq)
  | found j raw =>
    cases h id hp with
    | unseen hid =>
      rcases List.mem_cons.1 hid with rfl | hid
      · exact .queued _ (List.mem_append_right _ (List.mem_singleton.2 rfl)) rfl
      · exact .unseen hid
    | queued a ha hid => exact .queued a (List.mem_append_left _ ha) hid
    | wanted hid => exact .wanted hid
    | requested hreq => exact .requested (hquiet rfl (.refl rfl) hreq)
  | missed j =>
    cases h id hp with
    | unseen hid =>
      rcases List.mem_cons.1 hid with rfl | hid
      · exact .wanted (List.mem_append_right _ (List.mem_singleton.2 rfl))
      · exact .unseen hid
    | queued a ha hid => exact .queued a ha hid
    | wanted hid => exact .wanted (List.mem_append_left _ hid)
    | requested hreq => exact .requested (hquiet rfl (.refl rfl) hreq)
  | discarded a hn =>
    cases h id hp with
    | unseen hid => exact .unseen hid
    | queued b hb hid =>
      rcases List.mem_cons.1 hb with rfl | hb
      · exact absurd (hid ▸ hp) hn
      · exact .queued b hb hid
    | wanted hid => exact .wanted hid
    | requested hreq => exact .requested hreq
  | judged a awaiting p ha =>
    obtain ⟨hne, hp₀⟩ : id ≠ a.id ∧ r.state.pending.Has id := by
      rw [Pass.take_pending, PendingIndex.has_without] at hp
      exact hp
    cases h id hp₀ with
    | unseen hid => exact .unseen hid
    | queued b hb hid =>
      rcases List.mem_cons.1 hb with rfl | hb
      · exact absurd hid.symm hne
      · exact .queued b hb hid
    | wanted hid => exact .wanted hid
    | requested hreq => exact .requested (hreq.take W rules a awaiting p hsessions' hp)
  | @expanded q w o r child d hd =>
    rw [await_pending, PendingIndex.has_insert] at hp
    -- a child that somebody waits for already keeps its call, and a new one is looked up
    by_cases hw : r.state.pending.Has id
    · exact (h id hw).carry (fun _ h => by cases h) (fun _ h => h) (fun _ h => h) fun hreq =>
        .requested (hreq.await hd hsessions' hw)
    · obtain rfl := hp.resolve_right hw
      refine .unseen ?_
      rw [if_neg hw]
      exact List.mem_singleton.2 rfl
  | orphaned child => exact (h id hp).carry (fun _ h => h) (fun _ h => h) (fun _ h => h) .requested
  | fetched root d blocks left hroot hd hblocks hleft =>
    -- an accepted call for `id` is the last one; any other leaves `id` as it was
    by_cases hacc : id ∈ blocks ∧
        (W.fetch d.session (!decide (r.state.Cancelled d.session)) blocks r.world).1 = .ok ()
    · exact .requested (requested_of_fetch hd hp hacc.1 hacc.2)
    · cases h id hp with
      | unseen hid => exact .unseen hid
      | queued a ha hid => exact .queued a ha hid
      | wanted hid => exact .wanted ((hleft id hid).resolve_right hacc)
      | requested hreq =>
        refine .requested (hreq.quiet hsessions hp rfl (.cons rfl ⟨rfl, ?_⟩))
        rintro call heq hok hid
        cases heq
        exact hacc ⟨hid, hok⟩
  | settled left hleft =>
    cases h id hp with
    | unseen hid => exact .unseen hid
    | queued a ha hid => exact .queued a ha hid
    | wanted hid => exact .wanted (hleft id hid hp)
    | requested hreq => exact .requested hreq
  | spared => exact (h id hp).carry (fun _ h => h) (fun _ h => h) (fun _ h => h) .requested
  | released root d hd => exact (h id (PendingIndex.has_of_has_removeRoot hb.pending hp)).released hsessions hd hp
  | @completed w r root d hd =>
    have hp₀ : r.state.pending.Has id := by
      rw [dismiss_pending, mark_state] at hp
      exact PendingIndex.has_of_has_removeRoot hb.pending hp
    have hmark : Pursued ⟨[], [], w, [], []⟩ (mark W root r) id := by
      refine (h id hp₀).carry (fun _ h => h) (fun _ h => h) (fun _ h => h) fun hreq => .requested ?_
      exact hreq.quiet hsessions hp₀ (mark_state root r W) (mark_adds _ _ W ⟨rfl, by simp⟩ fun _ => ⟨rfl, by simp⟩)
    exact hmark.released (mark_state root r W ▸ hsessions) (mark_state root r W ▸ hd) hp

theorem opened (hr : Reached W rules Delivers world .idle r) (h : ∀ id, r.state.pending.Has id → Pursued .idle r id)
    (ho : Opening W Delivers r σ' r') {id : BlockId} (hp : r'.state.pending.Has id) : Pursued σ' r' id := by
  have hsessions' := hr.sessions.opened ho
  cases ho with
  | launched root tag timeout hn =>
    rw [launch_pending, PendingIndex.has_insert] at hp
    by_cases hw : r.state.pending.Has id
    · exact (h id hw).carry (fun _ h => by cases h) (fun _ h => h) (fun _ h => h) fun hreq =>
        .requested (hreq.launch hn hsessions' hw)
    · obtain rfl := hp.resolve_right hw
      refine .unseen ?_
      rw [if_neg hw]
      exact List.mem_singleton.2 rfl
  | delivered =>
    exact (h id hp).carry (fun _ h => by cases h) (fun _ h => by cases h) (fun _ h => h) .requested

end Pursued

theorem Reached.pursued (h : Reached W rules Delivers world σ r) {id : BlockId} (hp : r.state.pending.Has id) :
    Pursued σ r id := by
  induction h generalizing id with
  | start =>
    obtain ⟨root, hne⟩ := (PendingIndex.has_iff_positions PendingIndex.empty_wf).1 hp
    simp at hne
  | opened hr ho ih => exact Pursued.opened hr (fun _ h => ih h) ho hp
  | step hr hs ih => exact Pursued.step hr (fun _ h => ih h) hs hp

/-- For every block that is waited for there is a last accepted call, made while it was waited for.
Its session is not cancelled; or, as long as it went on, it belonged to a root that had not asked for
the block. -/
theorem pending_requested (W : World ω) (rules : Rules) (events : List Event) (world : ω) {id : BlockId}
    (hp : (history W rules events world).state.pending.Has id) :
    ∃ later m earlier root session blocks, (history W rules events world).trace = later ++ m :: earlier ∧
      m.effect = .fetched ⟨session, blocks, .ok ()⟩ ∧ id ∈ blocks ∧
      (∃ d, m.state.roots.get? root = some d ∧ d.session = session) ∧
      (∀ m' ∈ m :: later, m'.state.pending.Has id) ∧
      (∀ m' ∈ later, ∀ call, m'.effect = .fetched call → call.outcome = .ok () → id ∉ call.blocks) ∧
      (¬ (history W rules events world).state.Cancelled session ∨
        ∀ m' ∈ m :: later, ∀ d, m'.state.roots.get? root = some d → d.session = session → id ∉ d.descendants) := by
  have hr := history_reached W rules events world
  cases hr.pursued hp with
  | unseen hid => cases hid
  | queued a ha => cases ha
  | wanted hid => cases hid
  | requested hreq =>
    cases hreq with
    | going root d ht hasked hd =>
      obtain ⟨blocks, he, hid⟩ := hasked.accepted
      exact ⟨_, _, _, root, d.session, blocks, ht, he, hid, hasked.owner, hasked.awaited, hasked.last,
        .inl (hr.sessions.not_cancelled hd)⟩
    | ended root session ht hasked hc hdesc =>
      obtain ⟨blocks, he, hid⟩ := hasked.accepted
      exact ⟨_, _, _, root, session, blocks, ht, he, hid, hasked.owner, hasked.awaited, hasked.last, .inr hdesc⟩

/-- Payloads that have one leaf each in common with `Sample.leaves`. -/
def left : Bytes := List.replicate 32 3 ++ List.replicate 69 1

def right : Bytes := List.replicate 32 4 ++ List.replicate 69 2

/-- The leaf in common with `left`. -/
def common : BlockId := BlockId.of (0 :: 0 :: List.replicate 69 1)

/-- The roots of three payloads come in, and then the first and the last one run out of time. -/
def expiring : List Event :=
  (Sample.download Sample.leaves).take 2 ++ (Sample.download left).take 2 ++ (Sample.download right).take 2 ++
    [.deadline (Sample.blob Sample.leaves).root 1, .deadline (Sample.blob right).root 3]

/-- The first root and the last have ended, and the one that is left waits for its leaf still. -/
theorem pending_requested_expiring :
    ¬ (Sample.run expiring).state.InFlight (Sample.blob Sample.leaves).root ∧
    (Sample.run expiring).state.InFlight (Sample.blob left).root ∧ (Sample.run expiring).state.pending.Has common ∧
    ∃ later m earlier root session blocks, (Sample.run expiring).trace = later ++ m :: earlier ∧
      m.effect = .fetched ⟨session, blocks, .ok ()⟩ ∧ common ∈ blocks ∧
      (∃ d, m.state.roots.get? root = some d ∧ d.session = session) ∧
      (∀ m' ∈ m :: later, m'.state.pending.Has common) ∧
      (∀ m' ∈ later, ∀ call, m'.effect = .fetched call → call.outcome = .ok () → common ∉ call.blocks) ∧
      (¬ (Sample.run expiring).state.Cancelled session ∨
        ∀ m' ∈ m :: later, ∀ d, m'.state.roots.get? root = some d → d.session = session → common ∉ d.descendants) := by
  have hrun : ¬ (Sample.run expiring).state.InFlight (Sample.blob Sample.leaves).root ∧
      (Sample.run expiring).state.InFlight (Sample.blob left).root ∧
      (Sample.run expiring).state.pending.Has common := by decide +kernel
  obtain ⟨hended, hflight, hp⟩ := hrun
  refine ⟨hended, hflight, hp, ?_⟩
  unfold Sample.run at hp ⊢
  exact pending_requested _ _ _ _ hp

/-- The call that the effect is, if it is one. -/
def Effect.call? : Effect → Option FetchCall
  | .fetched call => some call
  | _ => none

/-- The root that is left waits for its leaf, and every call for it went out under a session that is
cancelled: the second call under that of the last root, which never asked for this leaf. -/
theorem request_lost : (Sample.run expiring).state.InFlight (Sample.blob left).root ∧
    1 ∈ (Sample.run expiring).state.pending.positions common (Sample.blob left).root ∧
    (Sample.run expiring).state.pending.Has common ∧
    ∀ m ∈ (Sample.run expiring).trace, ∀ call, m.effect = .fetched call → call.outcome = .ok () →
      common ∈ call.blocks → (Sample.run expiring).state.Cancelled call.session := by
  have hrun : (Sample.run expiring).state.InFlight (Sample.blob left).root ∧
      1 ∈ (Sample.run expiring).state.pending.positions common (Sample.blob left).root ∧
      (Sample.run expiring).state.pending.Has common ∧
      ∀ m ∈ (Sample.run expiring).trace, ∀ call ∈ m.effect.call?, call.outcome = .ok () → common ∈ call.blocks →
        (Sample.run expiring).state.Cancelled call.session := by decide +kernel
  obtain ⟨hflight, hpos, hhas, hcalls⟩ := hrun
  refine ⟨hflight, hpos, hhas, ?_⟩
  intro m hm call he
  refine hcalls m hm call ?_
  rw [he]
  rfl

end BlockDag.Downloader
