/-
How downloads are cleared away. Ending a download leaves blocks behind that others wait for; those are
asked for again, which may fail and end more downloads. Here that is a course of small steps with a
list of the blocks that are still to be asked for: an ended download puts its own blocks on the list,
each once, and a call takes off it what it lists. Nothing is assumed of the state.
-/
import BlockDag.Proofs.Departures

namespace BlockDag.Downloader

variable {ω : Type}

/-- One thing done while downloads are cleared away, and what is still to be asked for. -/
inductive Clearing (W : World ω) : List BlockId → Run ω → List BlockId → Run ω → Prop
  | logged {again r} (entry : LogEntry) : Clearing W again r again (r.log entry)
  | notified {again r} (update : Update) : Clearing W again r again (r.notify update)
  | arranged {again r} {α : Type} (xs : List α) : Clearing W again r again (r.call (W.arrange xs)).2
  | released {again r} (root : RootId) (d : Download) (left : List BlockId) : r.state.roots.get? root = some d →
      left.Nodup → (∀ id ∈ left, id ∈ d.descendants ∧ (dismiss root d r).state.pending.Has id) →
      Clearing W again r (left ++ again) (dismiss root d r)
  | asked {again r} (session : SessionId) (blocks : List BlockId) :
      Clearing W (blocks ++ again) r again (r.fetch W session blocks).2
  | dropped {again again' r} : again'.Subperm again → Clearing W again r again' r

/-- Any number of such things. -/
inductive Clears (W : World ω) (again : List BlockId) (r : Run ω) : List BlockId → Run ω → Prop
  | refl : Clears W again r again r
  | tail {again' r' again'' r''} : Clears W again r again' r' → Clearing W again' r' again'' r'' →
      Clears W again r again'' r''

variable {W : World ω} {rules : Rules} {r r' r'' : Run ω} {again again' again'' : List BlockId}

namespace Clears

theorem single (h : Clearing W again r again' r') : Clears W again r again' r' := .tail .refl h

theorem trans (h : Clears W again r again' r') (h' : Clears W again' r' again'' r'') :
    Clears W again r again'' r'' := by
  induction h' with
  | refl => exact h
  | tail _ hs ih => exact .tail ih hs

theorem head (h : Clearing W again r again' r') (h' : Clears W again' r' again'' r'') : Clears W again r again'' r'' :=
  (single h).trans h'

theorem drop (h : again'.Subperm again) : Clears W again r again' r := single (.dropped h)

end Clears

/-! ## The handlers -/

theorem release_clears (W : World ω) (again : List BlockId) (root : RootId) (r : Run ω) :
    Clears W again r ((release W root r).1.getD [] ++ again) (release W root r).2 := by
  unfold release
  cases hd : r.state.roots.get? root with
  | none => exact .refl
  | some d =>
    have hperm := W.arrange_perm d.descendants.toList r.world
    refine .head (.released root d _ hd ?_ ?_) (.single (.arranged d.descendants.toList))
    · refine (hperm.nodup_iff.2 (Std.ExtTreeSet.distinct_toList.imp ?_)).sublist List.filter_sublist
      intro a b h heq
      exact h (heq ▸ Std.ReflCmp.compare_self)
    · intro id hid
      obtain ⟨hid, hhas⟩ := List.mem_filter.1 hid
      exact ⟨Std.ExtTreeSet.mem_toList.1 (hperm.mem_iff.1 hid), of_decide_eq_true hhas⟩

theorem releaseAll_clears (W : World ω) (again : List BlockId) (roots : List RootId) (r : Run ω) :
    Clears W again r ((releaseAll W roots r).1 ++ again) (releaseAll W roots r).2 := by
  induction roots generalizing again r with
  | nil => exact .refl
  | cons root roots ih =>
    rw [releaseAll]
    refine (release_clears W again root r).trans ((ih _ _).trans (.drop ?_))
    rw [← List.append_assoc]
    exact (List.perm_append_comm.append_right again).subperm

theorem fetchWithin_clears (W : World ω) (fuel : Nat) (blocks again : List BlockId) (r : Run ω) :
    Clears W (blocks ++ again) r again (fetchWithin W fuel blocks r) := by
  have hdrop : ∀ {r : Run ω}, Clears W (blocks ++ again) r again r := .drop (List.sublist_append_right _ _).subperm
  induction fuel generalizing blocks r with
  | zero => exact hdrop
  | succ fuel ih =>
    rw [fetchWithin]
    have harr : Clearing W (blocks ++ again) r (blocks ++ again) _ := .arranged (interested r.state.pending blocks)
    rcases hc₀ : r.call (W.arrange (interested r.state.pending blocks)) with ⟨roots, r₀⟩
    rw [hc₀] at harr
    refine .head harr ?_
    dsimp only
    split
    · exact .head (.logged _) hdrop
    · next d _ =>
      have hasked : Clearing W (blocks ++ again) r₀ again (r₀.fetch W d.session blocks).2 := .asked d.session blocks
      rcases hc : r₀.fetch W d.session blocks with ⟨outcome, r₁⟩
      rw [hc] at hasked
      refine .head hasked ?_
      cases outcome with
      | ok _ => exact .refl
      | error e =>
        have hreleased := releaseAll_clears W again roots (r₁.log (.fetchFailed blocks.length roots.length e))
        dsimp only
        rcases hc₂ : releaseAll W roots (r₁.log (.fetchFailed blocks.length roots.length e)) with ⟨left, r₂⟩
        rw [hc₂] at hreleased
        refine .head (.logged _) (hreleased.trans ?_)
        dsimp only
        split
        · exact .drop (List.sublist_append_right _ _).subperm
        · refine Clears.trans (.drop ?_) (ih _ r₂ (.drop (List.sublist_append_right _ _).subperm))
          exact (List.filter_sublist.append_right again).subperm

theorem fetch_clears (W : World ω) (blocks again : List BlockId) (r : Run ω) :
    Clears W (blocks ++ again) r again (fetch W blocks r) :=
  fetchWithin_clears W _ blocks again r

theorem refetch_clears (W : World ω) (left again : List BlockId) (r : Run ω) :
    Clears W (left ++ again) r again (refetch W left r) := by
  unfold refetch
  dsimp only
  split
  · exact .drop (List.sublist_append_right _ _).subperm
  · exact Clears.trans (.drop (List.filter_sublist.append_right again).subperm) (fetch_clears W _ again r)

theorem free_clears (W : World ω) (again : List BlockId) (root : RootId) (r : Run ω) :
    Clears W again r again (free W root r).2 := by
  have hreleased := release_clears W again root r
  unfold free
  rcases hc : release W root r with ⟨answer, r₁⟩
  rw [hc] at hreleased
  cases answer with
  | none => exact hreleased
  | some left => exact hreleased.trans (refetch_clears W left again r₁)

theorem abandonAll_clears (W : World ω) (again : List BlockId) (id : BlockId) (doomed : List (RootId × FormatError))
    (r : Run ω) : Clears W again r again (Pass.abandonAll W id doomed r) := by
  induction doomed generalizing r with
  | nil => exact .refl
  | cons x doomed ih =>
    obtain ⟨root, e⟩ := x
    rw [Pass.abandonAll]
    have hfreed := free_clears W again root (r.log (.malformed root id e))
    rcases hc : free W root (r.log (.malformed root id e)) with ⟨inFlight, r₁⟩
    rw [hc] at hfreed
    refine .head (.logged _) (hfreed.trans ?_)
    dsimp only
    split
    · exact .head (.notified _) (ih _)
    · exact ih _

/-- A block that is awaited is judged, then the roots that it proves malformed are cleared away, if there
are any, and then the others are made wait for the children. -/
theorem handle_clears {a : Arrival} {awaiting : Awaiting} {p p' : Pass}
    (h : Pass.handle W rules a awaiting p (r.setPending (r.state.pending.without a.id)) = (p', r')) :
    ∃ r₁, (∀ again, Clears W again (Pass.take W rules a awaiting p r).2.2 again r₁) ∧
      ((Pass.take W rules a awaiting p r).1.malformed = [] → r₁.trace = (Pass.take W rules a awaiting p r).2.2.trace) ∧
      Pass.expandAll W (Pass.take W rules a awaiting p r).1.children (Pass.take W rules a awaiting p r).2.1 r₁ =
        (p', r') := by
  unfold Pass.handle at h
  rcases hc : Pass.take W rules a awaiting p r with ⟨verdict, p₁, r₁⟩
  rw [Pass.take] at hc
  rw [hc] at h
  dsimp only at h ⊢
  have harr : ∀ again, Clearing W again r₁ again (r₁.call (W.arrange verdict.malformed)).2 :=
    fun again => .arranged verdict.malformed
  have hperm := W.arrange_perm verdict.malformed r₁.world
  have htrace := Run.call_trace r₁ (W.arrange verdict.malformed)
  rw [← Run.call_fst] at hperm
  rcases hc₂ : r₁.call (W.arrange verdict.malformed) with ⟨doomed, r₂⟩
  rw [hc₂] at harr hperm htrace h
  dsimp only at harr hperm htrace h
  refine ⟨Pass.abandonAll W a.id doomed r₂, fun again => .head (harr again) (abandonAll_clears W again a.id doomed r₂),
    ?_, h⟩
  intro hnone
  rw [hnone] at hperm
  rw [hperm.eq_nil, Pass.abandonAll]
  exact htrace

/-- Making roots wait for children, no blocks are asked for and no download ends. -/
theorem expandAll_early (W : World ω) (children : List Child) (p : Pass) (r : Run ω) :
    Run.Adds Moment.Early r (Pass.expandAll W children p r).2 := by
  have hexpand : ∀ (child : Child) (p : Pass) (r : Run ω), Run.Adds Moment.Early r (Pass.expand W child p r).2 := by
    intro child p r
    unfold Pass.expand
    split
    · exact .refl rfl
    · next d _ =>
      have hawait : Run.Adds Moment.Early r (Pass.await child d r) :=
        await_adds _ _ _ (.inr (.inr (.inr ⟨_, _, _, rfl⟩)))
      dsimp only
      split
      · exact hawait
      · have hcalled : Run.Adds Moment.Early r ((Pass.await child d r).call (W.view child.id)).2 :=
          hawait.trans (.refl rfl)
        rcases hc : (Pass.await child d r).call (W.view child.id) with ⟨outcome, r₁⟩
        rw [hc] at hcalled
        rcases outcome with (e | raw)
        · cases e with
          | notFound id => exact hcalled
          | statusConflict | backend => exact hcalled.trans (.emit (.inl ⟨_, rfl⟩))
        · exact hcalled
  induction children generalizing p r with
  | nil => exact .refl rfl
  | cons child children ih => exact (hexpand child p r).trans (ih _ _)

/-! ## What clearing leaves alone -/

/-- Downloads are only taken out. -/
theorem Clearing.fewer (h : Clearing W again r again' r') {root : RootId} {d : Download}
    (hd : r'.state.roots.get? root = some d) : r.state.roots.get? root = some d := by
  cases h with
  | logged | notified | arranged | asked | dropped => exact hd
  | released => exact (get?_of_dismiss hd).2

theorem Clears.fewer (h : Clears W again r again' r') {root : RootId} {d : Download}
    (hd : r'.state.roots.get? root = some d) : r.state.roots.get? root = some d := by
  induction h with
  | refl => exact hd
  | tail _ hs ih => exact ih (hs.fewer hd)

/-- Nothing is done but reporting, ending downloads and asking for blocks. -/
theorem Clearing.adds (h : Clearing W again r again' r') : Run.Adds (fun m =>
    (∃ entry, m.effect = .logged entry) ∨ (∃ update, m.effect = .notified update) ∨
      (∃ session root, m.effect = .released session root) ∨ ∃ call, m.effect = .fetched call) r r' := by
  cases h with
  | logged entry => exact .emit (.inl ⟨entry, rfl⟩)
  | notified update => exact .emit (.inr (.inl ⟨update, rfl⟩))
  | arranged | dropped => exact .refl rfl
  | released root d => exact dismiss_adds _ _ _ (.inr (.inr (.inl ⟨_, _, rfl⟩)))
  | asked => exact .cons rfl (.inr (.inr (.inr ⟨_, rfl⟩)))

theorem Clears.grows (h : Clears W again r again' r') : Run.Adds (fun _ => True) r r' := by
  induction h with
  | refl => exact .refl rfl
  | tail _ hs ih => exact ih.trans (hs.adds.mono fun _ _ => trivial)

/-- The books stay in order. -/
theorem Clearing.books (h : Clearing W again r again' r') {owed : List Child} (hb : Books rules owed r.state) :
    Books rules owed r'.state := by
  cases h with
  | logged | notified | arranged | asked | dropped => exact hb
  | released root d left hd => exact hb.dismiss hd

theorem Clears.books (h : Clears W again r again' r') {owed : List Child} (hb : Books rules owed r.state) :
    Books rules owed r'.state := by
  induction h with
  | refl => exact hb
  | tail _ hs ih => exact hs.books ih

end BlockDag.Downloader
