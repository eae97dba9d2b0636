/-
What the small operations of a run leave alone: effects change the trace only, a call changes the
world only, and a download's state changes at its key only.
-/
import BlockDag.Downloader.Event
import BlockDag.Proofs.Table

namespace BlockDag.Downloader

variable {ω : Type}

namespace Run

variable {r r' r'' : Run ω}

@[simp] theorem emit_world (r : Run ω) (e : Effect) : (r.emit e).world = r.world := rfl

@[simp] theorem emit_state (r : Run ω) (e : Effect) : (r.emit e).state = r.state := rfl

@[simp] theorem emit_trace (r : Run ω) (e : Effect) : (r.emit e).trace = ⟨e, r.world, r.state⟩ :: r.trace := rfl

@[simp] theorem log_world (r : Run ω) (entry : LogEntry) : (r.log entry).world = r.world := rfl

@[simp] theorem log_state (r : Run ω) (entry : LogEntry) : (r.log entry).state = r.state := rfl

@[simp] theorem notify_world (r : Run ω) (update : Update) : (r.notify update).world = r.world := rfl

@[simp] theorem notify_state (r : Run ω) (update : Update) : (r.notify update).state = r.state := rfl

@[simp] theorem call_fst {α : Type} (r : Run ω) (f : ω → α × ω) : (r.call f).1 = (f r.world).1 := rfl

@[simp] theorem call_world {α : Type} (r : Run ω) (f : ω → α × ω) : (r.call f).2.world = (f r.world).2 := rfl

@[simp] theorem call_state {α : Type} (r : Run ω) (f : ω → α × ω) : (r.call f).2.state = r.state := rfl

@[simp] theorem call_trace {α : Type} (r : Run ω) (f : ω → α × ω) : (r.call f).2.trace = r.trace := rfl

@[simp] theorem logAll_world (r : Run ω) (entries : List LogEntry) : (r.logAll entries).world = r.world := by
  unfold logAll
  induction entries generalizing r with
  | nil => rfl
  | cons e es ih => exact ih (r.log e)

@[simp] theorem logAll_state (r : Run ω) (entries : List LogEntry) : (r.logAll entries).state = r.state := by
  unfold logAll
  induction entries generalizing r with
  | nil => rfl
  | cons e es ih => exact ih (r.log e)

@[simp] theorem setPending_world (r : Run ω) (p : PendingIndex) : (r.setPending p).world = r.world := rfl

@[simp] theorem setPending_pending (r : Run ω) (p : PendingIndex) : (r.setPending p).state.pending = p := rfl

@[simp] theorem setPending_roots (r : Run ω) (p : PendingIndex) :
    (r.setPending p).state.roots = r.state.roots := rfl

@[simp] theorem setPending_trace (r : Run ω) (p : PendingIndex) : (r.setPending p).trace = r.trace := rfl

/-! ## What a stretch of a run adds to the trace -/

/-- All that `r'` did after `r` satisfies `P`. -/
def Adds (P : Moment ω → Prop) (r r' : Run ω) : Prop := ∃ new, r'.trace = new ++ r.trace ∧ ∀ m ∈ new, P m

namespace Adds

variable {P Q : Moment ω → Prop}

theorem refl (h : r'.trace = r.trace) : Adds P r r' := ⟨[], h, by simp⟩

theorem trans (h : Adds P r r') (h' : Adds P r' r'') : Adds P r r'' := by
  obtain ⟨new, hn, hp⟩ := h
  obtain ⟨new', hn', hp'⟩ := h'
  refine ⟨new' ++ new, by rw [hn', hn, List.append_assoc], ?_⟩
  intro m hm
  rcases List.mem_append.1 hm with hm | hm
  · exact hp' m hm
  · exact hp m hm

theorem mono (hPQ : ∀ m, P m → Q m) (h : Adds P r r') : Adds Q r r' := by
  obtain ⟨new, hn, hp⟩ := h
  exact ⟨new, hn, fun m hm => hPQ m (hp m hm)⟩

theorem and (h : Adds P r r') (h' : Adds Q r r') : Adds (fun m => P m ∧ Q m) r r' := by
  obtain ⟨new, hn, hp⟩ := h
  obtain ⟨new', hn', hq⟩ := h'
  obtain rfl : new = new' := List.append_cancel_right (hn.symm.trans hn')
  exact ⟨new, hn, fun m hm => ⟨hp m hm, hq m hm⟩⟩

theorem cons {m : Moment ω} (ht : r'.trace = m :: r.trace) (h : P m) : Adds P r r' :=
  ⟨[m], ht, by simpa using h⟩

theorem emit {e : Effect} (h : P ⟨e, r.world, r.state⟩) : Adds P r (r.emit e) := cons rfl h

theorem logAll (entries : List LogEntry) (h : ∀ entry, P ⟨.logged entry, r.world, r.state⟩) :
    Adds P r (r.logAll entries) := by
  unfold Run.logAll
  induction entries generalizing r with
  | nil => exact refl rfl
  | cons e es ih => exact (emit (h e)).trans (ih h)

theorem setDownload {entries : List LogEntry} (h : ∀ entry, P ⟨.logged entry, r.world, r.state⟩) (root : RootId)
    (d : Download) : Adds P r ((r.logAll entries).setDownload root d) :=
  (logAll entries h).trans (refl rfl)

/-- What is in the trace was there before, or satisfies `P`. -/
theorem mem (h : Adds P r r') {m : Moment ω} (hm : m ∈ r'.trace) : m ∈ r.trace ∨ P m := by
  obtain ⟨new, hn, hp⟩ := h
  rw [hn] at hm
  exact (List.mem_append.1 hm).elim (fun h => .inr (hp m h)) .inl

theorem mem_of_mem (h : Adds P r r') {m : Moment ω} (hm : m ∈ r.trace) : m ∈ r'.trace := by
  obtain ⟨new, hn, -⟩ := h
  rw [hn]
  exact List.mem_append_right _ hm

/-- What holds of all that was done over two stretches holds over each. -/
theorem split (h : Adds Q r r') (h' : Adds Q r' r'') (hP : Adds P r r'') : Adds P r r' ∧ Adds P r' r'' := by
  obtain ⟨new, hn, -⟩ := h
  obtain ⟨new', hn', -⟩ := h'
  obtain ⟨both, hb, hall⟩ := hP
  obtain rfl : both = new' ++ new := by
    refine List.append_cancel_right (hb.symm.trans ?_)
    rw [hn', hn, List.append_assoc]
  exact ⟨⟨new, hn, fun m hm => hall m (List.mem_append_right _ hm)⟩,
    new', hn', fun m hm => hall m (List.mem_append_left _ hm)⟩

/-- What holds of a whole trace holds of all that was done last. -/
theorem of_forall (h : Adds Q r r') (hP : ∀ m ∈ r'.trace, P m) : Adds P r r' := by
  obtain ⟨new, hn, -⟩ := h
  refine ⟨new, hn, fun m hm => hP m ?_⟩
  rw [hn]
  exact List.mem_append_left _ hm

end Adds

/-- Something that `r'` did after `r` satisfies `P`. -/
def Shows (P : Moment ω → Prop) (r r' : Run ω) : Prop := ∃ new, r'.trace = new ++ r.trace ∧ ∃ m ∈ new, P m

namespace Shows

variable {P Q : Moment ω → Prop}

theorem emit {e : Effect} (h : P ⟨e, r.world, r.state⟩) : Shows P r (r.emit e) :=
  ⟨[_], rfl, _, List.mem_singleton_self _, h⟩

theorem mono (hPQ : ∀ m, P m → Q m) (h : Shows P r r') : Shows Q r r' := by
  obtain ⟨new, hn, m, hm, hp⟩ := h
  exact ⟨new, hn, m, hm, hPQ m hp⟩

/-- What was done is still done later. -/
theorem later (h : Shows P r r') (h' : Adds Q r' r'') : Shows P r r'' := by
  obtain ⟨new, hn, m, hm, hp⟩ := h
  obtain ⟨new', hn', -⟩ := h'
  exact ⟨new' ++ new, by rw [hn', hn, List.append_assoc], m, List.mem_append_right _ hm, hp⟩

theorem earlier (h : Adds Q r r') (h' : Shows P r' r'') : Shows P r r'' := by
  obtain ⟨new, hn, -⟩ := h
  obtain ⟨new', hn', m, hm, hp⟩ := h'
  exact ⟨new' ++ new, by rw [hn', hn, List.append_assoc], m, List.mem_append_left _ hm, hp⟩

/-- What all that was done satisfies, some of it satisfies too. -/
theorem and_adds (h : Shows P r r') (h' : Adds Q r r') : Shows (fun m => P m ∧ Q m) r r' := by
  obtain ⟨new, hn, m, hm, hp⟩ := h
  obtain ⟨new', hn', hq⟩ := h'
  obtain rfl : new = new' := List.append_cancel_right (hn.symm.trans hn')
  exact ⟨new, hn, m, hm, hp, hq m hm⟩

end Shows

end Run

/-! ## Changes to downloads only -/

/-- `s'` differs from `s` at most in what its downloads have outstanding and in their phases. -/
structure State.Tuned (s s' : State) : Prop where
  pending : s'.pending = s.pending
  opened : s'.opened = s.opened
  cancelled : s'.cancelled = s.cancelled
  stopped : s'.stopped = s.stopped
  keys : s'.roots.keys = s.roots.keys
  downloads : ∀ {root d'}, s'.roots.get? root = some d' → ∃ d, s.roots.get? root = some d ∧
    d'.tag = d.tag ∧ d'.session = d.session ∧ d'.descendants = d.descendants

namespace State.Tuned

variable {s s' s'' : State}

theorem refl (s : State) : Tuned s s := ⟨rfl, rfl, rfl, rfl, rfl, fun {_ d'} h => ⟨d', h, rfl, rfl, rfl⟩⟩

theorem trans (h : Tuned s s') (h' : Tuned s' s'') : Tuned s s'' := by
  refine ⟨h'.pending.trans h.pending, h'.opened.trans h.opened, h'.cancelled.trans h.cancelled,
    h'.stopped.trans h.stopped, h'.keys.trans h.keys, ?_⟩
  intro root d'' hd''
  obtain ⟨d', hd', ht', hs', hx'⟩ := h'.downloads hd''
  obtain ⟨d, hd, ht, hs, hx⟩ := h.downloads hd'
  exact ⟨d, hd, ht'.trans ht, hs'.trans hs, hx'.trans hx⟩

theorem setDownload {r : Run ω} {root : RootId} {d d' : Download} (h : r.state.roots.get? root = some d)
    (htag : d'.tag = d.tag) (hsession : d'.session = d.session) (hdesc : d'.descendants = d.descendants) :
    Tuned r.state (r.setDownload root d').state := by
  refine ⟨rfl, rfl, rfl, rfl, Table.keys_insert_of_mem (Table.mem_keys_of_get? h) d', ?_⟩
  intro other e he
  rcases Table.get?_insert_eq_some_iff.1 he with ⟨rfl, rfl⟩ | ⟨-, he⟩
  · exact ⟨d, h, htag, hsession, hdesc⟩
  · exact ⟨e, he, rfl, rfl, rfl⟩

end State.Tuned

end BlockDag.Downloader
