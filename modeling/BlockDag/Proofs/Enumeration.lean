/-
The preorder goes through the whole tree. The loop that takes positions off a stack, and puts their children
on it, ends for every 64-bit length; it comes to each position of the tree once, in the order in which the
tree is walked down to its leaves. The stretches of data that the positions get along it follow one another,
from the first byte to the last.
-/
import BlockDag.Proofs.Figures
import BlockDag.Proofs.Subtree

namespace BlockDag.Schema

variable {s : Schema}

/-! ## The loop -/

/-- The loop that visits what is on `stack`. The position on top is taken off and its children are put on
instead, the first one on top; the end of their run is a 64-bit number. The loop ends with an empty stack. -/
inductive Visits (s : Schema) : (stack order : List Nat) → Prop
  | done : Visits s [] []
  | visit {ix : Nat} {stack order : List Nat} :
      Word.add? (s.layout.firstChild ix) (s.linkCount ix) = some (s.layout.firstChild ix + s.linkCount ix) →
      Visits s (s.children ix ++ stack) order → Visits s (ix :: stack) (ix :: order)

/-- Each round of the loop is settled by the stack, so it comes to one order only. -/
theorem Visits.unique {stack order other : List Nat} (h : Visits s stack order) (h' : Visits s stack other) :
    order = other := by
  induction h generalizing other with
  | done => cases h'; rfl
  | visit _ _ ih =>
    cases h' with
    | visit _ h' => rw [ih h']

theorem Fits.firstChild_add_le (hs : s.Fits) (ix : Nat) : s.layout.firstChild ix + s.linkCount ix ≤ Word.max := by
  rcases Nat.eq_zero_or_pos (s.linkCount ix) with h0 | h0
  · rw [h0]
    exact Word.satAdd_le _ _
  · have hlast := s.firstChild_add_lt hs (show s.linkCount ix - 1 < s.linkCount ix by omega)
    have hmax := s.totalBlocks_le_max hs
    omega

/-- The loop goes through the subtrees of what is on the stack, one after the other. -/
theorem Fits.visits (hs : s.Fits) {stack : List Nat} (hlt : ∀ ix ∈ stack, ix < s.totalBlocks) :
    Visits s stack (stack.flatMap s.subtree) := by
  induction hn : (stack.flatMap s.subtree).length using Nat.strongRecOn generalizing stack with
  | ind n ih =>
    cases stack with
    | nil => exact .done
    | cons ix stack =>
      have hix := hlt ix List.mem_cons_self
      -- the children take the place of their parent, in front of the rest of the stack
      have hnext : (ix :: stack).flatMap s.subtree = ix :: (s.children ix ++ stack).flatMap s.subtree := by
        rw [List.flatMap_cons, hs.subtree_eq hix, List.flatMap_append, List.cons_append]
      rw [hnext] at hn ⊢
      refine .visit (Word.add?_eq (hs.firstChild_add_le ix)) (ih _ (by simp [← hn]) (fun c hc => ?_) rfl)
      rcases List.mem_append.1 hc with hc | hc
      · exact (hs.lt_of_mem_children hix hc).2
      · exact hlt c (List.mem_cons_of_mem _ hc)

/-! ## Stretches of data -/

/-- The data of position `ix`: those from `start` on and before `stop`. -/
structure Stretch where
  ix : Nat
  start : Nat
  stop : Nat
deriving DecidableEq

/-- The stretches that the positions of `order` get, each one from where the one before it ends. -/
def stretches (s : Schema) : (start : Nat) → (order : List Nat) → List Stretch
  | _, [] => []
  | start, ix :: order =>
    ⟨ix, start, start + s.dataSize ix⟩ :: stretches s (start + s.dataSize ix) order

/-- The data are cut where the stretches end. -/
theorem cut_eq_stretches (s : Schema) (order : List Nat) (start : Nat) (stream : Bytes) :
    s.cut order (stream.drop start) =
      (s.stretches start order).map fun r => (r.ix, stream.extract r.start r.stop) := by
  induction order generalizing start with
  | nil => rfl
  | cons ix order ih =>
    rw [cut, stretches, List.map_cons, ← ih]
    simp [List.extract_eq_take_drop, List.drop_drop]

/-- Stretches that follow one another have every place up to the end of the last one once, and in order. -/
theorem flatMap_stretches (s : Schema) (order : List Nat) (start : Nat) :
    ((s.stretches start order).flatMap fun r => List.range' r.start (r.stop - r.start)) =
      List.range' start (order.map s.dataSize).sum := by
  induction order generalizing start with
  | nil => rfl
  | cons ix order ih =>
    rw [stretches, List.flatMap_cons, ih, List.map_cons, List.sum_cons, Nat.add_sub_cancel_left, List.range'_append_1]

theorem isChain_stretches (s : Schema) (order : List Nat) (start : Nat) :
    (s.stretches start order).IsChain fun r next => r.stop = next.start := by
  induction order generalizing start with
  | nil => exact .nil
  | cons ix order ih =>
    cases order with
    | nil => exact .singleton _
    | cons next order => exact .cons_cons rfl (ih _)

/-- Each position of the order gets one stretch, as long as its share. -/
theorem map_stretches (s : Schema) (order : List Nat) (start : Nat) :
    (s.stretches start order).map (fun r => (r.ix, r.stop - r.start)) = order.map fun ix => (ix, s.dataSize ix) := by
  induction order generalizing start with
  | nil => rfl
  | cons ix order ih => rw [stretches, List.map_cons, ih, List.map_cons, Nat.add_sub_cancel_left]

/-- No end of a stretch is beyond the end of the last one. -/
theorem stop_le_of_mem {order : List Nat} {start : Nat} {r : Stretch} (h : r ∈ s.stretches start order) :
    r.stop ≤ start + (order.map s.dataSize).sum := by
  induction order generalizing start with
  | nil => cases h
  | cons ix order ih =>
    rw [List.map_cons, List.sum_cons]
    rcases List.mem_cons.1 h with rfl | h
    · show start + s.dataSize ix ≤ _
      omega
    · have := ih h
      omega

/-- The preorder enumerates the tree of a schema of any 64-bit length. It is what the loop over a stack of
positions ends with, has each position of the tree once, and lists a position before the subtrees of its
children, in order; no run of children passes the end of the tree. The data are cut along it into stretches
as long as the shares of the positions, each from where the one before it ends, and these have every place of
the data once and in order. -/
theorem preorder_enumerates (s : Schema) (hs : s.length ≤ Word.max) :
    (∀ order, Visits s [0] order ↔ order = s.preorder) ∧
    s.preorder.Perm (List.range s.totalBlocks) ∧ s.preorder = s.subtree 0 ∧
    (∀ ix < s.totalBlocks, s.subtree ix = ix :: (s.children ix).flatMap s.subtree ∧
      ∀ c ∈ s.children ix, c < s.totalBlocks) ∧
    let stretches := s.stretches 0 s.preorder
    (∀ stream, s.cut s.preorder stream = stretches.map fun r => (r.ix, stream.extract r.start r.stop)) ∧
    (stretches.map fun r => (r.ix, r.stop - r.start)) = (s.preorder.map fun ix => (ix, s.dataSize ix)) ∧
    (stretches.IsChain fun r next => r.stop = next.start) ∧ (∀ r ∈ stretches, r.stop ≤ s.length) ∧
    (stretches.flatMap fun r => List.range' r.start (r.stop - r.start)) = List.range s.length := by
  have hfits : s.Fits := hs
  have horder := hfits.preorder_eq
  have hperm : s.preorder.Perm (List.range s.totalBlocks) := horder ▸ hfits.subtree_zero_perm
  have hloop : Visits s [0] s.preorder := by
    have hroot : ∀ ix ∈ [0], ix < s.totalBlocks := by simpa using s.totalBlocks_pos
    simpa [horder] using hfits.visits hroot
  have hsum : (s.preorder.map s.dataSize).sum = s.length := by
    rw [(hperm.map _).sum_eq, sum_dataSize]
  refine ⟨fun order => ⟨fun h => h.unique hloop, fun h => h ▸ hloop⟩, hperm, horder, fun ix hix => ?_,
    s.cut_eq_stretches _ 0, s.map_stretches _ 0, s.isChain_stretches _ 0, fun r hr => ?_, ?_⟩
  · exact ⟨hfits.subtree_eq hix, fun c hc => (hfits.lt_of_mem_children hix hc).2⟩
  · simpa [hsum] using stop_le_of_mem hr
  · rw [flatMap_stretches, hsum, List.range_eq_range']

/-- A tree of eight blocks with two links each at most, the last of which has no brother. -/
theorem preorder_enumerates_eight :
    let s : Schema := ⟨⟨71, by decide, by decide, by decide⟩, 300⟩
    s.length ≤ Word.max ∧ s.preorder = [0, 1, 3, 7, 4, 2, 5, 6] ∧ Visits s [0] [0, 1, 3, 7, 4, 2, 5, 6] ∧
      s.stretches 0 s.preorder = [⟨0, 0, 5⟩, ⟨1, 5, 10⟩, ⟨3, 10, 47⟩, ⟨7, 47, 88⟩, ⟨4, 88, 157⟩, ⟨2, 157, 162⟩,
        ⟨5, 162, 231⟩, ⟨6, 231, 300⟩] := by
  intro s
  have hpreorder : s.preorder = [0, 1, 3, 7, 4, 2, 5, 6] := by decide
  exact ⟨by decide, hpreorder, ((preorder_enumerates s (by decide)).1 _).2 hpreorder.symm, by decide⟩

end BlockDag.Schema
