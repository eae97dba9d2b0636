/-
Subtrees and the preorder. The subtree of a position lists it before the subtrees of its children;
that of the root lists every position of the tree exactly once, and it is the preorder in which a
blob's data is handed out. Handing out and joining again are inverse.
-/
import BlockDag.Blob.Split
import BlockDag.Proofs.Shape
import Mathlib.Data.List.Flatten

namespace BlockDag

namespace Schema

variable (s : Schema)

/-- The positions below `ix` and itself, every one before its subtree, at most `fuel` levels. -/
def below : (fuel : Nat) → (ix : Nat) → List Nat
  | 0, _ => []
  | fuel + 1, ix => ix :: (s.children ix).flatMap (below fuel)

/-- The subtree of `ix`. A child has a higher number, so there are not more levels than positions
from `ix` on. -/
def subtree (ix : Nat) : List Nat := s.below (s.totalBlocks - ix) ix

variable {s}

/-- More levels than there are positions change nothing. -/
theorem Fits.below_eq (hs : s.Fits) {n m ix : Nat} (h : ix < s.totalBlocks) (hn : s.totalBlocks - ix ≤ n)
    (hm : s.totalBlocks - ix ≤ m) : s.below n ix = s.below m ix := by
  induction n generalizing m ix with
  | zero => omega
  | succ n ih =>
    obtain ⟨m, rfl⟩ : ∃ k, m = k + 1 := ⟨m - 1, by omega⟩
    rw [below, below]
    congr 1
    apply List.flatMap_congr
    intro c hc
    have hlt := hs.lt_of_mem_children h hc
    exact ih hlt.2 (by omega) (by omega)

theorem Fits.subtree_eq (hs : s.Fits) {ix : Nat} (h : ix < s.totalBlocks) :
    s.subtree ix = ix :: (s.children ix).flatMap s.subtree := by
  obtain ⟨n, hn⟩ : ∃ n, s.totalBlocks - ix = n + 1 := ⟨s.totalBlocks - ix - 1, by omega⟩
  rw [subtree, hn, below]
  congr 1
  apply List.flatMap_congr
  intro c hc
  have hlt := hs.lt_of_mem_children h hc
  exact hs.below_eq hlt.2 (by omega) (Nat.le_refl _)

/-- The subtrees of the positions that the first `k` link to, with those, are the whole tree. -/
theorem Fits.range_append_subtrees_perm (hs : s.Fits) {k : Nat} (h : k ≤ s.totalBlocks) :
    (s.subtree 0).Perm (List.range k ++ (List.range' k (s.reach k - k)).flatMap s.subtree) := by
  induction k with
  | zero => simp [reach_zero]
  | succ k ih =>
    have hk : k < s.totalBlocks := h
    have hr := s.lt_reach hk
    have hmono := s.reach_mono k
    -- position `k` makes room for its children at the end
    have hfront : List.range' k (s.reach k - k) = k :: List.range' (k + 1) (s.reach k - (k + 1)) := by
      rw [show s.reach k - k = s.reach k - (k + 1) + 1 by omega, List.range'_succ]
    have hback : List.range' (k + 1) (s.reach (k + 1) - (k + 1)) =
        List.range' (k + 1) (s.reach k - (k + 1)) ++ s.children k := by
      have hsucc := s.reach_le (k + 1)
      rw [hs.children_eq hk, show s.reach (k + 1) - (k + 1) =
        (s.reach k - (k + 1)) + (s.reach (k + 1) - s.reach k) by omega, ← List.range'_append_1]
      congr 2
      omega
    refine (ih (by omega)).trans ?_
    rw [hfront, List.flatMap_cons, hs.subtree_eq hk, hback, List.range_succ, List.flatMap_append]
    simp only [List.append_assoc, List.cons_append]
    refine List.Perm.append_left _ (List.Perm.cons _ ?_)
    exact List.perm_append_comm

/-- The subtree of the root has every position of the tree exactly once. -/
theorem Fits.subtree_zero_perm (hs : s.Fits) : (s.subtree 0).Perm (List.range s.totalBlocks) := by
  have := hs.range_append_subtrees_perm (Nat.le_refl s.totalBlocks)
  rw [reach_totalBlocks, Nat.sub_self] at this
  simpa using this

/-- Every subtree is part of the subtree of the root. -/
theorem Fits.subtree_sublist (hs : s.Fits) (ix : Nat) (h : ix < s.totalBlocks) :
    (s.subtree ix).Sublist (s.subtree 0) := by
  induction ix using Nat.strongRecOn with
  | ind ix ih =>
    rcases Nat.eq_zero_or_pos ix with rfl | h0
    · exact List.Sublist.refl _
    · obtain ⟨p, hp, hc⟩ := hs.exists_parent h0 h
      refine List.Sublist.trans ?_ (ih p hp (by omega))
      rw [hs.subtree_eq (show p < s.totalBlocks by omega)]
      obtain ⟨l₁, l₂, hl⟩ := List.append_of_mem hc
      rw [hl, List.flatMap_append, List.flatMap_cons]
      exact ((List.sublist_append_left _ _).trans (List.sublist_append_right _ _)).trans
        (List.sublist_cons_self _ _)

theorem Fits.length_subtree_le (hs : s.Fits) {ix : Nat} (h : ix < s.totalBlocks) :
    (s.subtree ix).length ≤ s.totalBlocks := by
  have := (hs.subtree_sublist ix h).length_le
  rwa [hs.subtree_zero_perm.length_eq, List.length_range] at this

/-- With enough fuel, visiting lists the subtrees of the stack. -/
theorem Fits.visit_eq (hs : s.Fits) (fuel : Nat) {stack : List Nat} (hlt : ∀ ix ∈ stack, ix < s.totalBlocks)
    (hf : (stack.flatMap s.subtree).length ≤ fuel) : s.visit fuel stack = stack.flatMap s.subtree := by
  induction fuel generalizing stack with
  | zero =>
    rw [visit]
    exact (List.eq_nil_of_length_eq_zero (Nat.le_zero.1 hf)).symm
  | succ fuel ih =>
    cases stack with
    | nil => rfl
    | cons ix stack =>
      have hix := hlt ix List.mem_cons_self
      rw [List.flatMap_cons, hs.subtree_eq hix] at hf ⊢
      -- the children take the place of their parent, in front of the rest of the stack
      rw [visit, ih, List.flatMap_append, List.cons_append]
      · intro c hc
        rcases List.mem_append.1 hc with hc | hc
        · exact (hs.lt_of_mem_children hix hc).2
        · exact hlt c (List.mem_cons_of_mem _ hc)
      · rw [List.flatMap_append]
        simpa using hf

theorem Fits.preorder_eq (hs : s.Fits) : s.preorder = s.subtree 0 := by
  have h0 : ∀ ix ∈ [0], ix < s.totalBlocks := by simpa using s.totalBlocks_pos
  have := hs.visit_eq s.totalBlocks h0 (by simpa using hs.length_subtree_le s.totalBlocks_pos)
  simpa [preorder] using this

theorem Small.preorder_eq (hs : s.Small) : s.preorder = s.subtree 0 := hs.fits.preorder_eq

theorem Small.preorder_perm (hs : s.Small) : s.preorder.Perm (List.range s.totalBlocks) := by
  rw [hs.preorder_eq]
  exact hs.fits.subtree_zero_perm

theorem Small.mem_preorder (hs : s.Small) {ix : Nat} : ix ∈ s.preorder ↔ ix < s.totalBlocks := by
  rw [hs.preorder_perm.mem_iff, List.mem_range]

/-- The shares along the preorder add up to the length. -/
theorem Small.sum_dataSize_preorder (hs : s.Small) : (s.preorder.map s.dataSize).sum = s.length := by
  rw [(hs.preorder_perm.map _).sum_eq, sum_dataSize]

/-! ## Handing out data -/

variable (s)

/-- Cutting gives back the shares that a string was joined from. -/
theorem cut_flatMap (order : List Nat) (share : Nat → Bytes)
    (h : ∀ ix ∈ order, (share ix).length = s.dataSize ix) :
    s.cut order (order.flatMap share) = order.map fun ix => (ix, share ix) := by
  induction order with
  | nil => rfl
  | cons ix order ih =>
    have hix := h ix List.mem_cons_self
    rw [List.flatMap_cons, cut]
    simp only [List.splitAt_eq, ← hix, List.take_left, List.drop_left, List.map_cons]
    rw [ih fun j hj => h j (List.mem_cons_of_mem _ hj)]

/-- A string as long as the shares of different positions together is joined from such shares. -/
theorem exists_shares {order : List Nat} (hd : order.Nodup) (stream : Bytes)
    (h : stream.length = (order.map s.dataSize).sum) :
    ∃ share : Nat → Bytes, (∀ ix ∈ order, (share ix).length = s.dataSize ix) ∧ stream = order.flatMap share := by
  induction order generalizing stream with
  | nil =>
    refine ⟨fun _ => [], by simp, ?_⟩
    simpa using h
  | cons ix order ih =>
    rw [List.map_cons, List.sum_cons] at h
    obtain ⟨hn, hd⟩ := List.nodup_cons.1 hd
    obtain ⟨share, hlen, hjoin⟩ := ih hd (stream.drop (s.dataSize ix))
      (by rw [List.length_drop]; omega)
    -- `ix` does not come again, so it can be given the front without changing the other shares
    have hne : ∀ j ∈ order, j ≠ ix := fun j hj he => hn (he ▸ hj)
    refine ⟨Function.update share ix (stream.take (s.dataSize ix)), ?_, ?_⟩
    · intro j hj
      rcases List.mem_cons.1 hj with rfl | hj
      · rw [Function.update_self, List.length_take]
        omega
      · rw [Function.update_of_ne (hne j hj)]
        exact hlen j hj
    · rw [List.flatMap_cons, Function.update_self,
        List.flatMap_congr fun j hj => Function.update_of_ne (hne j hj) _ share, ← hjoin,
        List.take_append_drop]

end Schema

namespace EncodedBlob

/-- Filing shares keeps what each position was given. -/
theorem dataAt_foldl {share : Nat → Bytes} (order : List Nat) (filed : Array Bytes) {ix : Nat}
    (h : ix < filed.size) :
    dataAt ((order.map fun i => (i, share i)).foldl (fun f e => f.setIfInBounds e.1 e.2) filed) ix =
      if ix ∈ order then share ix else dataAt filed ix := by
  induction order generalizing filed with
  | nil => simp
  | cons i order ih =>
    rw [List.map_cons, List.foldl_cons, ih _ (by simpa using h)]
    by_cases hm : ix ∈ order
    · simp [hm]
    · by_cases hi : i = ix
      · subst hi
        simp [hm, dataAt, Array.getD, h]
      · simp [hm, Ne.symm hi, dataAt, Array.getD, h, hi]

/-- Every position finds the share that was filed for it. -/
theorem dataAt_fileShares {share : Nat → Bytes} {order : List Nat} {total ix : Nat} (h : ix < total)
    (hm : ix ∈ order) : dataAt (fileShares total (order.map fun i => (i, share i))) ix = share ix := by
  unfold fileShares
  rw [dataAt_foldl order _ (by simpa using h), if_pos hm]

end EncodedBlob

end BlockDag
