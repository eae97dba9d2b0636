/-
How the positions of a download tile its tree. Those at which a block was validated, and the
subtrees of those that are waited for or owed, have every position of the tree exactly once. Judging
a block replaces its positions by themselves and their children's subtrees; letting the root wait
for a child moves a position from what is owed to what is waited for.
-/
import BlockDag.Download.State
import BlockDag.Proofs.Subtree

namespace BlockDag

open scoped List

namespace Schema

variable {s : Schema} {positions : List Nat}

/-- The subtrees of some positions are those positions and the subtrees of their children. -/
theorem Small.flatMap_subtree_perm (hs : s.Small) (hlt : ∀ ix ∈ positions, ix < s.totalBlocks) :
    (positions.flatMap s.subtree).Perm (positions ++ (positions.flatMap s.children).flatMap s.subtree) := by
  have heq : positions.flatMap s.subtree = positions.flatMap fun ix => ix :: (s.children ix).flatMap s.subtree :=
    List.flatMap_congr fun ix hix => hs.fits.subtree_eq (hlt ix hix)
  rw [heq, List.flatMap_assoc]
  have hperm := List.map_append_flatMap_perm positions id fun ix => (s.children ix).flatMap s.subtree
  rw [List.map_id] at hperm
  exact hperm.symm

end Schema

/-- The positions that were awaited so far, those validated, those waited for and those owed, where
the download is in the given phase. While the shape is unknown, there is the root's position only. -/
inductive Tiled (awaited validated waiting owed : List Nat) : DownloadPhase → Prop
  | requested : awaited = [0] → validated = [] → waiting = [0] → owed = [] →
      Tiled awaited validated waiting owed .requested
  | expanding (t : Schema) : awaited.Perm (validated ++ waiting) → (∀ ix ∈ waiting ++ owed, ix < t.totalBlocks) →
      (validated ++ (waiting ++ owed).flatMap t.subtree).Perm (List.range t.totalBlocks) →
      Tiled awaited validated waiting owed (.expanding t)

namespace Tiled

variable {awaited validated waiting owed : List Nat} {phase : DownloadPhase} {t : Schema}

theorem perm (h : Tiled awaited validated waiting owed phase) {waiting' : List Nat} (hw : waiting.Perm waiting') :
    Tiled awaited validated waiting' owed phase := by
  cases h with
  | requested ha hv h0 ho =>
    subst h0
    exact .requested ha hv (List.singleton_perm.1 hw).symm ho
  | expanding t ha hlt htiles =>
    refine .expanding t (ha.trans (hw.append_left _)) ?_ (.trans ?_ htiles)
    · intro ix hix
      exact hlt ix ((hw.append_right owed).mem_iff.2 hix)
    · exact (((hw.append_right owed).flatMap_right t.subtree).append_left validated).symm

/-- Giving the tree a shape keeps the tiling. -/
theorem give (hs : t.Small) (h : Tiled awaited validated waiting owed .requested) :
    Tiled awaited validated waiting owed (.expanding t) := by
  cases h with
  | requested ha hv hw ho =>
    subst ha hv hw ho
    refine .expanding t (List.Perm.refl _) ?_ ?_
    · simpa using t.totalBlocks_pos
    · simpa using hs.fits.subtree_zero_perm

/-- No position is twice among the validated, the waited for and the owed ones. -/
theorem nodup (hs : t.Small) (h : Tiled awaited validated waiting owed (.expanding t)) :
    (validated ++ (waiting ++ owed)).Nodup := by
  cases h with
  | expanding _ _ hlt htiles =>
    have hall := htiles.nodup_iff.2 List.nodup_range
    rw [((hs.flatMap_subtree_perm hlt).append_left validated).nodup_iff, ← List.append_assoc] at hall
    exact (List.nodup_append.1 hall).1

/-- No position is waited at twice. -/
theorem nodup_waiting (h : Tiled awaited validated waiting owed phase) (hs : ∀ t, phase = .expanding t → t.Small) :
    waiting.Nodup := by
  cases hphase : phase with
  | requested =>
    rw [hphase] at h
    cases h with
    | requested _ _ hw _ =>
      simp [hw]
  | expanding t =>
    rw [hphase] at h
    have hall := h.nodup (hs t hphase)
    exact (List.nodup_append.1 (List.nodup_append.1 hall).2.1).1

theorem lt_of_mem (h : Tiled awaited validated waiting owed (.expanding t)) {ix : Nat} (hix : ix ∈ awaited) :
    ix < t.totalBlocks := by
  cases h with
  | expanding _ ha hlt htiles =>
    rcases List.mem_append.1 (ha.mem_iff.1 hix) with hv | hw
    · exact List.mem_range.1 (htiles.mem_iff.1 (List.mem_append_left _ hv))
    · exact hlt ix (List.mem_append_left _ hw)

/-- There is room in the tree for all of them. -/
theorem length_le (hs : t.Small) (h : Tiled awaited validated waiting owed (.expanding t)) :
    validated.length + (waiting.length + owed.length) ≤ t.totalBlocks := by
  cases h with
  | expanding _ _ hlt htiles =>
    have htotal := htiles.length_eq
    have hbelow := (hs.flatMap_subtree_perm hlt).length_eq
    simp only [List.length_append, List.length_range] at htotal hbelow
    omega

theorem length_awaited_le (hs : t.Small) (h : Tiled awaited validated waiting owed (.expanding t)) :
    awaited.length ≤ t.totalBlocks := by
  have hroom := h.length_le hs
  cases h with
  | expanding _ ha _ _ =>
    have := ha.length_eq
    rw [List.length_append] at this
    omega

/-- A block is validated at some of the positions that are waited for, and the children of those
are owed instead. -/
theorem grow (hs : t.Small) {taken rest : List Nat} (h : Tiled awaited validated waiting [] (.expanding t))
    (hw : waiting.Perm (taken ++ rest)) :
    Tiled awaited (taken ++ validated) rest (taken.flatMap t.children) (.expanding t) := by
  cases h with
  | expanding _ ha hlt htiles =>
    rw [List.append_nil] at hlt htiles
    have htaken : ∀ ix ∈ taken, ix < t.totalBlocks := fun ix hix => hlt ix (hw.mem_iff.2 (List.mem_append_left _ hix))
    refine .expanding t ?_ ?_ ?_
    · calc awaited
          ~ validated ++ waiting := ha
        _ ~ validated ++ (taken ++ rest) := hw.append_left _
        _ = validated ++ taken ++ rest := (List.append_assoc _ _ _).symm
        _ ~ taken ++ validated ++ rest := List.perm_append_comm.append_right _
    · intro ix hix
      rcases List.mem_append.1 hix with hix | hix
      · exact hlt ix (hw.mem_iff.2 (List.mem_append_right _ hix))
      · obtain ⟨j, hj, hc⟩ := List.mem_flatMap.1 hix
        exact (hs.fits.lt_of_mem_children (htaken j hj) hc).2
    · refine .trans ?_ htiles
      calc taken ++ validated ++ (rest ++ taken.flatMap t.children).flatMap t.subtree
          ~ validated ++ (taken ++ (taken.flatMap t.children).flatMap t.subtree ++ rest.flatMap t.subtree) := by
            rw [List.perm_iff_count]
            intro ix
            simp only [List.flatMap_append, List.count_append]
            omega
        _ ~ validated ++ (taken.flatMap t.subtree ++ rest.flatMap t.subtree) :=
            ((hs.flatMap_subtree_perm htaken).symm.append_right _).append_left _
        _ = validated ++ (taken ++ rest).flatMap t.subtree := by rw [List.flatMap_append]
        _ ~ validated ++ waiting.flatMap t.subtree := (hw.symm.flatMap_right t.subtree).append_left _

/-- While the shape is unknown, nothing is owed. -/
theorem shape_of_owed {ix : Nat} (h : Tiled awaited validated waiting (ix :: owed) phase) :
    ∃ t, phase = .expanding t := by
  cases h with
  | requested _ _ _ hnone => cases hnone
  | expanding t => exact ⟨t, rfl⟩

/-- The root is made wait for a child that it is owed, at a position that it never waited at. -/
theorem await (hs : t.Small) {ix : Nat} (h : Tiled awaited validated waiting (ix :: owed) (.expanding t)) :
    ix ∉ awaited ∧ Tiled (ix :: awaited) validated (ix :: waiting) owed (.expanding t) := by
  have hd := h.nodup hs
  cases h with
  | expanding _ ha hlt htiles =>
    have hmove : (ix :: waiting ++ owed).Perm (waiting ++ ix :: owed) := List.perm_middle.symm
    constructor
    · intro hix
      rw [← List.append_assoc] at hd
      exact (List.nodup_append.1 hd).2.2 ix (ha.mem_iff.1 hix) ix List.mem_cons_self rfl
    · refine .expanding t ((ha.cons ix).trans List.perm_middle.symm) ?_ ?_
      · intro j hj
        exact hlt j (hmove.mem_iff.1 hj)
      · exact ((hmove.flatMap_right t.subtree).append_left validated).trans htiles

/-- Nothing is waited for or owed only when every position was validated, each once. -/
theorem validated_perm (h : Tiled awaited validated [] [] phase) :
    ∃ t, phase = .expanding t ∧ validated.Perm (List.range t.totalBlocks) := by
  cases h with
  | requested _ _ hw _ => cases hw
  | expanding t _ _ htiles => exact ⟨t, rfl, by simpa using htiles⟩

end Tiled

end BlockDag
