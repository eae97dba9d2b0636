/-
Levels and the tree they number. The search for the level of a position never leaves the 64-bit
numbers, and it finds the level that the position lies on: the levels start at 0, 1, `width + 1` and so
on, each at the first child of the start before, so a position's depth is the number of steps up to the
root, and the children of a position are one level deeper and belong to no other.
-/
import BlockDag.Proofs.Numbering
import Mathlib.Logic.Function.Iterate
import Mathlib.Order.Bounds.Defs

namespace BlockDag.Layout

/-! ## The search on 64-bit numbers -/

/-- Goes down from `l` to the level that holds `ix` with every sum and difference checked. It has no
result where one of them is no 64-bit number, and where the rounds do not suffice. -/
def Level.seek? (width : Nat) (ix : Nat) : (rounds : Nat) → Level → Option Level
  | 0, _ => none
  | rounds + 1, l => do
    let offset ← Word.sub? ix l.start
    if offset < l.width then return l
    else do
      let start ← Word.add? l.start l.width
      let depth ← Word.add? l.depth 1
      seek? width ix rounds ⟨depth, start, Word.satMul l.width width⟩

/-- The level of `ix`, with every operation checked. -/
def levelOf? (t : Layout) (ix : Nat) : Option Level :=
  if t.width = 1 then some ⟨ix, ix, 1⟩ else Level.seek? t.width ix (ix + 1) Level.top

/-- The first child of `ix`, with every operation checked that does not stop at the largest number. -/
def firstChild? (t : Layout) (ix : Nat) : Option Nat := do
  let l ← t.levelOf? ix
  let offset ← Word.sub? ix l.start
  return Word.satAdd (Word.satAdd l.start l.width) (Word.satMul offset t.width)

/-! ## The tree -/

/-- The first position of the level at `depth`. -/
def levelStart (t : Layout) : (depth : Nat) → Nat
  | 0 => 0
  | depth + 1 => t.levelStart depth * t.width + 1

/-- The position that `ix` is a child of; the root stays where it is. -/
def parent (t : Layout) (ix : Nat) : Nat := (ix - 1) / t.width

/-- The positions that the links of a full block at `ix` lead to. -/
def children (t : Layout) (ix : Nat) : List Nat := List.range' (t.firstChild ix) t.width

variable {t : Layout} {ix : Nat}

theorem levelStart_lt_succ (t : Layout) (depth : Nat) : t.levelStart depth < t.levelStart (depth + 1) :=
  Nat.lt_succ_of_le (Nat.le_mul_of_pos_right _ t.width_pos)

theorem levelStart_mono (t : Layout) {d e : Nat} (h : d ≤ e) : t.levelStart d ≤ t.levelStart e := by
  induction e, h using Nat.le_induction with
  | base => exact Nat.le_refl _
  | succ e _ ih => exact ih.trans (t.levelStart_lt_succ e).le

/-- A step up from below the root leads one level up. -/
theorem levelStart_le_parent_iff (t : Layout) (depth : Nat) (h : 0 < ix) :
    t.levelStart depth ≤ t.parent ix ↔ t.levelStart (depth + 1) ≤ ix := by
  unfold parent
  rw [Nat.le_div_iff_mul_le t.width_pos, levelStart]
  omega

/-- `depth` steps up lead to the root from the levels down to `depth`. -/
theorem iterate_parent_eq_zero_iff {depth : Nat} : t.parent^[depth] ix = 0 ↔ ix < t.levelStart (depth + 1) := by
  induction depth generalizing ix with
  | zero =>
    simp only [Function.iterate_zero_apply, levelStart]
    omega
  | succ depth ih =>
    rw [Function.iterate_succ_apply, ih]
    rcases Nat.eq_zero_or_pos ix with rfl | hpos
    · have hroot : t.parent 0 = 0 := Nat.zero_div _
      have hone := t.levelStart_mono (show 1 ≤ depth + 1 by omega)
      have htwo := t.levelStart_mono (show 1 ≤ depth + 1 + 1 by omega)
      have h1 : t.levelStart 1 = 1 := by simp [levelStart]
      rw [hroot]
      omega
    · have := t.levelStart_le_parent_iff (depth + 1) hpos
      omega

/-! ## Where the search ends -/

/-- With as many rounds as `ix` is beyond the level, the search comes to the level that holds `ix`;
no operation on the way there fails. -/
theorem Level.seek_reaches (hi : ix ≤ Word.max) (rounds : Nat) (l : Level) (hl : l.OnWay t.width ix)
    (hstart : l.start = t.levelStart l.depth) (hdepth : l.depth ≤ l.start) (hr : ix - l.start ≤ rounds) :
    Level.seek? t.width ix (rounds + 1) l = some (Level.seek t.width ix rounds l) ∧
      (Level.seek t.width ix rounds l).start = t.levelStart (Level.seek t.width ix rounds l).depth ∧
      ix - (Level.seek t.width ix rounds l).start < (Level.seek t.width ix rounds l).width := by
  have hle := hl.le
  have hpos := hl.width_pos
  induction rounds generalizing l with
  | zero =>
    have hin : ix - l.start < l.width := by omega
    rw [seek?, Word.sub?_eq hle, Option.bind_eq_bind, Option.bind_some, if_pos hin]
    exact ⟨rfl, hstart, hin⟩
  | succ rounds ih =>
    rw [seek?, Word.sub?_eq hle, Option.bind_eq_bind, Option.bind_some, seek]
    by_cases hin : ix - l.start < l.width
    · rw [if_pos hin, if_pos hin]
      exact ⟨rfl, hstart, hin⟩
    · rw [if_neg hin, if_neg hin]
      obtain ⟨hbelow, -⟩ := hl.next hi t.width_pos hin
      -- the next level starts at the first child of this one's start, and not beyond `ix`
      have hnext : (l.below t.width).start = t.levelStart (l.below t.width).depth := by
        show l.start + l.width = t.levelStart l.depth * t.width + 1
        rw [← hstart, hl.mul_start hi hin]
      have hsum : Word.add? l.start l.width = some (l.start + l.width) := Word.add?_eq (by omega)
      have hdeeper : Word.add? l.depth 1 = some (l.depth + 1) := Word.add?_eq (by omega)
      rw [hsum, hdeeper]
      exact ih (l.below t.width) hbelow hnext (show l.depth + 1 ≤ l.start + l.width by omega)
        (show ix - (l.start + l.width) ≤ rounds by omega) hbelow.le hbelow.width_pos

/-- The level of a position is found without a failing operation, and the position lies on it. -/
theorem levelOf_reaches (t : Layout) (hi : ix ≤ Word.max) : t.levelOf? ix = some (t.levelOf ix) ∧
    (t.levelOf ix).OnWay t.width ix ∧ (t.levelOf ix).start = t.levelStart (t.levelOf ix).depth ∧
    ix - (t.levelOf ix).start < (t.levelOf ix).width := by
  have hway := t.levelOf_onWay hi
  unfold levelOf levelOf? at *
  split
  · next hchain =>
    -- the levels of a chain are its positions
    have hstart : ∀ d, t.levelStart d = d := by
      intro d
      induction d with
      | zero => rfl
      | succ d ih => rw [levelStart, ih, hchain, Nat.mul_one]
    rw [if_pos hchain] at hway
    exact ⟨rfl, hway, (hstart ix).symm, by simp⟩
  · next hchain =>
    rw [if_neg hchain] at hway
    obtain ⟨hseek, hstart, hin⟩ := Level.seek_reaches hi ix Level.top (Level.top_onWay _ _) rfl (Nat.le_refl _)
      (Nat.sub_le _ _)
    exact ⟨hseek, hway, hstart, hin⟩

theorem firstChild?_eq (t : Layout) (hi : ix ≤ Word.max) : t.firstChild? ix = some (t.firstChild ix) := by
  obtain ⟨hlevel, hway, -, -⟩ := t.levelOf_reaches hi
  unfold firstChild?
  rw [hlevel, Option.bind_eq_bind, Option.bind_some, Word.sub?_eq hway.le]
  rfl

/-! ## Depth -/

/-- A position lies on the level of its depth. -/
theorem depth_eq_iff (hi : ix ≤ Word.max) {d : Nat} :
    t.depth ix = d ↔ t.levelStart d ≤ ix ∧ ix < t.levelStart (d + 1) := by
  obtain ⟨-, hway, hstart, hin⟩ := t.levelOf_reaches hi
  have hon : t.levelStart (t.depth ix) ≤ ix ∧ ix < t.levelStart (t.depth ix + 1) := by
    obtain ⟨w, -, hw, hmin⟩ := hway.below
    have hle := hway.le
    rw [levelStart, depth, ← hstart]
    omega
  constructor
  · rintro rfl
    exact hon
  · rintro ⟨hlow, hhigh⟩
    -- two levels that hold one position are the same
    rcases Nat.lt_trichotomy (t.depth ix) d with h | h | h
    · have := t.levelStart_mono (show t.depth ix + 1 ≤ d from h)
      omega
    · exact h
    · have := t.levelStart_mono (show d + 1 ≤ t.depth ix from h)
      omega

/-- The depth is the number of steps up to the root. -/
theorem isLeast_depth (t : Layout) (hi : ix ≤ Word.max) : IsLeast {steps | t.parent^[steps] ix = 0} (t.depth ix) := by
  obtain ⟨hlow, hhigh⟩ := (depth_eq_iff hi).1 (rfl : t.depth ix = t.depth ix)
  refine ⟨iterate_parent_eq_zero_iff.2 hhigh, ?_⟩
  intro steps hsteps
  have hroot := iterate_parent_eq_zero_iff.1 hsteps
  by_contra hfew
  have := t.levelStart_mono (show steps + 1 ≤ t.depth ix by omega)
  omega

/-! ## Children -/

/-- The children of a position, as far as their numbers are below the largest one. -/
theorem mem_children_iff (hi : ix ≤ Word.max) {c : Nat} (hc : c < Word.max) :
    c ∈ t.children ix ↔ 0 < c ∧ t.parent c = ix := by
  have hw := t.width_pos
  unfold children parent
  rw [List.mem_range'_1, t.firstChild_eq_min hi, Nat.div_eq_iff hw, Nat.mul_comm]
  omega

/-- A child is one level deeper than its parent. -/
theorem depth_of_parent {c : Nat} (hc : c ≤ Word.max) (hpos : 0 < c) : t.depth c = t.depth (t.parent c) + 1 := by
  have hparent : t.parent c ≤ Word.max := (Nat.div_le_self _ _).trans (by omega)
  obtain ⟨hlow, hhigh⟩ := (depth_eq_iff hparent).1 (rfl : t.depth (t.parent c) = _)
  rw [depth_eq_iff hc, ← t.levelStart_le_parent_iff _ hpos]
  refine ⟨hlow, ?_⟩
  have := t.levelStart_le_parent_iff (t.depth (t.parent c) + 1) hpos
  omega

/-- The numbering is that of a complete tree, as far as the 64-bit numbers go. Whatever number of links a
block holds, none counting as one, and whatever the position, its level and its first child are found
without a failing operation; the first child is what exact arithmetic says, or the largest number where
that is smaller; the depth is the number of steps up to the root; and where the numbers of all children
are below the largest one, each child is one level deeper and is a child of no other position. -/
theorem numbering_exact (width : Nat) (hi : ix ≤ Word.max) :
    let t := ofWidth width
    let w := max width 1
    t.levelOf? ix = some (t.levelOf ix) ∧ t.firstChild? ix = some (t.firstChild ix) ∧
    t.firstChild ix = min (ix * w + 1) (2 ^ 64 - 1) ∧
    IsLeast {steps | t.parent^[steps] ix = 0} (t.depth ix) ∧
    (ix * w + w < 2 ^ 64 - 1 → t.children ix = List.range' (ix * w + 1) w ∧
      ∀ c ∈ t.children ix, t.depth c = t.depth ix + 1 ∧ t.parent c = ix ∧
        ∀ other ≤ Word.max, c ∈ t.children other → other = ix) := by
  intro t w
  have hfirst : t.firstChild ix = min (ix * w + 1) (2 ^ 64 - 1) := t.firstChild_eq_min hi
  refine ⟨(t.levelOf_reaches hi).1, t.firstChild?_eq hi, hfirst, t.isLeast_depth hi, ?_⟩
  intro hfits
  have hrange : t.children ix = List.range' (ix * w + 1) w := by
    rw [Nat.min_eq_left (by omega)] at hfirst
    rw [children, hfirst]
    rfl
  refine ⟨hrange, ?_⟩
  intro c hc
  have hlt : c < Word.max := by
    rw [hrange, List.mem_range'_1] at hc
    simp only [Word.max]
    omega
  obtain ⟨hpos, hparent⟩ := (mem_children_iff hi hlt).1 hc
  refine ⟨?_, hparent, ?_⟩
  · rw [depth_of_parent hlt.le hpos, hparent]
  · intro other ho hother
    rw [← ((mem_children_iff ho hlt).1 hother).2, hparent]

/-- The last position of a binary tree both of whose children have numbers below the largest one, and
the next one. -/
theorem numbering_exact_binary : 2 ^ 63 - 2 ≤ Word.max ∧ 2 ^ 63 - 1 ≤ Word.max ∧
    (ofWidth 2).children (2 ^ 63 - 2) = [2 ^ 64 - 3, 2 ^ 64 - 2] ∧
    (ofWidth 2).depth (2 ^ 64 - 2) = (ofWidth 2).depth (2 ^ 63 - 2) + 1 ∧
    (ofWidth 2).firstChild (2 ^ 63 - 1) = 2 ^ 64 - 1 := by
  obtain ⟨-, -, -, -, hchildren⟩ := numbering_exact 2 (show 2 ^ 63 - 2 ≤ Word.max by decide)
  obtain ⟨-, -, hfirst, -⟩ := numbering_exact 2 (show 2 ^ 63 - 1 ≤ Word.max by decide)
  obtain ⟨hrange, hdeeper⟩ := hchildren (by decide)
  exact ⟨by decide, by decide, hrange, (hdeeper (2 ^ 64 - 2) (by rw [hrange]; decide)).1, hfirst⟩

end BlockDag.Layout
