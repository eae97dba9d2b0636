/-
The breadth-first numbering in closed form: the children of `ix` in trees of `width` children start
at `ix * width + 1`, or at the largest 64-bit number where that is smaller.
-/
import BlockDag.Layout
import Mathlib.Tactic.Ring

namespace BlockDag.Layout

/-- What holds of a level on the way down to `ix`: its first child is the first position below it,
and only its width can have stopped at the largest 64-bit number. -/
structure Level.OnWay (width : Nat) (ix : Nat) (l : Level) : Prop where
  le : l.start ≤ ix
  below : ∃ w, 0 < w ∧ l.start * width + 1 = l.start + w ∧ l.width = min w Word.max

theorem Level.top_onWay (width : Nat) (ix : Nat) : Level.top.OnWay width ix := by
  refine ⟨Nat.zero_le _, 1, Nat.one_pos, ?_, rfl⟩
  simp [Level.top]

theorem Level.OnWay.width_pos {width : Nat} {ix : Nat} {l : Level} (hl : l.OnWay width ix) : 0 < l.width := by
  obtain ⟨w, hpos, -, hmin⟩ := hl.below
  simp only [hmin, Word.max]
  omega

/-- A level that `ix` lies below has its true width. -/
theorem Level.OnWay.mul_start {width : Nat} {ix : Nat} {l : Level} (hi : ix ≤ Word.max) (hl : l.OnWay width ix)
    (hp : ¬ ix - l.start < l.width) : l.start * width + 1 = l.start + l.width := by
  obtain ⟨w, -, hw', hmin⟩ := hl.below
  have hle := hl.le
  -- a width that stopped at the largest number would reach beyond `ix`
  rcases Nat.eq_zero_or_pos l.start with h0 | h0
  · rw [h0, Nat.zero_mul] at hw' ⊢
    rw [hmin, show w = 1 by omega]
    rfl
  · rw [hmin] at hp ⊢
    omega

/-- The level below one that `ix` lies below is on the way too. -/
theorem Level.OnWay.next {width : Nat} {ix : Nat} {l : Level} (hi : ix ≤ Word.max)
    (hl : l.OnWay width ix) (hw : 0 < width) (hp : ¬ ix - l.start < l.width) :
    (l.below width).OnWay width ix ∧ l.start < (l.below width).start := by
  have hle := hl.le
  have hpos := hl.width_pos
  have hstart := hl.mul_start hi hp
  refine ⟨⟨?_, l.width * width, Nat.mul_pos hpos hw, ?_, rfl⟩, ?_⟩
  · show l.start + l.width ≤ ix
    omega
  · show (l.start + l.width) * width + 1 = l.start + l.width + l.width * width
    rw [Nat.add_mul, ← hstart]
    ring
  · show l.start < l.start + l.width
    omega

/-- Seeking stays on the way, and ends at the level of `ix`. -/
theorem Level.seek_onWay {width : Nat} {ix : Nat} (hi : ix ≤ Word.max) (hw : 0 < width)
    (fuel : Nat) (l : Level) (hl : l.OnWay width ix) : (Level.seek width ix fuel l).OnWay width ix := by
  induction fuel generalizing l with
  | zero => exact hl
  | succ fuel ih =>
    rw [seek]
    split
    · exact hl
    · next hp => exact ih _ (hl.next hi hw hp).1

/-- The level of a position is on the way to it. -/
theorem levelOf_onWay (t : Layout) {ix : Nat} (hi : ix ≤ Word.max) : (t.levelOf ix).OnWay t.width ix := by
  unfold levelOf
  split
  · next h =>
    refine ⟨Nat.le_refl _, 1, Nat.one_pos, ?_, rfl⟩
    rw [h, Nat.mul_one]
  · exact Level.seek_onWay hi t.width_pos _ _ (Level.top_onWay _ _)

/-- The first child of a position, in closed form. -/
theorem firstChild_eq_min (t : Layout) {ix : Nat} (hi : ix ≤ Word.max) :
    t.firstChild ix = min (ix * t.width + 1) Word.max := by
  have hway := t.levelOf_onWay hi
  obtain ⟨w, -, hw, hmin⟩ := hway.below
  have hle := hway.le
  have hsplit : ix * t.width + 1 = (t.levelOf ix).start + w + (ix - (t.levelOf ix).start) * t.width := by
    rw [← hw, Nat.sub_mul]
    have := Nat.mul_le_mul_right t.width hle
    omega
  unfold firstChild Word.satAdd Word.satMul
  simp only [hmin, hsplit]
  omega

/-- The first child of a position whose children have 64-bit numbers. -/
theorem firstChild_eq (t : Layout) {ix : Nat} (h : ix * t.width + 1 ≤ Word.max) :
    t.firstChild ix = ix * t.width + 1 := by
  have hle := Nat.le_mul_of_pos_right ix t.width_pos
  rw [t.firstChild_eq_min (by omega)]
  exact Nat.min_eq_left h

end BlockDag.Layout
