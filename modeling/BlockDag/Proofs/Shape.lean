/-
The arithmetic of schemas. The first `k` positions link to the positions below `reach k`, so the
children of `k` run from `reach k` to `reach (k + 1)` and every position but the root has exactly
one parent; and the shares of all positions together are the whole length.
-/
import BlockDag.Proofs.Numbering
import BlockDag.Schema
import Mathlib.Algebra.BigOperators.Group.List.Basic
import Mathlib.Data.Nat.ModEq
import Mathlib.Tactic.Linarith

namespace BlockDag

namespace BlockSize

/-- A block full of links keeps five bytes for data. -/
theorem linksPerBlock_mul_le (m : BlockSize) : m.linksPerBlock * linkSize + 5 ≤ m.room := by
  have h := m.holds_header
  have hd := Nat.div_add_mod m.room linkSize
  unfold linksPerBlock
  unfold room at *
  simp only [linkCountSize, linkSize] at *
  omega

theorem linkCountSize_add_room (m : BlockSize) : linkCountSize + m.room = m.bytes := by
  have := m.holds_link
  unfold room
  simp only [linkCountSize]
  omega

end BlockSize

namespace Schema

variable (s : Schema)

theorem width_layout : s.layout.width = s.size.linksPerBlock := by
  have := s.size.linksPerBlock_pos
  unfold layout Layout.ofBlockSize Layout.ofWidth
  simp only
  omega

/-- A further block adds its room but for one link. -/
theorem room_eq : s.size.room = s.extraRoom + linkSize := by
  have h := s.size.linksPerBlock_mul_le
  have hp := Nat.mul_le_mul_right linkSize s.size.linksPerBlock_pos
  unfold extraRoom
  omega

theorem five_le_extraRoom : 5 ≤ s.extraRoom := by
  have h := s.size.linksPerBlock_mul_le
  have hp := Nat.mul_le_mul_right linkSize s.size.linksPerBlock_pos
  unfold extraRoom
  omega

/-- A further block adds more bytes than it has links. -/
theorem linksPerBlock_lt_extraRoom : s.size.linksPerBlock < s.extraRoom := by
  have h := s.size.linksPerBlock_mul_le
  have hp := s.size.linksPerBlock_pos
  unfold extraRoom
  simp only [linkSize] at *
  omega

theorem totalBlocks_pos : 0 < s.totalBlocks := by
  unfold totalBlocks
  split
  · exact Nat.one_pos
  · rw [Nat.add_comm]
    exact Nat.succ_pos _

theorem totalBlocks_eq : s.totalBlocks = s.totalLinks + 1 := by
  have := s.totalBlocks_pos
  unfold totalLinks
  omega

/-- The positions are the root's and those after it. -/
theorem range_totalBlocks : List.range s.totalBlocks = 0 :: (List.range (s.totalBlocks - 1)).map Nat.succ := by
  obtain ⟨n, hn⟩ : ∃ n, s.totalBlocks = n + 1 := ⟨s.totalLinks, s.totalBlocks_eq⟩
  rw [hn, List.range_succ_eq_map, Nat.add_sub_cancel]

/-- What all blocks but the last add is less than the length, and with the last there is room for
all of it. -/
theorem totalLinks_mul_extraRoom :
    s.totalLinks * s.extraRoom ≤ s.length ∧ s.length ≤ s.totalLinks * s.extraRoom + s.size.room := by
  have hroom := s.room_eq
  have hfive := s.five_le_extraRoom
  by_cases h : s.length ≤ s.size.room
  · have hl : s.totalLinks = 0 := by
      unfold totalLinks totalBlocks
      rw [if_pos h]
    rw [hl, Nat.zero_mul]
    omega
  · -- what does not fit into the root takes its share of further blocks, rounded up
    have hl : s.totalLinks = (s.length - s.size.room + s.extraRoom - 1) / s.extraRoom := by
      unfold totalLinks totalBlocks
      rw [if_neg h, Nat.add_sub_cancel_left]
    have hd := Nat.div_add_mod (s.length - s.size.room + s.extraRoom - 1) s.extraRoom
    have hm := Nat.mod_lt (s.length - s.size.room + s.extraRoom - 1) (show 0 < s.extraRoom by omega)
    rw [← hl, Nat.mul_comm s.extraRoom] at hd
    clear hl
    omega

/-- There are only as many blocks as the length takes. -/
theorem totalBlocks_le_iff {n : Nat} (hn : 0 < n) :
    s.totalBlocks ≤ n ↔ s.length ≤ s.size.room + (n - 1) * s.extraRoom := by
  unfold totalBlocks
  split
  · omega
  · have hextra := s.five_le_extraRoom
    have hdiv := Nat.div_le_iff_le_mul_add_pred (show 0 < s.extraRoom by omega)
      (a := s.length - s.size.room + s.extraRoom - 1) (c := n - 1)
    rw [Nat.mul_comm] at hdiv
    omega

/-! ## Lengths of 64 bits, and those that a header can declare -/

/-- The length is a 64-bit number. -/
def Fits : Prop := s.length ≤ Word.max

/-- The length is one that a header can declare, with the header. -/
def Small : Prop := s.length < 0x100000000 + lengthHeaderSize

variable {s}

theorem Small.fits (hs : s.Small) : s.Fits := by
  unfold Small at hs
  unfold Fits
  simp only [lengthHeaderSize, Word.max] at *
  omega

theorem small_ofDeclared (size : BlockSize) {declared : Nat} (h : declared < 0x100000000) :
    (ofDeclared size declared).Small ∧ (ofDeclared size declared).length = declared + lengthHeaderSize := by
  have hl : (ofDeclared size declared).length = declared + lengthHeaderSize := by
    apply Word.satAdd_eq
    simp only [lengthHeaderSize, Word.max]
    omega
  refine ⟨?_, hl⟩
  unfold Small
  rw [hl]
  omega

/-- A small tree has less than 2^32 blocks. -/
theorem Small.totalBlocks_lt (hs : s.Small) : s.totalBlocks < 0x100000000 := by
  have hm := Nat.mul_le_mul_left s.totalLinks s.five_le_extraRoom
  have hl := s.totalLinks_mul_extraRoom.1
  have ht := s.totalBlocks_eq
  unfold Small at hs
  simp only [lengthHeaderSize] at hs
  omega

/-- No child's number is larger than the length, so that it is not cut off. -/
theorem Fits.firstChild_eq (hs : s.Fits) {ix : Nat} (h : ix < s.totalBlocks) :
    s.layout.firstChild ix = ix * s.size.linksPerBlock + 1 := by
  rw [← width_layout]
  apply Layout.firstChild_eq
  rw [width_layout]
  rcases Nat.eq_zero_or_pos ix with rfl | h0
  · rw [Nat.zero_mul]
    decide
  · have hix : ix ≤ s.totalLinks := by
      have := s.totalBlocks_eq
      omega
    -- each block before `ix` adds at least one byte more than it has links
    have hm := Nat.mul_le_mul hix s.linksPerBlock_lt_extraRoom
    have hl := s.totalLinks_mul_extraRoom.1
    unfold Fits at hs
    rw [Nat.mul_succ] at hm
    omega

/-! ## Links and children -/

variable (s)

/-- The first position that none of the first `k` positions links to. -/
def reach (k : Nat) : Nat := min (k * s.size.linksPerBlock + 1) s.totalBlocks

theorem reach_zero : s.reach 0 = 1 := by
  have := s.totalBlocks_pos
  unfold reach
  omega

theorem reach_le (k : Nat) : s.reach k ≤ s.totalBlocks := Nat.min_le_right _ _

theorem reach_le_of_le {j k : Nat} (h : j ≤ k) : s.reach j ≤ s.reach k := by
  have := Nat.mul_le_mul_right s.size.linksPerBlock h
  unfold reach
  omega

theorem reach_mono (k : Nat) : s.reach k ≤ s.reach (k + 1) := s.reach_le_of_le (Nat.le_succ k)

/-- Every position is linked to from a lower one. -/
theorem lt_reach {k : Nat} (h : k < s.totalBlocks) : k < s.reach k := by
  have := Nat.le_mul_of_pos_right k s.size.linksPerBlock_pos
  unfold reach
  omega

theorem reach_totalBlocks : s.reach s.totalBlocks = s.totalBlocks := by
  have := Nat.le_mul_of_pos_right s.totalBlocks s.size.linksPerBlock_pos
  unfold reach
  omega

/-- The links of a position lead to what it adds to the reach. -/
theorem linkCount_eq (ix : Nat) : s.linkCount ix = s.reach (ix + 1) - s.reach ix := by
  have hw := s.size.linksPerBlock_pos
  have ht := s.totalBlocks_eq
  have hd := Nat.div_add_mod s.totalLinks s.size.linksPerBlock
  have hm := Nat.mod_lt s.totalLinks hw
  have hadd : (ix + 1) * s.size.linksPerBlock = ix * s.size.linksPerBlock + s.size.linksPerBlock := by ring
  have hfull : s.fullLinkBlocks = s.totalLinks / s.size.linksPerBlock := rfl
  unfold linkCount reach
  -- some positions have all their links, the next one has what is left, and the others have none
  rcases Nat.lt_trichotomy ix s.fullLinkBlocks with h | h | h
  · rw [if_pos h]
    have := Nat.mul_le_mul_right s.size.linksPerBlock (show ix + 1 ≤ s.fullLinkBlocks by omega)
    rw [hfull, Nat.mul_comm (s.totalLinks / _)] at this
    omega
  · have hle : ix ≤ s.totalLinks := by
      rw [h]
      exact Nat.div_le_self _ _
    rw [if_neg (by omega), if_pos ⟨h, by omega⟩]
    rw [← hfull, ← h, Nat.mul_comm] at hd
    omega
  · rw [if_neg (by omega), if_neg (by omega)]
    have := Nat.mul_le_mul_right s.size.linksPerBlock (show s.fullLinkBlocks + 1 ≤ ix by omega)
    rw [Nat.add_mul, hfull, Nat.mul_comm (s.totalLinks / _)] at this
    omega

theorem linkCount_le (ix : Nat) : s.linkCount ix ≤ s.size.linksPerBlock := by
  rw [linkCount_eq]
  have hadd : (ix + 1) * s.size.linksPerBlock = ix * s.size.linksPerBlock + s.size.linksPerBlock := by ring
  unfold reach
  omega

variable {s}

theorem Fits.children_eq (hs : s.Fits) {ix : Nat} (h : ix < s.totalBlocks) :
    s.children ix = List.range' (s.reach ix) (s.reach (ix + 1) - s.reach ix) := by
  unfold children
  rw [linkCount_eq, hs.firstChild_eq h]
  rcases Nat.eq_zero_or_pos (s.reach (ix + 1) - s.reach ix) with h0 | h0
  · rw [h0]
    rfl
  · have := s.reach_le (ix + 1)
    have hr : s.reach ix = ix * s.size.linksPerBlock + 1 := by
      unfold reach at *
      omega
    rw [hr]

theorem Fits.mem_children (hs : s.Fits) {ix c : Nat} (h : ix < s.totalBlocks) :
    c ∈ s.children ix ↔ s.reach ix ≤ c ∧ c < s.reach (ix + 1) := by
  have := s.reach_mono ix
  rw [hs.children_eq h, List.mem_range'_1]
  omega

/-- Children lie in the tree, after their parent. -/
theorem Fits.lt_of_mem_children (hs : s.Fits) {ix c : Nat} (h : ix < s.totalBlocks)
    (hc : c ∈ s.children ix) : ix < c ∧ c < s.totalBlocks := by
  have hr := (hs.mem_children h).1 hc
  have hl := s.lt_reach h
  have hu := s.reach_le (ix + 1)
  omega

/-- Every position but the root has a parent. -/
theorem Fits.exists_parent (hs : s.Fits) {c : Nat} (h0 : 0 < c) (hc : c < s.totalBlocks) :
    ∃ ix, ix < c ∧ c ∈ s.children ix := by
  have hw := s.size.linksPerBlock_pos
  have hd := Nat.div_add_mod (c - 1) s.size.linksPerBlock
  have hm := Nat.mod_lt (c - 1) hw
  have hle := Nat.div_le_self (c - 1) s.size.linksPerBlock
  have hadd : ((c - 1) / s.size.linksPerBlock + 1) * s.size.linksPerBlock =
      s.size.linksPerBlock * ((c - 1) / s.size.linksPerBlock) + s.size.linksPerBlock := by ring
  -- the positions after the root go to their parents in runs of the same length
  refine ⟨(c - 1) / s.size.linksPerBlock, by omega, ?_⟩
  rw [hs.mem_children (by omega)]
  unfold reach
  rw [hadd, Nat.mul_comm ((c - 1) / _)]
  omega

/-! ## Data -/

variable (s)

/-- The last position has no links. -/
theorem linkCount_last : s.linkCount s.totalLinks = 0 := by
  rw [linkCount_eq, ← totalBlocks_eq, reach_totalBlocks]
  have := s.lt_reach (show s.totalLinks < s.totalBlocks by have := s.totalBlocks_eq; omega)
  have := s.totalBlocks_eq
  omega

theorem dataSize_last : s.dataSize s.totalLinks = s.length - s.totalLinks * s.extraRoom := by
  have := s.totalBlocks_eq
  unfold dataSize
  rw [if_neg (by omega), if_pos (by omega)]

/-- A position before the last is full. -/
theorem dataSize_of_lt {ix : Nat} (h : ix < s.totalLinks) :
    s.dataSize ix + s.linkCount ix * linkSize = s.size.room := by
  have ht := s.totalBlocks_eq
  have hr := s.size.linksPerBlock_mul_le
  have hc := Nat.mul_le_mul_right linkSize (s.linkCount_le ix)
  unfold dataSize
  rw [if_neg (by omega), if_neg (by omega)]
  omega

theorem blockSize_of_lt {ix : Nat} (h : ix < s.totalBlocks) :
    s.blockSize ix = linkCountSize + s.linkCount ix * linkSize + s.dataSize ix := by
  unfold blockSize
  rw [if_neg (by omega)]

/-- A position before the last asks for all the bytes that a block may have. -/
theorem blockSize_of_lt_last {ix : Nat} (h : ix < s.totalLinks) : s.blockSize ix = s.size.bytes := by
  have ht := s.totalBlocks_eq
  have hdata := s.dataSize_of_lt h
  have hbytes := s.size.linkCountSize_add_room
  rw [s.blockSize_of_lt (by omega)]
  omega

/-- No position asks for more bytes than a block may have. -/
theorem blockSize_le (ix : Nat) : s.blockSize ix ≤ s.size.bytes := by
  have ht := s.totalBlocks_eq
  have hbytes := s.size.linkCountSize_add_room
  rcases Nat.lt_trichotomy ix s.totalLinks with h | rfl | h
  · exact (s.blockSize_of_lt_last h).le
  · have := s.totalLinks_mul_extraRoom.2
    rw [s.blockSize_of_lt (by omega), s.linkCount_last, s.dataSize_last]
    omega
  · rw [blockSize, if_pos (by omega)]
    exact Nat.zero_le _

/-- The root has room for the header and the tag, if there is as much. -/
theorem five_le_dataSize_zero (h : 5 ≤ s.length) : 5 ≤ s.dataSize 0 := by
  rcases Nat.eq_zero_or_pos s.totalLinks with h0 | h0
  · have := s.dataSize_last
    rw [h0] at this
    omega
  · have hr := s.size.linksPerBlock_mul_le
    have hc := Nat.mul_le_mul_right linkSize (s.linkCount_le 0)
    have := s.dataSize_of_lt h0
    omega

/-- The links of the first `k` positions are as many as the positions they reach below the root. -/
theorem sum_linkCount (k : Nat) : ((List.range k).map s.linkCount).sum = s.reach k - 1 := by
  induction k with
  | zero => simp [reach_zero]
  | succ k ih =>
    have h1 := s.reach_mono k
    have h2 : 1 ≤ s.reach k := by
      have := s.totalBlocks_pos
      unfold reach
      omega
    rw [List.range_succ, List.map_append, List.sum_append, ih, List.map_singleton, List.sum_singleton,
      linkCount_eq]
    omega

/-- The first `k` positions are full of links and data, while the last is not among them. -/
theorem sum_dataSize_of_le {k : Nat} (h : k ≤ s.totalLinks) :
    ((List.range k).map s.dataSize).sum + ((List.range k).map s.linkCount).sum * linkSize =
      k * s.size.room := by
  induction k with
  | zero => simp
  | succ k ih =>
    have hk := s.dataSize_of_lt (show k < s.totalLinks by omega)
    have hi := ih (by omega)
    simp only [List.range_succ, List.map_append, List.sum_append, List.map_singleton, List.sum_singleton,
      Nat.add_mul, Nat.one_mul]
    omega

/-- The shares of all positions add up to the length. -/
theorem sum_dataSize : ((List.range s.totalBlocks).map s.dataSize).sum = s.length := by
  have hle := s.totalLinks_mul_extraRoom.1
  -- every position but the root is linked to, and the last one links to nothing
  have hlinks : ((List.range s.totalLinks).map s.linkCount).sum = s.totalLinks := by
    have hall := s.sum_linkCount s.totalBlocks
    have ht := s.totalBlocks_eq
    rw [reach_totalBlocks, totalBlocks_eq, List.range_succ, List.map_append, List.sum_append,
      List.map_singleton, List.sum_singleton, linkCount_last] at hall
    omega
  have hsum := s.sum_dataSize_of_le (Nat.le_refl s.totalLinks)
  rw [hlinks, s.room_eq, Nat.mul_add] at hsum
  rw [totalBlocks_eq, List.range_succ, List.map_append, List.sum_append, List.map_singleton,
    List.sum_singleton, dataSize_last]
  omega

end Schema

end BlockDag
