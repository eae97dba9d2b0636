/-
The figures of a schema. A schema's numbers are worked out once and kept; here every sum, difference,
product and quotient on the way is checked, and none fails, whatever the block size and whatever
64-bit length is laid out. What the figures then say of any position is what the schema says, and that
adds up: the shares of data to the length, the links to the blocks below the root, every block but the
last is full, and no smaller number of blocks would do.
-/
import BlockDag.Proofs.Codec
import BlockDag.Proofs.Shape
import Mathlib.Order.Bounds.Defs

namespace BlockDag

theorem Word.divUp?_eq {a b : Nat} (ha : a ≤ max) (hb : 1 < b) : divUp? a b = some ((a + b - 1) / b) := by
  have hpos : 0 < b := by omega
  have hdiv := Nat.div_add_mod' a b
  have hrest := Nat.mod_lt a hpos
  unfold divUp?
  simp only [div?_eq a hpos, mod?_eq a hpos, Option.bind_eq_bind, Option.bind_some]
  split
  · next h =>
    have hless := Nat.div_lt_self (show 0 < a by omega) hb
    have hup : (a + b - 1) / b = a / b + 1 := by
      rw [Nat.div_eq_iff hpos, Nat.succ_mul]
      omega
    rw [add?_eq (by omega), hup]
  · next h =>
    have hexact : (a + b - 1) / b = a / b := by
      rw [Nat.div_eq_iff hpos]
      omega
    rw [hexact]
    rfl

namespace Schema

/-! ## Working the figures out -/

/-- A schema with its numbers worked out. -/
structure Figures where
  bytes : Nat
  linksPerBlock : Nat
  length : Nat
  totalBlocks : Nat
  fullLinkBlocks : Nat
  /-- Links of the position after those that are full of links. -/
  linksLeft : Nat
  /-- Bytes of data in the last block. -/
  dataLeft : Nat
deriving DecidableEq

namespace Figures

/-- How many blocks hold `length` bytes: the root holds `room` of them and each further block adds
`extraRoom`. -/
def blocks? (room extraRoom length : Nat) : Option Nat :=
  if length ≤ room then some 1
  else do
    let beyond ← Word.sub? length room
    let further ← Word.divUp? beyond extraRoom
    Word.add? 1 further

/-- Lays `length` bytes out in blocks of at most `size`. -/
def ofLength? (size : BlockSize) (length : Nat) : Option Figures := do
  let room ← Word.sub? size.bytes linkCountSize
  let linksPerBlock ← Word.div? room linkSize
  let extraRoom ← Word.sub? room linkSize
  let totalBlocks ← blocks? room extraRoom length
  let links ← Word.sub? totalBlocks 1
  let fullLinkBlocks ← Word.div? links linksPerBlock
  let linksLeft ← Word.mod? links linksPerBlock
  let dataBefore ← Word.mul? links extraRoom
  let dataLeft ← Word.sub? length dataBefore
  return ⟨size.bytes, linksPerBlock, length, totalBlocks, fullLinkBlocks, linksLeft, dataLeft⟩

/-- How many links there are. -/
def totalLinks? (f : Figures) : Option Nat := do
  let full ← Word.mul? f.fullLinkBlocks f.linksPerBlock
  Word.add? full f.linksLeft

/-- How many links the block at `ix` has. -/
def linkCount (f : Figures) (ix : Nat) : Nat :=
  if ix < f.fullLinkBlocks then f.linksPerBlock
  else if ix = f.fullLinkBlocks ∧ ix < f.totalBlocks then f.linksLeft
  else 0

/-- How many bytes of data the block at `ix` has. -/
def dataSize? (f : Figures) (ix : Nat) : Option Nat :=
  if f.totalBlocks ≤ ix then some 0
  else do
    let last ← Word.sub? f.totalBlocks 1
    if ix = last then return f.dataLeft
    else do
      let room ← Word.sub? f.bytes linkCountSize
      let links ← Word.mul? (f.linkCount ix) linkSize
      Word.sub? room links

/-- How many bytes the block at `ix` has. -/
def blockSize? (f : Figures) (ix : Nat) : Option Nat :=
  if f.totalBlocks ≤ ix then some 0
  else do
    let links ← Word.mul? (f.linkCount ix) linkSize
    let front ← Word.add? linkCountSize links
    let data ← f.dataSize? ix
    Word.add? front data

/-- Checks a block of `size` bytes with `links` links against position `ix`. -/
def check? (f : Figures) (ix size links : Nat) : Option (Except FormatError Unit) := do
  let expected ← f.blockSize? ix
  if size ≠ expected then return .error (.unexpectedSize ix size expected)
  else if links ≠ f.linkCount ix then return .error (.unexpectedLinkCount ix links (f.linkCount ix))
  else return .ok ()

/-- The figures say what `s` says, without a failing operation at any position. -/
structure Tell (f : Figures) (s : Schema) : Prop where
  totalBlocks : f.totalBlocks = s.totalBlocks
  totalLinks : f.totalLinks? = some (s.totalBlocks - 1)
  linkCount : ∀ ix, f.linkCount ix = s.linkCount ix
  dataSize : ∀ ix, f.dataSize? ix = some (s.dataSize ix)
  blockSize : ∀ ix, f.blockSize? ix = some (s.blockSize ix)
  check : ∀ ix size links, f.check? ix size links = some (s.check ix size links)

end Figures

variable (s : Schema)

/-- The figures of `s`. -/
def figures : Figures where
  bytes := s.size.bytes
  linksPerBlock := s.size.linksPerBlock
  length := s.length
  totalBlocks := s.totalBlocks
  fullLinkBlocks := s.fullLinkBlocks
  linksLeft := s.totalLinks % s.size.linksPerBlock
  dataLeft := s.length - s.totalLinks * s.extraRoom

@[simp] theorem figures_totalBlocks : s.figures.totalBlocks = s.totalBlocks := rfl

@[simp] theorem figures_linkCount (ix : Nat) : s.figures.linkCount ix = s.linkCount ix := rfl

/-! ## No operation fails -/

theorem sub?_room : Word.sub? s.size.bytes linkCountSize = some s.size.room :=
  Word.sub?_eq (by have := s.size.linkCountSize_add_room; omega)

theorem room_le : s.size.room ≤ Word.max := by
  have hbytes := s.size.linkCountSize_add_room
  have hfits := s.size.fits
  simp only [Word.max]
  omega

/-- There are fewer blocks than bytes, but for the root. -/
theorem totalLinks_le : s.totalLinks ≤ s.length :=
  (Nat.le_mul_of_pos_right _ (by have := s.five_le_extraRoom; omega)).trans s.totalLinks_mul_extraRoom.1

theorem totalBlocks_le_max (h : s.length ≤ Word.max) : s.totalBlocks ≤ Word.max := by
  have hmul := Nat.mul_le_mul_left s.totalLinks s.five_le_extraRoom
  have hlength := s.totalLinks_mul_extraRoom.1
  have htotal := s.totalBlocks_eq
  simp only [Word.max] at *
  omega

theorem blocks?_eq (h : s.length ≤ Word.max) :
    Figures.blocks? s.size.room s.extraRoom s.length = some s.totalBlocks := by
  have hextra := s.five_le_extraRoom
  have hmax := s.totalBlocks_le_max h
  unfold Figures.blocks? totalBlocks at *
  split
  · rfl
  · next hlong =>
    rw [if_neg hlong] at hmax
    have hbeyond : Word.sub? s.length s.size.room = some (s.length - s.size.room) := Word.sub?_eq (by omega)
    have hfurther := Word.divUp?_eq (show s.length - s.size.room ≤ Word.max by omega) (show 1 < s.extraRoom by omega)
    simp only [hbeyond, hfurther, Option.bind_eq_bind, Option.bind_some, Word.add?_eq hmax]

/-- The figures of a 64-bit length are worked out. -/
theorem ofLength?_eq (h : s.length ≤ Word.max) : Figures.ofLength? s.size s.length = some s.figures := by
  have hroom := s.room_eq
  have hwidth := s.size.linksPerBlock_pos
  have hdata := s.totalLinks_mul_extraRoom.1
  have hperBlock : Word.div? s.size.room linkSize = some s.size.linksPerBlock := Word.div?_eq _ (by decide)
  have hsub : Word.sub? s.size.room linkSize = some s.extraRoom := Word.sub?_eq (by omega)
  have hlinks : Word.sub? s.totalBlocks 1 = some s.totalLinks := Word.sub?_eq s.totalBlocks_pos
  unfold Figures.ofLength?
  simp only [s.sub?_room, hperBlock, hsub, s.blocks?_eq h, hlinks, Word.div?_eq _ hwidth, Word.mod?_eq _ hwidth,
    Word.mul?_eq (hdata.trans h), Word.sub?_eq hdata, Option.bind_eq_bind, Option.bind_some]
  rfl

theorem mul?_linkCount (ix : Nat) : Word.mul? (s.linkCount ix) linkSize = some (s.linkCount ix * linkSize) := by
  have hcount := Nat.mul_le_mul_right linkSize (s.linkCount_le ix)
  have hwidth := s.size.linksPerBlock_mul_le
  have hroom := s.room_le
  exact Word.mul?_eq (by omega)

theorem figures_totalLinks (h : s.length ≤ Word.max) : s.figures.totalLinks? = some s.totalLinks := by
  have hdiv := Nat.div_add_mod' s.totalLinks s.size.linksPerBlock
  have hle := s.totalLinks_le
  unfold Figures.totalLinks?
  show (Word.mul? (s.totalLinks / s.size.linksPerBlock) s.size.linksPerBlock >>=
    fun full => Word.add? full (s.totalLinks % s.size.linksPerBlock)) = some s.totalLinks
  rw [Word.mul?_eq (by omega), Option.bind_eq_bind, Option.bind_some, Word.add?_eq (by omega), hdiv]

theorem figures_dataSize (ix : Nat) : s.figures.dataSize? ix = some (s.dataSize ix) := by
  have hcount := Nat.mul_le_mul_right linkSize (s.linkCount_le ix)
  have hwidth := s.size.linksPerBlock_mul_le
  have hlast : Word.sub? s.totalBlocks 1 = some (s.totalBlocks - 1) := Word.sub?_eq s.totalBlocks_pos
  have hroom : Word.sub? s.figures.bytes linkCountSize = some s.size.room := s.sub?_room
  have hrest : Word.sub? s.size.room (s.linkCount ix * linkSize) = some (s.size.room - s.linkCount ix * linkSize) :=
    Word.sub?_eq (by omega)
  unfold Figures.dataSize? dataSize
  simp only [figures_totalBlocks, figures_linkCount, hlast, hroom, s.mul?_linkCount, hrest, Option.bind_eq_bind,
    Option.bind_some]
  split
  · rfl
  · split <;> rfl

theorem figures_blockSize (ix : Nat) : s.figures.blockSize? ix = some (s.blockSize ix) := by
  have hle := s.blockSize_le ix
  have hfits := s.size.fits
  unfold Figures.blockSize?
  rw [figures_totalBlocks]
  split
  · next h => rw [blockSize, if_pos h]
  · next h =>
    rw [s.blockSize_of_lt (Nat.not_le.1 h)] at hle ⊢
    have hmax : linkCountSize + s.linkCount ix * linkSize + s.dataSize ix ≤ Word.max := by
      simp only [Word.max]
      omega
    have hfront : Word.add? linkCountSize (s.linkCount ix * linkSize) =
        some (linkCountSize + s.linkCount ix * linkSize) := Word.add?_eq (by omega)
    simp only [figures_linkCount, s.mul?_linkCount, s.figures_dataSize, hfront, Word.add?_eq hmax,
      Option.bind_eq_bind, Option.bind_some]

/-- The figures of a 64-bit length tell the schema. -/
theorem figures_tell (h : s.length ≤ Word.max) : s.figures.Tell s where
  totalBlocks := rfl
  totalLinks := s.figures_totalLinks h
  linkCount := s.figures_linkCount
  dataSize := s.figures_dataSize
  blockSize := s.figures_blockSize
  check := by
    intro ix size links
    unfold Figures.check? Schema.check
    rw [figures_blockSize, Option.bind_eq_bind, Option.bind_some, figures_linkCount]
    split
    · rfl
    · split <;> rfl

/-! ## What the figures add up to -/

/-- Only positions of the tree pass a check. -/
theorem lt_of_check {s : Schema} {ix size links : Nat} (hsize : 2 ≤ size) (h : s.check ix size links = .ok ()) :
    ix < s.totalBlocks := by
  by_contra hout
  have := (check_eq_ok_iff.1 h).1
  rw [blockSize, if_pos (Nat.not_lt.1 hout)] at this
  omega

/-- The children of a position are positions of the tree, however large the numbers are. -/
theorem firstChild_add_lt (h : s.length ≤ Word.max) {ix i : Nat} (hi : i < s.linkCount ix) :
    s.layout.firstChild ix + i < s.totalBlocks := by
  have hmax := s.totalBlocks_le_max h
  have hnext := s.reach_le (ix + 1)
  rw [linkCount_eq] at hi
  -- the position has links, so its first child is below the number of blocks
  have hfirst : s.reach ix = ix * s.size.linksPerBlock + 1 := by
    unfold reach at *
    omega
  rw [Layout.firstChild_eq _ (by rw [width_layout]; omega), width_layout, ← hfirst]
  omega

/-- A schema lays out exactly its length, in as few blocks as can be. For a 64-bit length no operation
fails, neither as the figures are worked out nor as they are read at any position. The shares of data
add up to the length and the links to the blocks below the root; every block but the last is as large
as a block may be, and the last one is not larger and has no links; a smaller number of blocks would
not hold the length; the root has five bytes of data if there are as many; and a block with a link count
passes the check at positions of the tree only. -/
theorem schema_balanced (s : Schema) :
    (s.length ≤ Word.max → ∃ f, Figures.ofLength? s.size s.length = some f ∧ f.Tell s) ∧
    ((List.range s.totalBlocks).map s.dataSize).sum = s.length ∧
    ((List.range s.totalBlocks).map s.linkCount).sum = s.totalBlocks - 1 ∧
    (∀ ix, ix + 1 < s.totalBlocks → s.blockSize ix = s.size.bytes) ∧
    s.blockSize (s.totalBlocks - 1) ≤ s.size.bytes ∧ s.linkCount (s.totalBlocks - 1) = 0 ∧
    IsLeast {n | 1 ≤ n ∧ s.length ≤ (s.size.bytes - 2) + (n - 1) * (s.size.bytes - 34)} s.totalBlocks ∧
    (5 ≤ s.length → 5 ≤ s.dataSize 0) ∧
    ∀ ix size links, 2 ≤ size → s.check ix size links = .ok () → ix < s.totalBlocks := by
  refine ⟨?_, s.sum_dataSize, ?_, ?_, s.blockSize_le _, s.linkCount_last, ?_, s.five_le_dataSize_zero,
    fun _ _ _ => lt_of_check⟩
  · intro h
    exact ⟨s.figures, s.ofLength?_eq h, s.figures_tell h⟩
  · rw [sum_linkCount, reach_totalBlocks]
  · intro ix hix
    have htotal := s.totalBlocks_eq
    exact s.blockSize_of_lt_last (by omega)
  · have hextra : s.extraRoom = s.size.bytes - 34 := by
      unfold extraRoom BlockSize.room
      rw [Nat.sub_sub]
      rfl
    have hleast : ∀ n, 1 ≤ n → (s.totalBlocks ≤ n ↔ s.length ≤ (s.size.bytes - 2) + (n - 1) * (s.size.bytes - 34)) :=
      fun n hn => hextra ▸ s.totalBlocks_le_iff hn
    exact ⟨⟨s.totalBlocks_pos, (hleast _ s.totalBlocks_pos).1 (Nat.le_refl _)⟩, fun n hn => (hleast n hn.1).2 hn.2⟩

end Schema

end BlockDag
