/-
Which payloads can be split. A length that the header can say is enough: a block with room for more
links than its link count can say is so large that a blob of such a length has no use for them. What
comes of the splitting lies block by block as the schema says.
-/
import BlockDag.Proofs.Blob

namespace BlockDag

namespace Schema

variable {s : Schema}

/-- No block of a small tree has more links than a link count can say. -/
theorem Small.linkCount_lt (hs : s.Small) (ix : Nat) : s.linkCount ix < 0x10000 := by
  by_contra hge
  have hwidth := s.linkCount_le ix
  have hroom := s.size.linksPerBlock_mul_le
  have hextra := s.room_eq
  -- a block so wide adds so much data that as many further blocks pass every length
  have hlinks : 0x10000 ≤ s.totalLinks := by
    have hreach := s.linkCount_eq ix
    have hle := s.reach_le (ix + 1)
    have hpos : 1 ≤ s.reach ix := s.reach_zero ▸ s.reach_le_of_le (Nat.zero_le ix)
    have ht := s.totalBlocks_eq
    omega
  have hmul := Nat.mul_le_mul hlinks (show 0x1FFFE0 ≤ s.extraRoom by simp only [linkSize] at *; omega)
  have hlength := s.totalLinks_mul_extraRoom.1
  unfold Small at hs
  simp only [lengthHeaderSize] at hs
  omega

end Schema

namespace EncodedBlob

variable {size : BlockSize} {tag : DataTag} {payload : Bytes}

/-- A length that the header can say can be framed. -/
theorem exists_frame (tag : DataTag) (h : payload.length + 1 < 0x100000000) :
    ∃ stream, frame tag payload = .ok stream :=
  ⟨_, frame_eq_ok_iff.2 ⟨_, if_pos h, rfl⟩⟩

theorem frame_of_length_ge (tag : DataTag) (h : ¬ payload.length + 1 < 0x100000000) :
    frame tag payload = .error (.lengthOverflow (payload.length + 1)) := by
  unfold frame Header.encode
  rw [if_neg h]
  rfl

/-- The blocks of a small tree can be built from any data. -/
theorem exists_build {s : Schema} (hs : s.Small) (data : Nat → Bytes) (n : Nat) :
    ∃ blocks, build s data n = .ok blocks := by
  induction n with
  | zero => exact ⟨_, rfl⟩
  | succ n ih =>
    obtain ⟨below, hbelow⟩ := ih
    have hfew : (((below.drop (s.layout.firstChild (s.totalBlocks - (n + 1)) -
        (s.totalBlocks - (n + 1) + 1))).take (s.linkCount (s.totalBlocks - (n + 1)))).map fun b => b.1).length <
          0x10000 := by
      rw [List.length_map, List.length_take]
      exact Nat.lt_of_le_of_lt (Nat.min_le_left _ _) (hs.linkCount_lt _)
    rw [build]
    simp only [hbelow, bind, Except.bind, Block.encode, if_pos hfew, pure, Except.pure]
    exact ⟨_, rfl⟩

/-- What can be framed can be split. -/
theorem exists_split (size : BlockSize) {stream : Bytes} (h : frame tag payload = .ok stream) :
    ∃ blob, split size tag payload = .ok blob := by
  obtain ⟨hs, -⟩ := small_of_frame size h
  unfold split
  generalize hS : Schema.ofDeclared size (payload.length + 1) = s at *
  obtain ⟨blocks, hbuild⟩ := exists_build hs (dataAt (fileShares s.totalBlocks (s.cut s.preorder stream)))
    s.totalBlocks
  obtain ⟨tree, rfl, -⟩ := laid_of_build hs (Nat.le_refl _) hbuild
  rw [Nat.sub_self, ← List.range_eq_range', s.range_totalBlocks, List.map_cons] at hbuild
  simp only [h, bind, Except.bind, hbuild]
  exact ⟨_, rfl⟩

/-- The blocks of a blob lie by position as `s` says: as many as there are positions, the root first,
each one named by its bytes and not larger than a block may be; and each one passes its position's
check and links to the blocks at the position's children, one after the other. -/
structure Conforms (s : Schema) (blob : EncodedBlob) : Prop where
  count : blob.blocks.length = s.totalBlocks
  first : blob.blocks.head?.map (·.1) = some blob.root
  named : ∀ b ∈ blob.blocks, b.1.Names b.2
  within : ∀ b ∈ blob.blocks, b.2.length ≤ s.size.bytes
  checked : ∀ ix id raw, blob.blocks[ix]? = some (id, raw) → ∃ block, Block.decode raw = .ok block ∧
    s.check ix raw.length block.links.length = .ok () ∧
    ∀ i link, block.links[i]? = some link → (blob.blocks[s.layout.firstChild ix + i]?).map (·.1) = some link

/-- A named tree, its blocks listed by position. -/
theorem conforms_of_laid {s : Schema} {tree : Nat → NamedBlock} (hs : s.Small) (hl : s.Laid tree) (hn : s.Named tree) :
    Conforms s ⟨(tree 0).1, (List.range s.totalBlocks).map tree⟩ := by
  have hat : ∀ {ix b}, ((List.range s.totalBlocks).map tree)[ix]? = some b → ix < s.totalBlocks ∧ tree ix = b := by
    intro ix b hb
    rw [List.getElem?_map, Option.map_eq_some_iff] at hb
    obtain ⟨j, hj, rfl⟩ := hb
    obtain ⟨hlt, rfl⟩ := List.getElem?_eq_some_iff.1 hj
    rw [List.length_range] at hlt
    exact ⟨hlt, by rw [List.getElem_range]⟩
  constructor
  case count => rw [List.length_map, List.length_range]
  case first =>
    rw [s.range_totalBlocks]
    rfl
  case named =>
    intro b hb
    obtain ⟨ix, hix⟩ := List.mem_iff_getElem?.1 hb
    obtain ⟨hlt, rfl⟩ := hat hix
    exact hn ix hlt
  case within =>
    intro b hb
    obtain ⟨ix, hix⟩ := List.mem_iff_getElem?.1 hb
    obtain ⟨hlt, rfl⟩ := hat hix
    obtain ⟨block, hopen, -⟩ := hl ix hlt
    rw [(Join.openBlock_eq_ok_iff.1 hopen).2.1]
    exact s.blockSize_le ix
  case checked =>
    intro ix id raw hix
    obtain ⟨hlt, htree⟩ := hat hix
    obtain ⟨block, hopen, hlinks⟩ := hl ix hlt
    rw [htree] at hopen
    obtain ⟨hdecode, hcheck⟩ := Join.openBlock_eq_ok_iff.1 hopen
    refine ⟨block, hdecode, Schema.check_eq_ok_iff.2 hcheck, ?_⟩
    intro i link hi
    rw [hlinks, List.getElem?_map, Option.map_eq_some_iff] at hi
    obtain ⟨c, hc, rfl⟩ := hi
    have hc' : c = s.layout.firstChild ix + i := by
      obtain ⟨hi', rfl⟩ := List.getElem?_eq_some_iff.1 hc
      simp [Schema.children]
    have hclt := (hs.fits.lt_of_mem_children hlt (List.mem_of_getElem? hc)).2
    rw [← hc']
    simp [hclt]

/-- Splitting succeeds exactly where the header can say the length of tag and payload, whatever the
block size, and fails with that length otherwise; it never comes to more links than a link count can
say. The blocks of a split payload lie as the schema of that length says. -/
theorem split_conforms (size : BlockSize) (tag : DataTag) (payload : Bytes) :
    (payload.length + 1 ≤ 2 ^ 32 - 1 → ∃ blob, split size tag payload = .ok blob ∧
      blob.Conforms (Schema.ofDeclared size (payload.length + 1))) ∧
    (2 ^ 32 - 1 < payload.length + 1 →
      split size tag payload = .error (.lengthOverflow (payload.length + 1))) := by
  constructor
  · intro hle
    obtain ⟨stream, hframe⟩ := exists_frame tag (show payload.length + 1 < 0x100000000 by omega)
    obtain ⟨blob, hsplit⟩ := exists_split size hframe
    obtain ⟨tree, hlaid, hnamed, -, rfl⟩ := laid_of_split hsplit
    exact ⟨_, hsplit, conforms_of_laid (small_of_frame size hframe).1 hlaid hnamed⟩
  · intro hlt
    unfold split
    rw [frame_of_length_ge tag (by omega)]
    rfl

end EncodedBlob

end BlockDag
