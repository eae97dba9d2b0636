/-
Blocks and headers are read and written exactly: reading undoes writing, and what was read is
written back byte by byte. Also what an opened block says of the bytes it was read from.
-/
import BlockDag.Blob.Join
import Mathlib.Logic.Basic
import Mathlib.Tactic.ByContra

namespace BlockDag

namespace Block

/-! ## Links -/

theorem takeLinks?_flatMap (links : List BlockId) (rest : Bytes) :
    takeLinks? links.length (links.flatMap (·.bytes) ++ rest) = some (links, rest) := by
  induction links with
  | nil => rfl
  | cons link links ih =>
    have hl : link.bytes.length = linkSize := link.length_bytes
    rw [List.length_cons, takeLinks?, List.flatMap_cons, List.append_assoc, ← hl, List.take_left, List.drop_left,
      BlockId.ofBytes?_bytes, ih]
    rfl

theorem of_takeLinks? {n : Nat} {bytes rest : Bytes} {links : List BlockId}
    (h : takeLinks? n bytes = some (links, rest)) :
    links.length = n ∧ bytes = links.flatMap (·.bytes) ++ rest := by
  induction n generalizing bytes links with
  | zero =>
    rw [takeLinks?] at h
    cases h
    exact ⟨rfl, rfl⟩
  | succ n ih =>
    rw [takeLinks?] at h
    obtain ⟨link, hlink, h⟩ := Option.bind_eq_some_iff.1 h
    obtain ⟨⟨links', rest'⟩, hrest, h⟩ := Option.bind_eq_some_iff.1 h
    cases h
    obtain ⟨hlen, hbytes⟩ := ih hrest
    refine ⟨by rw [List.length_cons, hlen], ?_⟩
    rw [List.flatMap_cons, BlockId.bytes_of_ofBytes? hlink, List.append_assoc, ← hbytes, List.take_append_drop]

/-- Links can be read off bytes that are long enough for them. -/
theorem exists_takeLinks? {n : Nat} {bytes : Bytes} (h : n * linkSize ≤ bytes.length) :
    ∃ links rest, takeLinks? n bytes = some (links, rest) := by
  induction n generalizing bytes with
  | zero => exact ⟨[], bytes, rfl⟩
  | succ n ih =>
    rw [Nat.succ_mul] at h
    have hlink : (bytes.take linkSize).length = 32 := by
      rw [List.length_take]
      simp only [linkSize] at *
      omega
    have hdrop : n * linkSize ≤ (bytes.drop linkSize).length := by
      rw [List.length_drop]
      omega
    obtain ⟨links, rest, hrest⟩ := ih hdrop
    refine ⟨⟨bytes.take linkSize, hlink⟩ :: links, rest, ?_⟩
    rw [takeLinks?, BlockId.ofBytes?, dif_pos hlink, hrest]
    rfl

theorem length_flatMap_bytes (links : List BlockId) :
    (links.flatMap (·.bytes)).length = links.length * linkSize := by
  induction links with
  | nil => simp
  | cons link links ih =>
    rw [List.flatMap_cons, List.length_append, ih, link.length_bytes, List.length_cons, Nat.add_mul]
    simp only [linkSize]
    omega

/-- Links that were read took their bytes. -/
theorem takeLinks?_eq_none {n : Nat} {bytes : Bytes} (h : bytes.length < n * linkSize) : takeLinks? n bytes = none := by
  cases htake : takeLinks? n bytes with
  | none => rfl
  | some parts =>
    obtain ⟨hlen, hbytes⟩ := of_takeLinks? htake
    rw [hbytes, List.length_append, length_flatMap_bytes, hlen] at h
    omega

/-! ## Blocks -/

/-- Reading a block that was written gives it back. -/
theorem decode_of_encode {block : Block} {raw : Bytes} (h : encode block = .ok raw) : decode raw = .ok block := by
  unfold encode at h
  split at h
  · next hlt =>
    cases h
    have hcount : Bytes.toNat (Bytes.ofNat linkCountSize block.links.length) = block.links.length := by
      rw [Bytes.toNat_ofNat]
      exact Nat.mod_eq_of_lt hlt
    have hlen : (Bytes.ofNat linkCountSize block.links.length).length = linkCountSize := Bytes.length_ofNat _ _
    unfold decode
    rw [if_neg (by rw [List.length_append, hlen]; omega), List.take_left' hlen, List.drop_left' hlen, hcount]
    dsimp only
    rw [takeLinks?_flatMap]
  · cases h

/-- What a byte string reads as is written back as that byte string. -/
theorem encode_of_decode {block : Block} {raw : Bytes} (h : decode raw = .ok block) : encode block = .ok raw := by
  unfold decode at h
  split at h
  · cases h
  · next hlen =>
    dsimp only at h
    split at h
    · next links data htake =>
      cases h
      obtain ⟨hl, hraw⟩ := of_takeLinks? htake
      have htwo : (raw.take linkCountSize).length = linkCountSize := by
        rw [List.length_take]
        omega
      -- the count was read off two bytes, so it is written as these two
      have hlt := Bytes.toNat_lt (raw.take linkCountSize)
      have hback := Bytes.ofNat_toNat (raw.take linkCountSize)
      rw [htwo] at hlt hback
      unfold encode
      dsimp only
      rw [if_pos (by rw [hl]; exact hlt), hl, hback, ← hraw, List.take_append_drop]
    · cases h

/-- What a block was read from starts with its link count, lowest byte first; its links and its data
follow. -/
theorem eq_of_decode {block : Block} {raw : Bytes} (h : decode raw = .ok block) :
    ∃ lo hi : UInt8, raw = lo :: hi :: (block.links.flatMap (·.bytes) ++ block.data) ∧
      block.links.length = lo.toNat + 256 * hi.toNat := by
  have he := encode_of_decode h
  unfold encode at he
  split at he
  · cases he
    refine ⟨UInt8.ofNat block.links.length, UInt8.ofNat (block.links.length / 256), rfl, ?_⟩
    rw [UInt8.toNat_ofNat', UInt8.toNat_ofNat']
    omega
  · cases he

/-- Bytes that are long enough for the links they announce read as a block. -/
theorem exists_decode {lo hi : UInt8} {body : Bytes}
    (h : (lo.toNat + 256 * hi.toNat) * linkSize ≤ body.length) : ∃ block, decode (lo :: hi :: body) = .ok block := by
  have hcount : Bytes.toNat ((lo :: hi :: body).take linkCountSize) = lo.toNat + 256 * hi.toNat := rfl
  have hbody : (lo :: hi :: body).drop linkCountSize = body := rfl
  obtain ⟨links, rest, htake⟩ := exists_takeLinks? h
  refine ⟨⟨links, rest⟩, ?_⟩
  unfold decode
  rw [if_neg (by simp [linkCountSize]), hcount, hbody]
  dsimp only
  rw [htake]

/-- A byte string reads as a block exactly if it is long enough for the links it announces. -/
theorem exists_decode_iff {raw : Bytes} : (∃ block, decode raw = .ok block) ↔
    ∃ lo hi body, raw = lo :: hi :: body ∧ 2 + 32 * (lo.toNat + 256 * hi.toNat) ≤ raw.length := by
  constructor
  · rintro ⟨block, hdecode⟩
    obtain ⟨lo, hi, rfl, hcount⟩ := eq_of_decode hdecode
    refine ⟨lo, hi, _, rfl, ?_⟩
    simp only [List.length_cons, List.length_append, length_flatMap_bytes, linkSize]
    omega
  · rintro ⟨lo, hi, body, rfl, hlong⟩
    apply exists_decode
    simp only [List.length_cons, linkSize] at *
    omega

theorem exists_encode_iff {block : Block} : (∃ raw, encode block = .ok raw) ↔ block.links.length ≤ 65535 := by
  unfold encode
  split
  · exact ⟨fun _ => by omega, fun _ => ⟨_, rfl⟩⟩
  · exact ⟨fun ⟨_, h⟩ => (by cases h), fun _ => by omega⟩

/-- The bytes of a block are its link count, its links and its data. -/
theorem length_of_decode {block : Block} {raw : Bytes} (h : decode raw = .ok block) :
    raw.length = linkCountSize + block.links.length * linkSize + block.data.length := by
  have he := encode_of_decode h
  unfold encode at he
  split at he
  · cases he
    rw [List.length_append, List.length_append, Bytes.length_ofNat, length_flatMap_bytes]
    omega
  · cases he

end Block

namespace Header

/-- Reading a header that was written gives the length and what follows. -/
theorem decode_of_encode {length : Nat} {header : Bytes} (h : encode length = .ok header) (rest : Bytes) :
    decode (header ++ rest) = .ok (length, rest) := by
  unfold encode at h
  split at h
  · next hlt =>
    cases h
    have hlen : (Bytes.ofNat lengthHeaderSize length).length = lengthHeaderSize := Bytes.length_ofNat _ _
    have hval : Bytes.toNat (Bytes.ofNat lengthHeaderSize length) = length := by
      rw [Bytes.toNat_ofNat]
      exact Nat.mod_eq_of_lt hlt
    unfold decode
    rw [if_neg (by rw [List.length_append, hlen]; omega), List.take_left' hlen, List.drop_left' hlen, hval]
  · cases h

theorem exists_encode_iff {length : Nat} : (∃ header, encode length = .ok header) ↔ length < 0x100000000 := by
  unfold encode
  split
  · exact ⟨fun _ => by assumption, fun _ => ⟨_, rfl⟩⟩
  · exact ⟨fun ⟨_, h⟩ => (by cases h), fun _ => by contradiction⟩

theorem exists_decode_iff {data : Bytes} : (∃ length rest, decode data = .ok (length, rest)) ↔
    lengthHeaderSize ≤ data.length := by
  unfold decode
  split
  · exact ⟨fun ⟨_, _, h⟩ => (by cases h), fun _ => by omega⟩
  · exact ⟨fun _ => by omega, fun _ => ⟨_, _, rfl⟩⟩

/-- Data that a header was read from starts with that header. -/
theorem encode_of_decode {data rest : Bytes} {length : Nat} (h : decode data = .ok (length, rest)) :
    ∃ header, encode length = .ok header ∧ header.length = lengthHeaderSize ∧ data = header ++ rest := by
  unfold decode at h
  split at h
  · cases h
  · next hlen =>
    cases h
    have hfour : (data.take lengthHeaderSize).length = lengthHeaderSize := by
      rw [List.length_take]
      omega
    have hlt := Bytes.toNat_lt (data.take lengthHeaderSize)
    have hback := Bytes.ofNat_toNat (data.take lengthHeaderSize)
    rw [hfour] at hlt hback
    refine ⟨data.take lengthHeaderSize, ?_, hfour, (List.take_append_drop _ _).symm⟩
    unfold encode
    rw [if_pos (show _ < 0x100000000 from hlt), hback]

theorem length_lt {length : Nat} {header : Bytes} (h : encode length = .ok header) :
    length < 0x100000000 ∧ header.length = lengthHeaderSize := by
  unfold encode at h
  split at h
  · next hlt =>
    cases h
    exact ⟨hlt, Bytes.length_ofNat _ _⟩
  · cases h

end Header

/-- Blocks and headers have one written form each. The byte strings that read as a block are those that
are long enough for the links they announce, lowest byte first, and writing the block gives the same
bytes back; the blocks that can be written are those of at most 65535 links, and they are read back. In
the same way a length below 2^32 has one header, which is read off whatever follows it, and all data of
at least four bytes start with the header of the length read off them. -/
theorem codec_bijective :
    (∀ raw, (∃ block, Block.decode raw = .ok block) ↔
      ∃ lo hi body, raw = lo :: hi :: body ∧ 2 + 32 * (lo.toNat + 256 * hi.toNat) ≤ raw.length) ∧
    (∀ raw block, Block.decode raw = .ok block → Block.encode block = .ok raw ∧
      ∃ lo hi, raw = lo :: hi :: (block.links.flatMap (·.bytes) ++ block.data) ∧
        block.links.length = lo.toNat + 256 * hi.toNat) ∧
    (∀ block, (∃ raw, Block.encode block = .ok raw) ↔ block.links.length ≤ 65535) ∧
    (∀ block raw, Block.encode block = .ok raw → Block.decode raw = .ok block) ∧
    (∀ length, (∃ header, Header.encode length = .ok header) ↔ length < 0x100000000) ∧
    (∀ length header, Header.encode length = .ok header →
      header.length = 4 ∧ ∀ rest, Header.decode (header ++ rest) = .ok (length, rest)) ∧
    (∀ data, (∃ length rest, Header.decode data = .ok (length, rest)) ↔ 4 ≤ data.length) ∧
    (∀ data length rest, Header.decode data = .ok (length, rest) →
      ∃ header, Header.encode length = .ok header ∧ data = header ++ rest) := by
  refine ⟨fun _ => Block.exists_decode_iff, ?_, fun _ => Block.exists_encode_iff,
    fun _ _ => Block.decode_of_encode, fun _ => Header.exists_encode_iff, ?_, fun _ => Header.exists_decode_iff, ?_⟩
  · intro raw block hdecode
    exact ⟨Block.encode_of_decode hdecode, Block.eq_of_decode hdecode⟩
  · intro length header hencode
    exact ⟨(Header.length_lt hencode).2, Header.decode_of_encode hencode⟩
  · intro data length rest hdecode
    obtain ⟨header, hencode, -, hdata⟩ := Header.encode_of_decode hdecode
    exact ⟨header, hencode, hdata⟩

namespace Schema

variable {s : Schema} {ix size links : Nat}

/-- A check passes exactly for the block's size and number of links. -/
theorem check_eq_ok_iff : s.check ix size links = .ok () ↔ size = s.blockSize ix ∧ links = s.linkCount ix := by
  unfold check
  split
  · next h => simp [h]
  · next h =>
    split
    · next h' => simp [h']
    · next h' =>
      rw [not_not] at h h'
      simp [h, h']

end Schema

namespace Join

variable {s : Schema} {ix : Nat} {raw : Bytes} {block : Block}

/-- A block opens at a position if it comes apart and has the size and the links of the position. -/
theorem openBlock_eq_ok_iff : openBlock s ix raw = .ok block ↔
    Block.decode raw = .ok block ∧ raw.length = s.blockSize ix ∧ block.links.length = s.linkCount ix := by
  unfold openBlock
  rw [← Schema.check_eq_ok_iff]
  cases hd : Block.decode raw with
  | error e => simp [bind, Except.bind]
  | ok b =>
    cases hc : s.check ix raw.length b.links.length with
    | error e =>
      simp only [bind, Except.bind, hc, reduceCtorEq, Except.ok.injEq, false_iff, not_and]
      rintro rfl
      rw [hc]
      simp
    | ok u =>
      simp only [bind, Except.bind, hc, pure, Except.pure, Except.ok.injEq]
      constructor
      · rintro rfl
        exact ⟨rfl, hc⟩
      · rintro ⟨rfl, -⟩
        rfl

/-- Only positions of the tree have blocks. -/
theorem lt_of_openBlock (h : openBlock s ix raw = .ok block) : ix < s.totalBlocks := by
  obtain ⟨hd, hsize, -⟩ := openBlock_eq_ok_iff.1 h
  by_contra hge
  have hlen := Block.length_of_decode hd
  rw [hsize, Schema.blockSize, if_pos (by omega)] at hlen
  simp only [linkCountSize] at hlen
  omega

theorem links_of_openBlock (h : openBlock s ix raw = .ok block) : block.links.length = s.linkCount ix :=
  (openBlock_eq_ok_iff.1 h).2.2

theorem data_of_openBlock (h : openBlock s ix raw = .ok block) : block.data.length = s.dataSize ix := by
  obtain ⟨hd, hsize, hlinks⟩ := openBlock_eq_ok_iff.1 h
  have hlen := Block.length_of_decode hd
  rw [hsize, Schema.blockSize, if_neg (Nat.not_le.2 (lt_of_openBlock h)), hlinks] at hlen
  omega

/-- The links of an opened block lead to the children of its position. -/
theorem linked_of_openBlock (h : openBlock s ix raw = .ok block) :
    linked s ix block.links = (s.children ix).zip block.links ∧
      (s.children ix).length = block.links.length := by
  unfold linked Schema.children
  rw [links_of_openBlock h]
  exact ⟨rfl, List.length_range'⟩

end Join

end BlockDag
