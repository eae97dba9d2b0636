/-
The names that the store in a directory gives to files. Hexadecimal text reads back as the bytes it was
written for, so that no two ids share a name; every name is one that a file can have, and that of a draft
is none that an id has.
-/
import BlockDag.Proofs.Making
import BlockDag.Store.Directory

namespace BlockDag

namespace Bytes

/-- Hexadecimal text reads back. -/
theorem ofHex?_hex (bytes : Bytes) : ofHex? (hex bytes) = some bytes := by
  rw [ofHex?, hex, String.toList_ofList]
  induction bytes with
  | nil => rfl
  | cons byte bytes ih =>
    have hb := byte.toNat_lt
    have hback : UInt8.ofNat (16 * (byte.toNat / 16) + byte.toNat % 16) = byte := by
      rw [Nat.div_add_mod, UInt8.ofNat_toNat]
    rw [List.flatMap_cons, hexByte]
    simp only [List.cons_append, List.nil_append, ofHexChars?, hexDigit?_digitChar (byte.toNat / 16) (by omega),
      hexDigit?_digitChar (byte.toNat % 16) (by omega), ih, bind, Option.bind, pure, hback]

theorem hex_injective {bytes others : Bytes} (h : hex bytes = hex others) : bytes = others := by
  have hb := congrArg ofHex? h
  rwa [ofHex?_hex, ofHex?_hex, Option.some.injEq] at hb

theorem hex_cons (byte : UInt8) (bytes : Bytes) : hex (byte :: bytes) = String.ofList (hexByte byte) ++ hex bytes := by
  rw [hex, hex, List.flatMap_cons, String.ofList_append]

/-- Every digit takes one byte. -/
theorem utf8ByteSize_hex (bytes : Bytes) : (hex bytes).utf8ByteSize = 2 * bytes.length := by
  have hpair : ∀ high < 16, ∀ low < 16,
      (String.ofList [Nat.digitChar high, Nat.digitChar low]).utf8ByteSize = 2 := by decide
  induction bytes with
  | nil => rfl
  | cons byte bytes ih =>
    have hb := byte.toNat_lt
    rw [hex_cons, String.utf8ByteSize_append, ih, hexByte, hpair _ (by omega) _ (by omega), List.length_cons]
    omega

theorem hex_ne_above (bytes : Bytes) : hex bytes ≠ ".." := by
  have hdot : ∀ digit < 16, Nat.digitChar digit ≠ '.' := by decide
  intro h
  have hl := congrArg String.toList h
  rw [hex, String.toList_ofList] at hl
  cases bytes with
  | nil => simp at hl
  | cons byte bytes =>
    have hb := byte.toNat_lt
    rw [List.flatMap_cons, hexByte] at hl
    exact hdot (byte.toNat / 16) (by omega) (List.cons.inj hl).1

/-- Any file can be named by some bytes, as long as they are few. -/
theorem plain_hex {bytes : Bytes} (hb : bytes ≠ []) (hl : bytes.length ≤ 127) : Plain (hex bytes) := by
  have hsize := utf8ByteSize_hex bytes
  have hpos := List.length_pos_of_ne_nil hb
  refine ⟨⟨?_, hex_ne_above bytes, by rw [NameTooLong]; omega⟩, ?_⟩
  · intro h
    have hdot : ".".utf8ByteSize = 1 := rfl
    rw [h] at hsize
    omega
  · intro h
    have hempty : "".utf8ByteSize = 0 := rfl
    rw [h] at hsize
    omega

end Bytes

namespace BlockId

theorem toHex_injective {id other : BlockId} (h : id.toHex = other.toHex) : id = other :=
  eq_of_bytes_eq (Bytes.hex_injective h)

theorem utf8ByteSize_toHex (id : BlockId) : id.toHex.utf8ByteSize = 64 := by
  rw [toHex, Bytes.utf8ByteSize_hex, id.length_bytes]

theorem plain_toHex (id : BlockId) : Plain id.toHex :=
  Bytes.plain_hex (by intro h; simpa [h] using id.length_bytes) (by simp [id.length_bytes])

end BlockId

namespace DirectoryStore

/-- The name of the file that is written before it is moved to its place. -/
def draft (id : BlockId) : String := id.toHex ++ ".tmp"

theorem utf8ByteSize_draft (id : BlockId) : (draft id).utf8ByteSize = 68 := by
  rw [draft, String.utf8ByteSize_append, id.utf8ByteSize_toHex]
  rfl

theorem plain_draft (id : BlockId) : Plain (draft id) := by
  have hsize := utf8ByteSize_draft id
  refine ⟨⟨?_, ?_, by rw [NameTooLong]; omega⟩, ?_⟩ <;> intro h <;> rw [h] at hsize <;> revert hsize <;> decide

/-- A draft is never in the place of a block or a status. -/
theorem draft_ne_toHex (id other : BlockId) : draft id ≠ other.toHex := by
  intro h
  have hsize := utf8ByteSize_draft id
  rw [h, other.utf8ByteSize_toHex] at hsize
  omega

theorem plain_shard (id : BlockId) : Plain (shard id) := by
  have hl : (id.bytes.take 1).length = 1 := by simp [id.length_bytes]
  exact Bytes.plain_hex (List.ne_nil_of_length_pos (by omega)) (by omega)

theorem plain_blocks : Plain "blocks" := ⟨⟨by decide, by decide, by decide⟩, by decide⟩

theorem plain_status : Plain "status" := ⟨⟨by decide, by decide, by decide⟩, by decide⟩

end DirectoryStore

end BlockDag
