/-
Block ids: a block is named by the hash of its bytes, so a link inside a block is exactly one id.
Ids compare byte by byte, and sets and maps of them are search trees in that order.
-/
import BlockDag.Hash.Blake3
import Std.Data.ExtTreeMap
import Std.Data.ExtTreeSet

namespace BlockDag

/-- The 32-byte name of a block. -/
structure BlockId where
  bytes : Bytes
  length_bytes : bytes.length = 32

instance : DecidableEq BlockId := fun ⟨as, _⟩ ⟨bs, _⟩ =>
  decidable_of_iff (Bytes.same as bs = true) (by simp [Bytes.same_iff_eq])

/-- The id of a tree's root block, used as the handle of its download. -/
abbrev RootId := BlockId

namespace BlockId

/-- Bytes that one id takes, hence also one link. -/
def size : Nat := 32

/-- The name of the block with the bytes `raw`. -/
def of (raw : Bytes) : BlockId := ⟨Blake3.hash raw, Blake3.length_hash raw⟩

/-- Reads an id from exactly 32 bytes. -/
def ofBytes? (bytes : Bytes) : Option BlockId :=
  if h : bytes.length = 32 then some ⟨bytes, h⟩ else none

/-- Whether `raw` is a block of this name. -/
def Names (id : BlockId) (raw : Bytes) : Prop := of raw = id

instance (id : BlockId) (raw : Bytes) : Decidable (id.Names raw) :=
  inferInstanceAs (Decidable (of raw = id))

/-- All 64 digits. -/
def toHex (id : BlockId) : String := Bytes.hex id.bytes

instance : ToString BlockId := ⟨toHex⟩

/-- The first eight bytes, for people. -/
def short (id : BlockId) : String := "BlockId(" ++ Bytes.hex (id.bytes.take 8) ++ ")"

/-- Reads 64 hexadecimal digits. -/
def ofHex? (text : String) : Option BlockId := Bytes.ofHex? text >>= ofBytes?

/-- Ascending order, ties kept. -/
def sort (ids : List BlockId) : List BlockId := ids.mergeSort fun a b => decide (a.bytes ≤ b.bytes)

@[simp] theorem ofBytes?_bytes (id : BlockId) : ofBytes? id.bytes = some id := by
  simp [ofBytes?, id.length_bytes]

theorem bytes_of_ofBytes? {bytes : Bytes} {id : BlockId} (h : ofBytes? bytes = some id) :
    id.bytes = bytes := by
  unfold ofBytes? at h
  split at h
  · cases h; rfl
  · cases h

/-! ## Sets and maps -/

instance : Ord BlockId := ⟨fun a b => compare a.bytes b.bytes⟩

instance : Std.TransOrd BlockId where
  eq_swap {a b} := Std.OrientedCmp.eq_swap (a := a.bytes) (b := b.bytes)
  isLE_trans {a b c} := Std.TransCmp.isLE_trans (a := a.bytes) (b := b.bytes) (c := c.bytes)

theorem eq_of_bytes_eq {a b : BlockId} (h : a.bytes = b.bytes) : a = b := by
  cases a; cases b; cases h; rfl

instance : Std.LawfulEqOrd BlockId where
  compare_self {a} := Std.ReflCmp.compare_self (a := a.bytes)
  eq_of_compare {a b} h :=
    eq_of_bytes_eq (Std.LawfulEqCmp.eq_of_compare (a := a.bytes) (b := b.bytes) h)

end BlockId

/-- Values by block id. -/
abbrev BlockMap (ν : Type) := Std.ExtTreeMap BlockId ν

/-- A set of block ids. -/
abbrev BlockSet := Std.ExtTreeSet BlockId

end BlockDag
