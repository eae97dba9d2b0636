/-
Data tags: the byte after the length header that says what kind of payload a blob carries.
-/
namespace BlockDag

/-- A kind of payload. -/
inductive DataTag where
  | blockBody
deriving DecidableEq

namespace DataTag

/-- The tag's byte. -/
def byte : DataTag → UInt8
  | .blockBody => 0

/-- The tag's name in settings and messages. -/
def name : DataTag → String
  | .blockBody => "block_body"

instance : ToString DataTag := ⟨name⟩

/-- The tag of a byte, if there is one. -/
def ofByte? : UInt8 → Option DataTag
  | 0 => some .blockBody
  | _ => none

/-- The tag of a name, if there is one. -/
def ofName? (text : String) : Option DataTag :=
  if text = name .blockBody then some .blockBody else none

@[simp] theorem ofByte?_byte (tag : DataTag) : ofByte? tag.byte = some tag := by cases tag; rfl

theorem byte_of_ofByte? {byte : UInt8} {tag : DataTag} (h : ofByte? byte = some tag) : tag.byte = byte := by
  unfold ofByte? at h
  split at h
  · cases h
    rfl
  · cases h

@[simp] theorem ofName?_name (tag : DataTag) : ofName? tag.name = some tag := by cases tag; rfl

end DataTag

end BlockDag
