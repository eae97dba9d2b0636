/-
The header at the start of a root's data: four bytes that say, lowest byte first, how long the tag
byte and the payload after them are together.
-/
import BlockDag.BlockSize
import BlockDag.Format.Error

namespace BlockDag.Header

/-- The header of a blob whose tag and payload take `length` bytes. -/
def encode (length : Nat) : Except FormatError Bytes :=
  if length < 0x100000000 then .ok (Bytes.ofNat lengthHeaderSize length) else .error (.lengthOverflow length)

/-- The declared length, and the data after the header. -/
def decode (data : Bytes) : Except FormatError (Nat × Bytes) :=
  if data.length < lengthHeaderSize then
    .error (.headerTruncated data.length)
  else
    .ok (Bytes.toNat (data.take lengthHeaderSize), data.drop lengthHeaderSize)

end BlockDag.Header
