/-
What can be wrong with the shape of a block or a blob, and how it is worded.
-/
import BlockDag.Bytes
import BlockDag.Format.Tag

namespace BlockDag

/-- A block or blob that does not have the shape it claims. -/
inductive FormatError where
  /-- A block of `size` bytes cannot hold its link count. -/
  | blockTooShort (size : Nat)
  /-- The announced links do not fit the block. -/
  | linksOverflow (links size : Nat)
  /-- More links than the link count can say. -/
  | tooManyLinks (links : Nat)
  /-- The root's `size` bytes of data cannot hold the length header. -/
  | headerTruncated (size : Nat)
  /-- A length that the header cannot say. -/
  | lengthOverflow (length : Nat)
  | missingTag
  | unknownTag (byte : UInt8)
  | tagMismatch (expected actual : UInt8)
  /-- The tag has no configured limits. -/
  | unsupportedTag (tag : DataTag)
  /-- A payload of `size` bytes where at most `max` are accepted. -/
  | payloadTooLarge (size max : Nat)
  | unexpectedSize (position actual expected : Nat)
  | unexpectedLinkCount (position actual expected : Nat)
  | lengthMismatch (declared actual : Nat)
deriving DecidableEq

namespace FormatError

/-- A byte as it appears in messages. -/
def showByte (byte : UInt8) : String := "0x" ++ Bytes.hex [byte]

/-- The wording. -/
def message : FormatError → String
  | blockTooShort size => s!"block of {size} bytes is too short for a link prefix"
  | linksOverflow links size => s!"{links} links overrun a block of {size} bytes"
  | tooManyLinks links => s!"{links} links do not fit the u16 link prefix"
  | headerTruncated size => s!"root header truncated: {size} bytes of data"
  | lengthOverflow length => s!"length {length} does not fit the u32 length header"
  | missingTag => "root block carries no tag byte"
  | unknownTag byte => "unknown data tag: " ++ showByte byte
  | tagMismatch expected actual => "tag mismatch: " ++ showByte actual ++ " != " ++ showByte expected
  | unsupportedTag tag => "no limits configured for tag " ++ tag.name
  | payloadTooLarge size max => s!"data is too large: {size} > {max}"
  | unexpectedSize position actual expected =>
    s!"unexpected size for block #{position}: {actual} != {expected}"
  | unexpectedLinkCount position actual expected =>
    s!"unexpected link count for block #{position}: {actual} != {expected}"
  | lengthMismatch declared actual =>
    s!"declared length {declared} but {actual} bytes were reassembled"

end FormatError

end BlockDag
