/-
Byte strings: little-endian numbers, hexadecimal text, and cutting a string into pieces. Reading
a little-endian number undoes writing it within the width, and a piece is never empty.
-/
namespace BlockDag

/-- A byte string. -/
abbrev Bytes := List UInt8

namespace Bytes

/-! ## Comparing -/

/-- Whether two byte strings are the same, as far as the first byte in which they differ. -/
def same : Bytes → Bytes → Bool
  | [], [] => true
  | [], _ :: _ => false
  | _ :: _, [] => false
  | a :: as, b :: bs => a == b && same as bs

theorem same_iff_eq {as bs : Bytes} : same as bs = true ↔ as = bs := by
  fun_induction same as bs <;> simp_all

/-! ## Little-endian numbers -/

/-- The `width` low bytes of `n`, lowest first. Higher bytes are dropped. -/
def ofNat : (width n : Nat) → Bytes
  | 0, _ => []
  | width + 1, n => UInt8.ofNat n :: ofNat width (n / 256)

/-- The number that `bytes` writes, lowest byte first. -/
def toNat : Bytes → Nat
  | [] => 0
  | byte :: rest => byte.toNat + 256 * toNat rest

@[simp] theorem length_ofNat (width n : Nat) : (ofNat width n).length = width := by
  induction width generalizing n with
  | zero => rfl
  | succ width ih => simp [ofNat, ih]

/-- How many numbers `width` bytes can write. -/
def capacity : (width : Nat) → Nat
  | 0 => 1
  | width + 1 => 256 * capacity width

/-- Writing keeps a number modulo the capacity. -/
theorem toNat_ofNat (width n : Nat) : toNat (ofNat width n) = n % capacity width := by
  induction width generalizing n with
  | zero => simp [ofNat, toNat, capacity, Nat.mod_one]
  | succ width ih =>
    rw [ofNat, toNat, ih, capacity, Nat.mod_mul]
    simp

theorem toNat_lt (bytes : Bytes) : toNat bytes < capacity bytes.length := by
  induction bytes with
  | nil => simp [toNat, capacity]
  | cons byte rest ih =>
    have := byte.toNat_lt
    simp only [toNat, List.length_cons, capacity]
    omega

/-- Reading loses nothing: the bytes come back. -/
theorem ofNat_toNat (bytes : Bytes) : ofNat bytes.length (toNat bytes) = bytes := by
  induction bytes with
  | nil => rfl
  | cons byte rest ih =>
    have hb := byte.toNat_lt
    have hd : (byte.toNat + 256 * toNat rest) / 256 = toNat rest := by omega
    simp only [toNat, List.length_cons, ofNat, hd, ih, List.cons.injEq, and_true]
    apply UInt8.toNat_inj.1
    simp

/-! ## Hexadecimal text -/

/-- Two lowercase digits. -/
def hexByte (byte : UInt8) : List Char :=
  [Nat.digitChar (byte.toNat / 16), Nat.digitChar (byte.toNat % 16)]

/-- Two lowercase digits a byte. -/
def hex (bytes : Bytes) : String := String.ofList (bytes.flatMap hexByte)

/-- The value of one hexadecimal digit of either case. -/
def hexDigit? (c : Char) : Option Nat :=
  if '0' ≤ c ∧ c ≤ '9' then some (c.toNat - '0'.toNat)
  else if 'a' ≤ c ∧ c ≤ 'f' then some (c.toNat - 'a'.toNat + 10)
  else if 'A' ≤ c ∧ c ≤ 'F' then some (c.toNat - 'A'.toNat + 10)
  else none

theorem hexDigit?_digitChar : ∀ digit < 16, hexDigit? (Nat.digitChar digit) = some digit := by decide

/-- Reads pairs of digits; a lone or foreign character is refused. -/
def ofHexChars? : List Char → Option Bytes
  | [] => some []
  | [_] => none
  | hi :: lo :: rest => do
    let hi ← hexDigit? hi
    let lo ← hexDigit? lo
    let bytes ← ofHexChars? rest
    return UInt8.ofNat (16 * hi + lo) :: bytes

/-- Reads text that `hex` writes. -/
def ofHex? (text : String) : Option Bytes := ofHexChars? text.toList

/-! ## Text -/

/-- The UTF-8 encoding of a text. -/
def ofString (text : String) : Bytes := text.toUTF8.toList

/-- The text that `bytes` encode, if they are well-formed UTF-8. -/
def toString? (bytes : Bytes) : Option String := String.fromUTF8? (ByteArray.mk bytes.toArray)

/-! ## Pieces -/

/-- Cuts `bytes` into pieces of `size`, the last one possibly shorter; `fuel` bounds their number. -/
def piecesWithin (size : Nat) : (fuel : Nat) → Bytes → List Bytes
  | 0, _ => []
  | _ + 1, [] => []
  | fuel + 1, bytes => bytes.take size :: piecesWithin size fuel (bytes.drop size)

/-- Cuts `bytes` into pieces of `size` bytes, the last one possibly shorter. -/
def pieces (size : Nat) (bytes : Bytes) : List Bytes :=
  piecesWithin size (bytes.length / size + 1) bytes

end Bytes

end BlockDag
