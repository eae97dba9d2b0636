/-
Numbers in a TOML document. Integers have a base and lie within 64 bits with sign; floats are read
only so far as to tell whether they are well formed and not too large.
-/
import BlockDag.Bytes

namespace BlockDag.Toml.Number

/-- Takes out the underscores, each of which has to stand between two digits. -/
def digits? (isDigit : Char → Bool) : List Char → Option (List Char)
  | [] => none
  | c :: '_' :: rest => if isDigit c then (c :: ·) <$> digits? isDigit rest else none
  | [c] => if isDigit c then some [c] else none
  | c :: rest => if isDigit c then (c :: ·) <$> digits? isDigit rest else none

/-- Where numbers begin that are larger than any integer of a document. -/
def ceiling : Nat := 0x10000000000000000

/-- The number that digits make in a base. Numbers from the ceiling on count as the ceiling. -/
def value? (base : Nat) (digits : List Char) : Option Nat :=
  digits.foldlM (fun n c => (Bytes.hexDigit? c).bind fun d =>
    if d < base then some (min (base * n + d) ceiling) else none) 0

/-- Whether a character is a digit in a base. -/
def isDigit (base : Nat) (c : Char) : Bool := (Bytes.hexDigit? c).any (· < base)

/-- The number that digits with underscores make in a base. -/
def natural? (base : Nat) (cs : List Char) : Option Nat := digits? (isDigit base) cs >>= value? base

/-- A decimal number, which has no zeros in front. -/
def decimal? (cs : List Char) : Option Nat :=
  if cs.head? = some '0' ∧ cs ≠ ['0'] then none else natural? 10 cs

/-- Takes off a sign: whether it is a minus, and what follows. -/
def sign : List Char → Bool × List Char
  | '-' :: rest => (true, rest)
  | '+' :: rest => (false, rest)
  | cs => (false, cs)

/-! ## Integers -/

/-- The written integer, as far as the ceiling. -/
def written? : List Char → Option Int
  | '0' :: 'x' :: rest => Int.ofNat <$> natural? 16 rest
  | '0' :: 'o' :: rest => Int.ofNat <$> natural? 8 rest
  | '0' :: 'b' :: rest => Int.ofNat <$> natural? 2 rest
  | cs =>
    let (minus, rest) := sign cs
    (fun n => if minus then -Int.ofNat n else Int.ofNat n) <$> decimal? rest

/-- The integer of a word, within 64 bits with sign. -/
def integer? (cs : List Char) : Option Int := do
  let n ← written? cs
  if -0x8000000000000000 ≤ n ∧ n < 0x8000000000000000 then return n else none

/-! ## Floats -/

/-- Half a step above the largest double: what reads as infinity begins here. -/
def infinityBound : Nat := (1 <<< 1024) - (1 <<< 970)

/-- How many decimal digits that bound has. -/
def infinityDigits : Nat := 309

/-- Whether a number reads as infinity that has the significant digits `digits`, the first of which is no
zero, and the point after the first `order` of them. Digits behind the bound's last do not matter, since
the bound is a whole number. -/
def overflows (digits : List Char) (order : Int) : Bool :=
  let leading := digits.take infinityDigits ++ List.replicate (infinityDigits - digits.length) '0'
  !digits.isEmpty && (infinityDigits < order ||
    order = infinityDigits && infinityBound ≤ leading.foldl (fun n c => 10 * n + (c.toNat - '0'.toNat)) 0)

/-- Cuts characters at the first that `p` holds of, which is in neither part. -/
def cutAt (p : Char → Bool) (cs : List Char) : List Char × Option (List Char) :=
  (cs.takeWhile fun c => !p c, ((cs.dropWhile fun c => !p c).tail?))

/-- A float as it is written: its sign, what stands before the point, what after it, and what after
the mark of an exponent. -/
structure Parts where
  minus : Bool
  whole : List Char
  fraction : Option (List Char)
  exponent : Option (List Char)

/-- The parts of a word. -/
def Parts.ofWord (cs : List Char) : Parts :=
  let (minus, cs) := sign cs
  let (significand, exponent) := cutAt (fun c => c = 'e' || c = 'E') cs
  let (whole, fraction) := cutAt (· = '.') significand
  ⟨minus, whole, fraction, exponent⟩

/-- How far an exponent moves the point to the right. Digits that follow a number of 65536 or more are
left aside. -/
def shift? (cs : List Char) : Option Int := do
  let (minus, rest) := sign cs
  let digits ← digits? (isDigit 10) rest
  let n := digits.foldl (fun n c => if n < 0x10000 then 10 * n + (c.toNat - '0'.toNat) else n) 0
  return if minus then -Int.ofNat n else Int.ofNat n

/-- Whether the parts are those of a float, which has a fraction, an exponent or both and does not
read as infinity; one with a minus in front may be as large as it likes. -/
def Parts.isFloat (p : Parts) : Bool :=
  Option.isSome do
    let _ ← decimal? p.whole
    let whole ← digits? (isDigit 10) p.whole
    let fraction ← p.fraction.elim (some []) (digits? (isDigit 10))
    let shift ← p.exponent.elim (some 0) shift?
    let digits := whole ++ fraction
    let zeros := digits.takeWhile (· = '0')
    let order := Int.ofNat whole.length - Int.ofNat zeros.length + shift
    guard ((p.fraction.isSome || p.exponent.isSome) &&
      (p.minus || !overflows (digits.drop zeros.length) order))

/-- Whether a word is a float. -/
def isFloat (cs : List Char) : Bool :=
  (sign cs).2 = "inf".toList || (sign cs).2 = "nan".toList || (Parts.ofWord cs).isFloat

end BlockDag.Toml.Number
