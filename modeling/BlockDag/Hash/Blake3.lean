/-
The BLAKE3 hash without a key, at its default length of 32 bytes. The input is cut into chunks of
1024 bytes, a chunk into blocks of 64; the chaining values of the chunks are joined pairwise,
level by level, the odd one of a level moving up as it is.
-/
import BlockDag.Bytes

namespace BlockDag.Blake3

/-- Sixteen words: a message block or the state of the compression function. -/
structure Words where
  (w0 w1 w2 w3 w4 w5 w6 w7 w8 w9 w10 w11 w12 w13 w14 w15 : UInt32)

/-- Eight words: a chaining value. -/
structure Chain where
  (h0 h1 h2 h3 h4 h5 h6 h7 : UInt32)

/-- The chaining value every chunk starts from, and the key of every parent. -/
def Chain.initial : Chain :=
  ⟨0x6A09E667, 0xBB67AE85, 0x3C6EF372, 0xA54FF53A, 0x510E527F, 0x9B05688C, 0x1F83D9AB, 0x5BE0CD19⟩

/-! ## Compression -/

/-- Turns a word right by `n` bits. -/
@[inline] def rotateRight (x n : UInt32) : UInt32 := (x >>> n) ||| (x <<< (32 - n))

/-- Mixes two message words into one column or diagonal of the state. -/
@[inline] def mix (a b c d x y : UInt32) : UInt32 × UInt32 × UInt32 × UInt32 :=
  let a := a + b + x
  let d := rotateRight (d ^^^ a) 16
  let c := c + d
  let b := rotateRight (b ^^^ c) 12
  let a := a + b + y
  let d := rotateRight (d ^^^ a) 8
  let c := c + d
  let b := rotateRight (b ^^^ c) 7
  (a, b, c, d)

/-- One round: the four columns, then the four diagonals. -/
def Words.round (s m : Words) : Words :=
  let (a0, b0, c0, d0) := mix s.w0 s.w4 s.w8 s.w12 m.w0 m.w1
  let (a1, b1, c1, d1) := mix s.w1 s.w5 s.w9 s.w13 m.w2 m.w3
  let (a2, b2, c2, d2) := mix s.w2 s.w6 s.w10 s.w14 m.w4 m.w5
  let (a3, b3, c3, d3) := mix s.w3 s.w7 s.w11 s.w15 m.w6 m.w7
  let (a0, b1, c2, d3) := mix a0 b1 c2 d3 m.w8 m.w9
  let (a1, b2, c3, d0) := mix a1 b2 c3 d0 m.w10 m.w11
  let (a2, b3, c0, d1) := mix a2 b3 c0 d1 m.w12 m.w13
  let (a3, b0, c1, d2) := mix a3 b0 c1 d2 m.w14 m.w15
  ⟨a0, a1, a2, a3, b0, b1, b2, b3, c0, c1, c2, c3, d0, d1, d2, d3⟩

/-- The order in which the next round takes the message words. -/
def Words.permute (m : Words) : Words :=
  ⟨m.w2, m.w6, m.w3, m.w10, m.w7, m.w0, m.w4, m.w13, m.w1, m.w11, m.w12, m.w5, m.w9, m.w14, m.w15, m.w8⟩

/-- `n` rounds, the message permuted between them. -/
def Words.rounds : Nat → (state message : Words) → Words
  | 0, s, _ => s
  | n + 1, s, m => Words.rounds n (s.round m) m.permute

/-- Where a block stands in the tree. -/
structure Flags where
  chunkStart : Bool := false
  chunkEnd : Bool := false
  parent : Bool := false
  root : Bool := false

/-- The flags as the word that enters the state. -/
def Flags.word (f : Flags) : UInt32 :=
  (if f.chunkStart then 1 else 0) ||| (if f.chunkEnd then 2 else 0) |||
    (if f.parent then 4 else 0) ||| (if f.root then 8 else 0)

/-- The compression function, cut to its first eight words. -/
def compress (h : Chain) (block : Words) (counter : Nat) (size : UInt32) (flags : Flags) : Chain :=
  let s : Words :=
    ⟨h.h0, h.h1, h.h2, h.h3, h.h4, h.h5, h.h6, h.h7,
      Chain.initial.h0, Chain.initial.h1, Chain.initial.h2, Chain.initial.h3,
      UInt32.ofNat counter, UInt32.ofNat (counter / 0x100000000), size, flags.word⟩
  let s := Words.rounds 7 s block
  ⟨s.w0 ^^^ s.w8, s.w1 ^^^ s.w9, s.w2 ^^^ s.w10, s.w3 ^^^ s.w11,
    s.w4 ^^^ s.w12, s.w5 ^^^ s.w13, s.w6 ^^^ s.w14, s.w7 ^^^ s.w15⟩

/-! ## Chunks -/

/-- Takes one little-endian word; bytes that are missing read as zero. -/
def takeWord : Bytes → UInt32 × Bytes
  | a :: b :: c :: d :: rest =>
    (a.toUInt32 ||| (b.toUInt32 <<< 8) ||| (c.toUInt32 <<< 16) ||| (d.toUInt32 <<< 24), rest)
  | [a, b, c] => (a.toUInt32 ||| (b.toUInt32 <<< 8) ||| (c.toUInt32 <<< 16), [])
  | [a, b] => (a.toUInt32 ||| (b.toUInt32 <<< 8), [])
  | [a] => (a.toUInt32, [])
  | [] => (0, [])

/-- The sixteen words of a block, padded with zeros. -/
def Words.ofBytes (bytes : Bytes) : Words :=
  let (w0, bytes) := takeWord bytes
  let (w1, bytes) := takeWord bytes
  let (w2, bytes) := takeWord bytes
  let (w3, bytes) := takeWord bytes
  let (w4, bytes) := takeWord bytes
  let (w5, bytes) := takeWord bytes
  let (w6, bytes) := takeWord bytes
  let (w7, bytes) := takeWord bytes
  let (w8, bytes) := takeWord bytes
  let (w9, bytes) := takeWord bytes
  let (w10, bytes) := takeWord bytes
  let (w11, bytes) := takeWord bytes
  let (w12, bytes) := takeWord bytes
  let (w13, bytes) := takeWord bytes
  let (w14, bytes) := takeWord bytes
  let (w15, _) := takeWord bytes
  ⟨w0, w1, w2, w3, w4, w5, w6, w7, w8, w9, w10, w11, w12, w13, w14, w15⟩

/-- Runs a chunk's blocks from `h`. `first` holds at the chunk's first block and `alone` if the
chunk is the whole input, so that its last block is the root. -/
def chainBlocks (counter : Nat) (alone : Bool) : (first : Bool) → Chain → List Bytes → Chain
  | _, h, [] => h
  | first, h, [block] =>
    compress h (Words.ofBytes block) counter (UInt32.ofNat block.length)
      { chunkStart := first, chunkEnd := true, root := alone }
  | first, h, block :: rest =>
    chainBlocks counter alone false
      (compress h (Words.ofBytes block) counter (UInt32.ofNat block.length) { chunkStart := first }) rest

/-- The chaining value of one chunk. The empty input is one chunk with one empty block. -/
def chainChunk (counter : Nat) (alone : Bool) (chunk : Bytes) : Chain :=
  chainBlocks counter alone true Chain.initial (if chunk.isEmpty then [[]] else chunk.pieces 64)

/-! ## The tree -/

/-- The chaining value of two joined subtrees. -/
def join (root : Bool) (l r : Chain) : Chain :=
  compress Chain.initial
    ⟨l.h0, l.h1, l.h2, l.h3, l.h4, l.h5, l.h6, l.h7, r.h0, r.h1, r.h2, r.h3, r.h4, r.h5, r.h6, r.h7⟩
    0 64 { parent := true, root }

/-- Joins neighbours; an odd last one stays. -/
def joinPairs : List Chain → List Chain
  | l :: r :: rest => join false l r :: joinPairs rest
  | rest => rest

/-- Joins level by level until two are left, whose parent is the root. Every level at least halves
the list, so its length is fuel enough. -/
def joinAll : (fuel : Nat) → List Chain → Chain
  | _, [] => Chain.initial
  | _, [h] => h
  | _, [l, r] => join true l r
  | 0, h :: _ => h
  | fuel + 1, chains => joinAll fuel (joinPairs chains)

/-- The chaining values of consecutive chunks, the first of which is number `counter`. -/
def chainChunks : (counter : Nat) → List Bytes → List Chain
  | _, [] => []
  | counter, chunk :: rest => chainChunk counter false chunk :: chainChunks (counter + 1) rest

/-- The root's chaining value. -/
def root (input : Bytes) : Chain :=
  match input.pieces 1024 with
  | [] => chainChunk 0 true []
  | [chunk] => chainChunk 0 true chunk
  | chunks => joinAll chunks.length (chainChunks 0 chunks)

/-- The words as 32 bytes, each lowest byte first. -/
def Chain.toBytes (h : Chain) : Bytes :=
  [h.h0, h.h1, h.h2, h.h3, h.h4, h.h5, h.h6, h.h7].flatMap fun w => Bytes.ofNat 4 w.toNat

@[simp] theorem Chain.length_toBytes (h : Chain) : h.toBytes.length = 32 := by
  simp [Chain.toBytes]

/-- The 32-byte hash of `input`. -/
def hash (input : Bytes) : Bytes := (root input).toBytes

@[simp] theorem length_hash (input : Bytes) : (hash input).length = 32 := by
  simp [hash]

end BlockDag.Blake3
