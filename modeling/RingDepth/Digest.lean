import RingDepth.Bytes

/-!
# Blake2b with a digest of 32 bytes

The working state is a square of sixteen 64-bit words in four rows. One round mixes the columns of
the square and then its diagonals, which are columns once the rows have been turned against each
other. Unkeyed, without salt or personalisation.
-/

namespace RingDepth.Blake2b

/-- Four words, one for each column of the square. -/
structure Row where
  w0 : UInt64
  w1 : UInt64
  w2 : UInt64
  w3 : UInt64
deriving DecidableEq, Repr

namespace Row

/-- Combines two rows column by column. -/
def zip (f : UInt64 → UInt64 → UInt64) (r s : Row) : Row :=
  ⟨f r.w0 s.w0, f r.w1 s.w1, f r.w2 s.w2, f r.w3 s.w3⟩

instance : Add Row := ⟨zip (· + ·)⟩

instance : XorOp Row := ⟨zip (· ^^^ ·)⟩

/-- Rotates every word to the right by `n` bits, for `0 < n < 64`. -/
def rotateBits (n : UInt64) (r : Row) : Row :=
  let rotate (w : UInt64) := (w >>> n) ||| (w <<< (64 - n))
  ⟨rotate r.w0, rotate r.w1, rotate r.w2, rotate r.w3⟩

/-- Moves every word one column to the left, the first one to the end. -/
def turn (r : Row) : Row := ⟨r.w1, r.w2, r.w3, r.w0⟩

/-- The bytes of the four words, each least significant byte first. -/
def toBytes (r : Row) : Bytes :=
  Bytes.littleEndian 8 r.w0.toNat ++ Bytes.littleEndian 8 r.w1.toNat ++
    Bytes.littleEndian 8 r.w2.toNat ++ Bytes.littleEndian 8 r.w3.toNat

end Row

/-- The working state: four rows of four words. -/
structure Square where
  a : Row
  b : Row
  c : Row
  d : Row

namespace Square

/-- Mixes each column with one word of `x` and one of `y`. -/
def mix (s : Square) (x y : Row) : Square :=
  let a := s.a + s.b + x
  let d := (s.d ^^^ a).rotateBits 32
  let c := s.c + d
  let b := (s.b ^^^ c).rotateBits 24
  let a := a + b + y
  let d := (d ^^^ a).rotateBits 16
  let c := c + d
  let b := (b ^^^ c).rotateBits 63
  ⟨a, b, c, d⟩

/-- Turns the rows so that the diagonals become columns. -/
def toDiagonals (s : Square) : Square := ⟨s.a, s.b.turn, s.c.turn.turn, s.d.turn.turn.turn⟩

/-- Turns the rows back. -/
def ofDiagonals (s : Square) : Square := ⟨s.a, s.b.turn.turn.turn, s.c.turn.turn, s.d.turn⟩

end Square

/-- The order in which a round takes the sixteen words of a block: the two words for each column,
then the two words for each diagonal. -/
structure Schedule where
  columnFirst : List Nat
  columnSecond : List Nat
  diagonalFirst : List Nat
  diagonalSecond : List Nat

/-- The schedules of the twelve rounds; the last two repeat the first two. -/
def schedules : List Schedule :=
  [⟨[0, 2, 4, 6], [1, 3, 5, 7], [8, 10, 12, 14], [9, 11, 13, 15]⟩,
    ⟨[14, 4, 9, 13], [10, 8, 15, 6], [1, 0, 11, 5], [12, 2, 7, 3]⟩,
    ⟨[11, 12, 5, 15], [8, 0, 2, 13], [10, 3, 7, 9], [14, 6, 1, 4]⟩,
    ⟨[7, 3, 13, 11], [9, 1, 12, 14], [2, 5, 4, 15], [6, 10, 0, 8]⟩,
    ⟨[9, 5, 2, 10], [0, 7, 4, 15], [14, 11, 6, 3], [1, 12, 8, 13]⟩,
    ⟨[2, 6, 0, 8], [12, 10, 11, 3], [4, 7, 15, 1], [13, 5, 14, 9]⟩,
    ⟨[12, 1, 14, 4], [5, 15, 13, 10], [0, 6, 9, 8], [7, 3, 2, 11]⟩,
    ⟨[13, 7, 12, 3], [11, 14, 1, 9], [5, 15, 8, 2], [0, 4, 6, 10]⟩,
    ⟨[6, 14, 11, 0], [15, 9, 3, 8], [12, 13, 1, 10], [2, 7, 4, 5]⟩,
    ⟨[10, 8, 7, 1], [2, 4, 6, 5], [15, 9, 3, 13], [11, 14, 12, 0]⟩,
    ⟨[0, 2, 4, 6], [1, 3, 5, 7], [8, 10, 12, 14], [9, 11, 13, 15]⟩,
    ⟨[14, 4, 9, 13], [10, 8, 15, 6], [1, 0, 11, 5], [12, 2, 7, 3]⟩]

/-- The row of the block's words at four positions. -/
def pick (words : List UInt64) (positions : List Nat) : Row :=
  let word (i : Nat) := words.getD (positions.getD i 0) 0
  ⟨word 0, word 1, word 2, word 3⟩

/-- One round over the words of a block. -/
def mixRound (words : List UInt64) (s : Square) (r : Schedule) : Square :=
  let s := s.mix (pick words r.columnFirst) (pick words r.columnSecond)
  (s.toDiagonals.mix (pick words r.diagonalFirst) (pick words r.diagonalSecond)).ofDiagonals

/-- The first four initial words. -/
def initialLow : Row :=
  ⟨0x6a09e667f3bcc908, 0xbb67ae8584caa73b, 0x3c6ef372fe94f82b, 0xa54ff53a5f1d36f1⟩

/-- The last four initial words. -/
def initialHigh : Row :=
  ⟨0x510e527fade682d1, 0x9b05688c2b3e6c1f, 0x1f83d9abfb41bd6b, 0x5be0cd19137e2179⟩

/-- What is carried from block to block: eight words, the first four of which become the digest. -/
structure Chain where
  low : Row
  high : Row

/-- The words before the first block, for an unkeyed digest of 32 bytes. -/
def Chain.start : Chain := ⟨initialLow ^^^ ⟨0x01010020, 0, 0, 0⟩, initialHigh⟩

/-- The first `n` words of a byte string, least significant byte first; missing bytes are zero. -/
def words : (n : Nat) → Bytes → List UInt64
  | 0, _ => []
  | n + 1, bs => UInt64.ofNat (Bytes.ofLittleEndian (bs.take 8)) :: words n (bs.drop 8)

/-- Takes in one block of at most 128 bytes; `count` bytes have been taken in once it is done. -/
def Chain.absorb (h : Chain) (block : Bytes) (count : Nat) (last : Bool) : Chain :=
  let countRow : Row :=
    ⟨UInt64.ofNat count, UInt64.ofNat (count / UInt64.size), if last then 0xffffffffffffffff else 0, 0⟩
  let s := schedules.foldl (mixRound (words 16 block))
    ⟨h.low, h.high, initialLow, initialHigh ^^^ countRow⟩
  ⟨h.low ^^^ s.a ^^^ s.c, h.high ^^^ s.b ^^^ s.d⟩

/-- Takes in `full` blocks of 128 bytes and then the rest as the last block. -/
def Chain.absorbAll (h : Chain) (count : Nat) : (full : Nat) → Bytes → Chain
  | 0, bs => h.absorb bs (count + bs.length) true
  | full + 1, bs =>
    (h.absorb (bs.take 128) (count + 128) false).absorbAll (count + 128) full (bs.drop 128)

/-- The 32-byte digest of a byte string. -/
def digest (data : Bytes) : Bytes :=
  (Chain.start.absorbAll 0 ((data.length - 1) / 128) data).low.toBytes

/-- A digest has 32 bytes. -/
@[simp] theorem length_digest (data : Bytes) : (digest data).length = 32 := by
  simp [digest, Row.toBytes]

end RingDepth.Blake2b
