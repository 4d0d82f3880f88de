import BitcoinPeer.Bytes

/-!
# RIPEMD-160

Every block of 64 bytes runs through two lines of 80 rounds, and the two results are added to the
state crosswise.
-/

namespace BitcoinPeer.Ripemd160

/-- The five working words. -/
structure State where
  a : UInt32
  b : UInt32
  c : UInt32
  d : UInt32
  e : UInt32

def State.initial : State :=
  ⟨0x67452301, 0xefcdab89, 0x98badcfe, 0x10325476, 0xc3d2e1f0⟩

def State.words (s : State) : List UInt32 :=
  [s.a, s.b, s.c, s.d, s.e]

def rotl (x : UInt32) (n : UInt32) : UInt32 :=
  (x <<< n) ||| (x >>> (32 - n))

/-- The mixing functions, in the order in which the left line uses them. -/
def mixers : List (UInt32 → UInt32 → UInt32 → UInt32) :=
  [fun x y z => x ^^^ y ^^^ z,
    fun x y z => (x &&& y) ||| (~~~x &&& z),
    fun x y z => (x ||| ~~~y) ^^^ z,
    fun x y z => (x &&& z) ||| (y &&& ~~~z),
    fun x y z => x ^^^ (y ||| ~~~z)]

/-- What one of the two lines does in its rounds: a mixing function and a constant for every 16
rounds, a message word and a rotation for each. -/
structure Line where
  mixers : List (UInt32 → UInt32 → UInt32 → UInt32)
  constants : List UInt32
  wordOrder : List Nat
  rotations : List UInt32

def left : Line where
  mixers := mixers
  constants := [0x00000000, 0x5a827999, 0x6ed9eba1, 0x8f1bbcdc, 0xa953fd4e]
  wordOrder :=
    [0, 1, 2, 3, 4, 5, 6, 7, 8, 9, 10, 11, 12, 13, 14, 15,
      7, 4, 13, 1, 10, 6, 15, 3, 12, 0, 9, 5, 2, 14, 11, 8,
      3, 10, 14, 4, 9, 15, 8, 1, 2, 7, 0, 6, 13, 11, 5, 12,
      1, 9, 11, 10, 0, 8, 12, 4, 13, 3, 7, 15, 14, 5, 6, 2,
      4, 0, 5, 9, 7, 12, 2, 10, 14, 1, 3, 8, 11, 6, 15, 13]
  rotations :=
    [11, 14, 15, 12, 5, 8, 7, 9, 11, 13, 14, 15, 6, 7, 9, 8,
      7, 6, 8, 13, 11, 9, 7, 15, 7, 12, 15, 9, 11, 7, 13, 12,
      11, 13, 6, 7, 14, 9, 13, 15, 14, 8, 13, 6, 5, 12, 7, 5,
      11, 12, 14, 15, 14, 15, 9, 8, 9, 14, 5, 6, 8, 6, 5, 12,
      9, 15, 5, 11, 6, 8, 13, 12, 5, 12, 13, 14, 11, 8, 5, 6]

def right : Line where
  mixers := mixers.reverse
  constants := [0x50a28be6, 0x5c4dd124, 0x6d703ef3, 0x7a6d76e9, 0x00000000]
  wordOrder :=
    [5, 14, 7, 0, 9, 2, 11, 4, 13, 6, 15, 8, 1, 10, 3, 12,
      6, 11, 3, 7, 0, 13, 5, 10, 14, 15, 8, 12, 4, 9, 1, 2,
      15, 5, 1, 3, 7, 14, 6, 9, 11, 8, 12, 2, 10, 0, 4, 13,
      8, 6, 4, 1, 3, 11, 15, 0, 5, 12, 2, 13, 9, 7, 10, 14,
      12, 15, 10, 4, 1, 5, 8, 7, 6, 2, 13, 14, 0, 3, 9, 11]
  rotations :=
    [8, 9, 9, 11, 13, 15, 15, 5, 7, 7, 8, 11, 14, 14, 12, 6,
      9, 13, 15, 7, 12, 8, 9, 11, 7, 7, 12, 7, 6, 15, 13, 11,
      9, 7, 15, 11, 8, 6, 6, 14, 12, 13, 5, 14, 13, 13, 7, 5,
      15, 5, 8, 11, 14, 14, 6, 14, 6, 9, 12, 9, 12, 5, 15, 8,
      8, 5, 12, 9, 12, 5, 14, 6, 8, 13, 6, 5, 15, 13, 11, 11]

/-- One round of a line. -/
def round (line : Line) (block : List UInt32) (s : State) (i : Nat) : State :=
  let mix := line.mixers.getD (i / 16) fun x _ _ => x
  let word := block.getD (line.wordOrder.getD i 0) 0
  let sum := s.a + mix s.b s.c s.d + word + line.constants.getD (i / 16) 0
  ⟨s.e, rotl sum (line.rotations.getD i 0) + s.e, s.b, rotl s.c 10, s.d⟩

/-- Mixes a block of 16 words into the state. -/
def compress (s : State) (block : List UInt32) : State :=
  let l := (List.range 80).foldl (round left block) s
  let r := (List.range 80).foldl (round right block) s
  ⟨s.b + l.c + r.d, s.c + l.d + r.e, s.d + l.e + r.a, s.e + l.a + r.b, s.a + l.b + r.c⟩

/-- The padded message: a one bit, zeros up to the length field, the length in bits. -/
def pad (message : Bytes) : Bytes :=
  message ++ 0x80 :: Bytes.zeros ((119 - message.length % 64) % 64)
    ++ Bytes.ofNatLE 8 (8 * message.length)

/-- Words of four bytes, least significant first. -/
def words : Bytes → List UInt32
  | a :: b :: c :: d :: rest =>
    (a.toUInt32 ||| (b.toUInt32 <<< 8) ||| (c.toUInt32 <<< 16) ||| (d.toUInt32 <<< 24))
      :: words rest
  | _ => []

/-- Mixes so many blocks of 16 words, one after another. -/
def absorb : Nat → State → List UInt32 → State
  | 0, s, _ => s
  | n + 1, s, ws => absorb n (compress s (ws.take 16)) (ws.drop 16)

/-- The bytes of a word, least significant first. -/
def wordBytes (w : UInt32) : Bytes :=
  [w.toUInt8, (w >>> 8).toUInt8, (w >>> 16).toUInt8, (w >>> 24).toUInt8]

/-- The digest of a message. -/
def hash (message : Bytes) : Octets 20 :=
  let ws := words (pad message)
  let final := absorb (ws.length / 16) State.initial ws
  ⟨final.words.flatMap wordBytes, by simp [State.words, wordBytes]⟩

end BitcoinPeer.Ripemd160
