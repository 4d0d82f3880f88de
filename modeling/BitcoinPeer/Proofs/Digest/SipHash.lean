import BitcoinPeer.Chain.CompactBlock
import BitcoinPeer.Proofs.Codec.Numbers

/-!
# SipHash of messages of any length

The reference for the keyed hash of 256-bit values is SipHash on byte strings of every length
(`ofMessage`). A message is cut into words of eight bytes, least significant byte first; the bytes that
are left over are filled up with zeros, and the last byte of the last word is the length of the message
(`words_pad`). A round mixes the four words of the state in two halves, which differ in the amounts of
their rotations and in the words that they start from.

A 256-bit value is a message of four whole words, so its last word holds nothing but the length
(`words_pad_encode`), and the machine's words are bit vectors: hence step by step the same states
(`State.lanes`).
-/

namespace BitcoinPeer.SipHash

/-! ### The reference -/

/-- The four words of the state. -/
structure Lanes where
  a : BitVec 64
  b : BitVec 64
  c : BitVec 64
  d : BitVec 64

namespace Lanes

/-- Half a round. Two pairs of words are mixed side by side: the first word of a pair takes in the
second, which is rotated and takes in the sum. The first sum is then turned by half a word. -/
def half (left right : Nat) (v : Lanes) : Lanes :=
  let sum := v.a + v.b
  let sum' := v.c + v.d
  ⟨sum.rotateLeft 32, v.b.rotateLeft left ^^^ sum, sum', v.d.rotateLeft right ^^^ sum'⟩

/-- The other pairing of the words. -/
def swap (v : Lanes) : Lanes :=
  ⟨v.c, v.b, v.a, v.d⟩

def round (v : Lanes) : Lanes :=
  ((v.half 13 16).swap.half 17 21).swap

/-- Takes in a word, in so many rounds. -/
def compress (rounds : Nat) (v : Lanes) (word : BitVec 64) : Lanes :=
  let v := Nat.repeat round rounds { v with d := v.d ^^^ word }
  { v with a := v.a ^^^ word }

/-- The value of the state after so many more rounds. -/
def finalize (rounds : Nat) (v : Lanes) : BitVec 64 :=
  let v := Nat.repeat round rounds { v with c := v.c ^^^ 0xff }
  v.a ^^^ v.b ^^^ v.c ^^^ v.d

/-- The word whose bytes are the characters of a text, the first one on top. -/
def ofText (text : String) : BitVec 64 :=
  BitVec.ofNat 64 (Nat.ofDigits 256 (text.toList.reverse.map Char.toNat))

/-- The state before the first word, under the two keys. -/
def keyed (k0 k1 : BitVec 64) : Lanes :=
  ⟨ofText "somepseu" ^^^ k0, ofText "dorandom" ^^^ k1, ofText "lygenera" ^^^ k0,
    ofText "tedbytes" ^^^ k1⟩

end Lanes

/-- The word whose bytes these are, least significant first. -/
def wordLE (bs : Bytes) : BitVec 64 :=
  BitVec.ofNat 64 (Nat.ofDigits 256 (bs.map UInt8.toNat))

/-- The words of a byte string that consists of whole ones. -/
def words : Bytes → List (BitVec 64)
  | b₀ :: b₁ :: b₂ :: b₃ :: b₄ :: b₅ :: b₆ :: b₇ :: rest =>
    wordLE [b₀, b₁, b₂, b₃, b₄, b₅, b₆, b₇] :: words rest
  | _ => []

/-- The zeros and the length with which a message is filled up to whole words. -/
def tail (message : Bytes) : Bytes :=
  Bytes.zeros (7 - message.length % 8) ++ [UInt8.ofNat message.length]

/-- SipHash with so many rounds for each word and so many at the end. -/
def ofMessage (rounds last : Nat) (k0 k1 : BitVec 64) (message : Bytes) : BitVec 64 :=
  ((words (message ++ tail message)).foldl (Lanes.compress rounds) (Lanes.keyed k0 k1)).finalize last

/-- The published vector: a message of fifteen bytes. -/
example : ofMessage 2 4 0x0706050403020100 0x0f0e0d0c0b0a0908 ((List.range 15).map UInt8.ofNat) =
    0xa129ca6149be45e5 := by
  cbv

/-! ### Words of a message -/

theorem words_append {block : Bytes} (h : block.length = 8) (rest : Bytes) :
    words (block ++ rest) = wordLE block :: words rest := by
  match block, h with
  | [_, _, _, _, _, _, _, _], _ => rfl

/-- The first words are those of blocks of eight bytes, and the rest is cut likewise. -/
theorem words_blocks {n : Nat} {bs : Bytes} (h : 8 * n ≤ bs.length) :
    words bs = (List.range n).map (fun i => wordLE ((bs.drop (8 * i)).take 8)) ++
      words (bs.drop (8 * n)) := by
  induction n generalizing bs with
  | zero => rfl
  | succ n ih =>
    have hfirst : (bs.take 8).length = 8 := by
      rw [List.length_take]
      omega
    have hmore : 8 * n ≤ (bs.drop 8).length := by
      rw [List.length_drop]
      omega
    have hword := words_append hfirst (bs.drop 8)
    rw [List.take_append_drop] at hword
    rw [hword, ih hmore, List.range_succ_eq_map, List.map_cons, List.map_map, List.cons_append]
    simp only [List.drop_drop, Function.comp_def, Nat.mul_zero, List.drop_zero, Nat.mul_succ,
      Nat.add_comm]

/-- **The words of a message** of any length: first those of its whole blocks of eight bytes, then one
that holds the bytes left over, zeros, and the length in its top byte. -/
theorem words_pad (message : Bytes) :
    words (message ++ tail message) =
      (List.range (message.length / 8)).map (fun i => wordLE ((message.drop (8 * i)).take 8)) ++
        [wordLE (message.drop (8 * (message.length / 8)) ++ tail message)] := by
  -- what is left over of the message and what is added make one more block
  have hlast : (message.drop (8 * (message.length / 8)) ++ tail message).length = 8 := by
    simp only [tail, List.length_append, List.length_drop, Bytes.length_zeros, List.length_singleton]
    omega
  have hword := words_append hlast []
  rw [List.append_nil] at hword
  have hle : 8 * (message.length / 8) ≤ (message ++ tail message).length := by
    rw [List.length_append]
    omega
  rw [words_blocks hle, List.drop_append_of_le_length (by omega), hword]
  congr 1
  refine List.map_congr_left fun i hi => ?_
  have hlt : i < message.length / 8 := List.mem_range.mp hi
  have hblock : 8 ≤ (message.drop (8 * i)).length := by
    rw [List.length_drop]
    omega
  rw [List.drop_append_of_le_length (by omega), List.take_append_of_le_length hblock]

/-! ### The same states -/

/-- The two shifts of a rotation, for amounts at which neither shifts everything away. -/
theorem toBitVec_rotl (x n : UInt64) (hpos : 0 < n.toNat) (hlt : n.toNat < 64) :
    (rotl x n).toBitVec = x.toBitVec.rotateLeft n.toNat := by
  have hback : (64 - n).toNat = 64 - n.toNat :=
    UInt64.toNat_sub_of_le _ _ (UInt64.le_iff_toNat_le.mpr hlt.le)
  have hleft : n.toNat % 64 = n.toNat := Nat.mod_eq_of_lt hlt
  have hright : (64 - n).toNat % 64 = 64 - n.toNat := by omega
  rw [rotl, UInt64.toBitVec_or, UInt64.toBitVec_shiftLeft, UInt64.toBitVec_shiftRight,
    BitVec.rotateLeft_def, hleft]
  show x.toBitVec <<< (n.toNat % 64) ||| x.toBitVec >>> ((64 - n).toNat % 64) = _
  rw [hleft, hright]

/-- The state with bit vectors for its words. -/
def State.lanes (s : State) : Lanes :=
  ⟨s.v0.toBitVec, s.v1.toBitVec, s.v2.toBitVec, s.v3.toBitVec⟩

theorem lanes_keyed (k0 k1 : UInt64) :
    (State.keyed k0 k1).lanes = Lanes.keyed k0.toBitVec k1.toBitVec := by
  have h0 : Lanes.ofText "somepseu" = 0x736f6d6570736575 := by decide
  have h1 : Lanes.ofText "dorandom" = 0x646f72616e646f6d := by decide
  have h2 : Lanes.ofText "lygenera" = 0x6c7967656e657261 := by decide
  have h3 : Lanes.ofText "tedbytes" = 0x7465646279746573 := by decide
  rw [Lanes.keyed, h0, h1, h2, h3]
  rfl

theorem lanes_round (s : State) : s.round.lanes = s.lanes.round := by
  simp [State.lanes, State.round, Lanes.round, Lanes.half, Lanes.swap, toBitVec_rotl]

theorem lanes_absorb (s : State) (word : UInt64) :
    (s.absorb word).lanes = s.lanes.compress 2 word.toBitVec := by
  have hmixed : (State.round { s with v3 := s.v3 ^^^ word }).round.lanes =
      Nat.repeat Lanes.round 2 { s.lanes with d := s.lanes.d ^^^ word.toBitVec } := by
    rw [lanes_round, lanes_round]
    rfl
  rw [Lanes.compress, ← hmixed]
  rfl

theorem toBitVec_finish (s : State) : s.finish.toBitVec = s.lanes.finalize 4 := by
  have hmixed : (State.round { s with v2 := s.v2 ^^^ 0xff }).round.round.round.lanes =
      Nat.repeat Lanes.round 4 { s.lanes with c := s.lanes.c ^^^ 0xff } := by
    rw [lanes_round, lanes_round, lanes_round, lanes_round]
    rfl
  rw [Lanes.finalize, ← hmixed]
  rfl

theorem lanes_foldl (ws : List UInt64) (s : State) :
    (ws.foldl State.absorb s).lanes =
      (ws.map UInt64.toBitVec).foldl (Lanes.compress 2) s.lanes := by
  induction ws generalizing s with
  | nil => rfl
  | cons w ws ih => rw [List.foldl_cons, ih, lanes_absorb, List.map_cons, List.foldl_cons]

/-- The words of a 256-bit value, and the word for its length. -/
def blockWords (value : Hash256) : List UInt64 :=
  (List.range 4).map value.word ++ [lengthWord]

/-- What is left over of 32 bytes is nothing, and the last word holds the length alone. -/
theorem words_pad_encode (value : Hash256) :
    words (Codec.encode value ++ tail (Codec.encode value)) =
      (blockWords value).map UInt64.toBitVec := by
  show words (value.bytes ++ tail value.bytes) = _
  have hempty : value.bytes.drop 32 = [] := List.drop_eq_nil_of_le value.length_bytes.le
  have hlength : wordLE (tail value.bytes) = lengthWord.toBitVec := by
    rw [tail, value.length_bytes]
    decide
  rw [words_pad, value.length_bytes, hempty, List.nil_append, hlength, blockWords, List.map_append,
    List.map_map]
  congr 1
  refine List.map_congr_left fun i _ => ?_
  rw [wordLE, ← Bytes.toNatLE_eq_ofDigits]
  rfl

/-- **The keyed hash** of a 256-bit value is SipHash-2-4 of its 32 bytes on the wire, and the short id
of a transaction is the remainder of that number modulo 2 ^ 48. -/
theorem hash_eq_ofMessage (k0 k1 : UInt64) (value : Hash256) :
    (hash k0 k1 value).toBitVec = ofMessage 2 4 k0.toBitVec k1.toBitVec (Codec.encode value) ∧
      (CompactBlock.shortId (k0, k1) value).toNat =
        (ofMessage 2 4 k0.toBitVec k1.toBitVec (Codec.encode value)).toNat % 2 ^ 48 := by
  have hhash : (hash k0 k1 value).toBitVec =
      ofMessage 2 4 k0.toBitVec k1.toBitVec (Codec.encode value) := by
    rw [ofMessage, words_pad_encode, ← lanes_keyed, ← lanes_foldl, ← toBitVec_finish]
    rfl
  refine ⟨hhash, ?_⟩
  have hmask : (0xffffffffffff : UInt64).toNat = 2 ^ 48 - 1 := rfl
  rw [← hhash, CompactBlock.shortId, UInt64.toNat_and, hmask, Nat.and_two_pow_sub_one_eq_mod]
  rfl

end BitcoinPeer.SipHash
