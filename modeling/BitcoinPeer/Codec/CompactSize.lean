import BitcoinPeer.Codec.Decoder

/-!
# Compact sizes, and what they count

A compact size is a number in one, three, five or nine bytes; a marker byte says in how many. The
writer takes the shortest form, the reader takes any. Byte strings, texts and lists stand after the
compact size of their length, which is limited for byte strings and lists.
-/

namespace BitcoinPeer

namespace CompactSize

/-- The shortest form of a number. -/
def encode (n : UInt64) : Bytes :=
  if n.toNat ≤ 0xfc then [n.toUInt8]
  else if n.toNat ≤ 0xffff then 0xfd :: Bytes.ofNatLE 2 n.toNat
  else if n.toNat ≤ 0xffffffff then 0xfe :: Bytes.ofNatLE 4 n.toNat
  else 0xff :: Bytes.ofNatLE 8 n.toNat

/-- The number of bytes of the shortest form. -/
def length (n : UInt64) : Nat :=
  if n.toNat ≤ 0xfc then 1
  else if n.toNat ≤ 0xffff then 3
  else if n.toNat ≤ 0xffffffff then 5
  else 9

theorem length_encode (n : UInt64) : (encode n).length = length n := by
  unfold encode length
  split
  · rfl
  · split
    · simp
    · split <;> simp

/-- Reads any form of a number. -/
def decode : Decoder UInt64 := do
  let marker ← Decoder.uint8
  if marker = 0xfd then return UInt64.ofNat (← Decoder.natLE 2)
  else if marker = 0xfe then return UInt64.ofNat (← Decoder.natLE 4)
  else if marker = 0xff then return UInt64.ofNat (← Decoder.natLE 8)
  else return marker.toUInt64

end CompactSize

/-- The greatest length that a byte string or a list may claim. -/
def maxLength : UInt64 := 0x100000000

/-! ## Byte strings and texts -/

namespace Encode

def byteString (bs : Bytes) : Bytes :=
  CompactSize.encode (UInt64.ofNat bs.length) ++ bs

def text (s : String) : Bytes :=
  byteString s.toUTF8.toList

/-- The encodings of the elements, after their number. -/
def list {α : Type} (element : α → Bytes) (as : List α) : Bytes :=
  CompactSize.encode (UInt64.ofNat as.length) ++ as.flatMap element

end Encode

namespace Decoder

/-- Reads `n` bytes that a length announced. -/
def announced (n : Nat) : Decoder Bytes :=
  ⟨fun bs =>
    let field := bs.take n
    if field.length = n then .ok (field, bs.drop n) else .error (.truncated (n - field.length))⟩

def byteString : Decoder Bytes := do
  let length ← CompactSize.decode
  if maxLength < length then fail (.oversizedBytes length) else announced length.toNat

def text : Decoder String := do
  let bs ← byteString
  match String.fromUTF8? ⟨bs.toArray⟩ with
  | some s => return s
  | none => fail .invalidUtf8

/-- Reads as many elements as a compact size says, whatever it says. -/
def counted {α : Type} (element : Decoder α) : Decoder (List α) := do
  let count ← CompactSize.decode
  replicate element count.toNat

/-- Reads as many elements as a compact size says, within the limit. -/
def list {α : Type} (element : Decoder α) : Decoder (List α) := do
  let count ← CompactSize.decode
  if maxLength < count then fail (.oversizedList count) else replicate element count.toNat

end Decoder

instance {α : Type} [Codec α] : Codec (List α) where
  encode := Encode.list Codec.encode
  decode := Decoder.list Codec.decode

/-- A byte string that is an element of a list: its encoding begins with its length. -/
structure VarBytes where
  bytes : Bytes
deriving DecidableEq

instance : Codec VarBytes where
  encode v := Encode.byteString v.bytes
  decode := do return ⟨← Decoder.byteString⟩

end BitcoinPeer
