import BitcoinPeer.Codec.CompactSize

/-!
# Varints

Numbers in digits of seven bits, most significant first. All digits but the last carry a
continuation bit, and one is subtracted from what is left before each further digit is taken off,
so that every number has one form only.
-/

namespace BitcoinPeer.Varint

/-- The digits in front of those already written, of which `last` says whether the next one is the
last of all. -/
def encodeOnto (last : Bool) (n : Nat) (written : Bytes) : Bytes :=
  let digit := UInt8.ofNat (n % 128 + if last then 0 else 128)
  if n < 128 then digit :: written
  else encodeOnto false (n / 128 - 1) (digit :: written)
termination_by n
decreasing_by omega

def encode (n : UInt64) : Bytes :=
  encodeOnto true n.toNat []

/-- Reads on from the value of the digits so far. A digit is read before it is found that there is
no room for it. -/
def decodeFrom (value : Nat) : Bytes → Except DecodeError (UInt64 × Bytes)
  | [] => .error (.truncated 1)
  | b :: rest =>
    if UInt64.size / 128 ≤ value then .error .varintOverflow
    else
      let value := value * 128 + b.toNat % 128
      if b < 128 then .ok (UInt64.ofNat value, rest)
      else if UInt64.size ≤ value + 1 then .error .varintOverflow
      else decodeFrom (value + 1) rest

def decode : Decoder UInt64 :=
  ⟨decodeFrom 0⟩

end BitcoinPeer.Varint

namespace BitcoinPeer

/-- The varints of the elements, after the varint of their number. -/
def Encode.varints (ns : List UInt64) : Bytes :=
  Varint.encode (UInt64.ofNat ns.length) ++ ns.flatMap Varint.encode

/-- Reads as many varints as a varint says. -/
def Decoder.varints : Decoder (List UInt64) := do
  let count ← Varint.decode
  replicate Varint.decode count.toNat

end BitcoinPeer
