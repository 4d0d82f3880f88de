import BitcoinPeer.Bytes

/-!
# Flag bits

Flags are packed into bytes, the first flag of each byte in its least significant bit; the last
byte is filled up with zeros.
-/

namespace BitcoinPeer.Merkle

/-- The bits of one byte, least significant first. -/
def byteBits (b : UInt8) : List Bool :=
  (List.range 8).map fun i => b.toNat.testBit i

/-- The flags that the bytes hold. -/
def unpackFlags (bs : Bytes) : List Bool :=
  bs.flatMap byteBits

/-- The number whose binary digits these are, least significant first. -/
def bitsValue : List Bool → Nat
  | [] => 0
  | b :: bs => (if b then 1 else 0) + 2 * bitsValue bs

/-- The bytes that hold the flags. -/
def packFlags : List Bool → Bytes
  | [] => []
  | b :: bs => UInt8.ofNat (bitsValue (b :: bs.take 7)) :: packFlags (bs.drop 7)
termination_by bits => bits.length
decreasing_by
  simp only [List.length_drop, List.length_cons]
  omega

end BitcoinPeer.Merkle
