import BitcoinPeer.Bytes
import BitcoinPeer.Text.Hex

/-!
# 256-bit values

Hashes and proof-of-work targets. The 32 bytes stand least significant first, which is also their
order on the wire; only the hexadecimal text is written most significant digit first.
-/

namespace BitcoinPeer

/-- A 256-bit value, by its bytes from the least significant on. -/
structure Hash256 where
  octets : Octets 32
deriving DecidableEq

namespace Hash256

/-- The bytes, least significant first. -/
def bytes (h : Hash256) : Bytes :=
  h.octets.bytes

@[simp] theorem length_bytes (h : Hash256) : h.bytes.length = 32 :=
  h.octets.length_bytes

def ofBytes? (bs : Bytes) : Option Hash256 :=
  (Octets.ofBytes? 32 bs).map Hash256.mk

def zero : Hash256 := ⟨Octets.zero 32⟩

instance : Inhabited Hash256 := ⟨zero⟩

def isZero (h : Hash256) : Bool :=
  h.bytes.all (· == 0)

/-- The number that the value stands for. -/
def toNat (h : Hash256) : Nat :=
  Bytes.toNatLE h.bytes

/-- The 64-bit word at a position, counted from the least significant one. -/
def word (h : Hash256) (i : Nat) : UInt64 :=
  UInt64.ofNat (Bytes.toNatLE ((h.bytes.drop (8 * i)).take 8))

/-- Compares byte by byte, from the most significant one on. -/
instance : Ord Hash256 where
  compare a b := compare a.bytes.reverse b.bytes.reverse

instance : LE Hash256 where
  le a b := (compare a b).isLE = true

instance (a b : Hash256) : Decidable (a ≤ b) :=
  inferInstanceAs (Decidable ((compare a b).isLE = true))

/-! ## Text -/

/-- The hexadecimal text, most significant digit first. -/
def toHex (h : Hash256) : String :=
  Hex.encode h.bytes.reverse

instance : ToString Hash256 := ⟨toHex⟩

/-- Reads the hexadecimal text, in either case. -/
def ofHex (text : String) : Except Hex.Error Hash256 := do
  let bs ← Hex.decode text
  match ofBytes? bs.reverse with
  | some h => return h
  | none => throw .wrongLength

/-- The form in which a hash shows itself as part of a larger value. -/
def inspect (h : Hash256) : String :=
  "Hash256(" ++ h.toHex ++ ")"

end Hash256

end BitcoinPeer
