import BitcoinPeer.Hash256

/-!
# Proof-of-work targets

The compact form of a target is a mantissa of 23 bits, a sign bit, and an exponent that says how
many bytes the whole number has.
-/

namespace BitcoinPeer

/-- The target of a compact form: the three bytes of the mantissa end at the byte that the exponent
names, and bytes below the lowest one are dropped. There is none for a negative number, nor for one
that does not fit 32 bytes. -/
def targetOfBits (bits : UInt32) : Option Hash256 :=
  let exponent := (bits >>> 24).toNat
  let mantissa := (bits &&& 0x007fffff).toNat
  if mantissa ≠ 0 ∧ bits &&& 0x00800000 ≠ 0 then none
  else
    let digits := (Bytes.zeros exponent ++ Bytes.ofNatLE 3 mantissa).drop 3
    if (digits.drop 32).all (· == 0) then
      Hash256.ofBytes? ((digits ++ Bytes.zeros 32).take 32)
    else none

end BitcoinPeer
