import BitcoinPeer.Codec.Varint
import BitcoinPeer.Peer.IpAddress

/-!
# Callback descriptors

Where a notifier of double spends is to call back, and which inputs it is to watch. The version
decides whether all addresses take four bytes or sixteen.
-/

namespace BitcoinPeer

structure CallbackDescriptor where
  version : UInt8 := 1
  addresses : List IpAddress := [.v4 ⟨[127, 0, 0, 1], rfl⟩]
  inputs : List UInt64 := [0]
deriving DecidableEq

namespace CallbackDescriptor

/-- The version in which addresses take sixteen bytes. -/
def wideVersion : UInt8 := 129

/-- The bytes of an address; in four bytes, an address of the newer family is the one it maps, or
all zero. -/
def addressBytes (version : UInt8) (ip : IpAddress) : Bytes :=
  if version = wideVersion then ip.toOctets16.bytes
  else
    match ip with
    | .v4 octets => octets.bytes
    | .v6 octets => ((IpAddress.ofMapped? octets).getD (Octets.zero 4)).bytes

/-- Reads an address; one of sixteen bytes is of the newer family even if it is mapped. -/
def decodeAddress (version : UInt8) : Decoder IpAddress :=
  if version = wideVersion then do return .v6 (← Decoder.octets 16)
  else do return .v4 (← Decoder.octets 4)

instance : Codec CallbackDescriptor where
  encode c := Encode.uint8 c.version ++ Encode.list (addressBytes c.version) c.addresses
    ++ Encode.varints c.inputs
  decode := do
    let version ← Decoder.uint8
    let addresses ← Decoder.counted (decodeAddress version)
    let inputs ← Decoder.varints
    return { version, addresses, inputs }

end CallbackDescriptor

end BitcoinPeer
