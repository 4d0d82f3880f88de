import BitcoinPeer.Peer.IpAddress
import BitcoinPeer.Peer.Services

/-!
# Addresses of peers

How peers announce where they are: services, address and port, and in lists of addresses also the
time at which the peer was last seen.
-/

namespace BitcoinPeer

instance : Codec Services where
  encode s := Encode.uint64 s.bits
  decode := do return ⟨← Decoder.uint64⟩

/-- Where a peer is and what it offers. -/
structure PeerAddress where
  services : Services := Services.network
  ip : IpAddress := IpAddress.unspecified
  port : UInt16 := 0
deriving DecidableEq

namespace PeerAddress

/-- The address and the port, without brackets for either family. -/
def toText (a : PeerAddress) : String :=
  a.ip.toText ++ ":" ++ toString a.port

instance : Codec PeerAddress where
  encode a := Codec.encode a.services ++ Codec.encode a.ip ++ Encode.uint16BE a.port
  decode := do
    let services ← Codec.decode
    let ip ← Codec.decode
    let port ← Decoder.uint16BE
    return { services, ip, port }

end PeerAddress

/-- An address with the time, in seconds since the start of 1970, at which the peer was seen. -/
structure SeenAddress where
  time : UInt32
  address : PeerAddress
deriving DecidableEq

instance : Codec SeenAddress where
  encode a := Encode.uint32 a.time ++ Codec.encode a.address
  decode := do
    let time ← Decoder.uint32
    let address ← Codec.decode
    return { time, address }

end BitcoinPeer
