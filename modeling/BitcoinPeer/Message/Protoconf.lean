import BitcoinPeer.Codec.CompactSize

/-!
# Protocol configuration

What a peer announces after the handshake. Its number of fields says which of them follow: the
stream policies are only there if it exceeds one.
-/

namespace BitcoinPeer

/-- The largest payload that is announced as acceptable. -/
def maxReceivedPayload : UInt32 := 2 * 1024 * 1024

structure Protoconf where
  numberOfFields : UInt64 := 2
  maxReceivedPayload : UInt32 := BitcoinPeer.maxReceivedPayload
  streamPolicies : Bytes := "Default".toUTF8.toList
deriving DecidableEq

namespace Protoconf

/-- What this node announces. -/
def ours : Protoconf :=
  { streamPolicies := "BlockPriority,Default".toUTF8.toList }

instance : Codec Protoconf where
  encode p := CompactSize.encode p.numberOfFields ++ Encode.uint32 p.maxReceivedPayload
    ++ (if 1 < p.numberOfFields then Encode.byteString p.streamPolicies else [])
  decode := do
    let numberOfFields ← CompactSize.decode
    let maxReceivedPayload ← Decoder.uint32
    let streamPolicies ← if 1 < numberOfFields then Decoder.byteString else pure []
    return { numberOfFields, maxReceivedPayload, streamPolicies }

end Protoconf

end BitcoinPeer
