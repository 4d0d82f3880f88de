import BitcoinPeer.Peer.Association

/-!
# Opening streams

One peer asks for another stream in an association, the other one confirms it.
-/

namespace BitcoinPeer

/-- Asks for a stream. -/
structure CreateStream where
  associationId : Option AssociationId
  streamType : UInt8
  streamPolicy : Bytes
deriving DecidableEq

namespace CreateStream

/-- Asks for a stream of a known kind. -/
def new (associationId : AssociationId) (streamType : StreamType) (streamPolicy : Bytes) :
    CreateStream :=
  { associationId := some associationId, streamType := streamType.toUInt8, streamPolicy }

instance : Codec CreateStream where
  encode c := AssociationId.encodeOptional c.associationId ++ Encode.uint8 c.streamType
    ++ Encode.byteString c.streamPolicy
  decode := do
    let associationId ← AssociationId.decodeBlob
    let streamType ← Decoder.uint8
    let streamPolicy ← Decoder.byteString
    return { associationId, streamType, streamPolicy }

end CreateStream

/-- Confirms a stream. -/
structure StreamAck where
  associationId : Option AssociationId
  streamType : UInt8
deriving DecidableEq

instance : Codec StreamAck where
  encode a := AssociationId.encodeOptional a.associationId ++ Encode.uint8 a.streamType
  decode := do
    let associationId ← AssociationId.decodeBlob
    let streamType ← Decoder.uint8
    return { associationId, streamType }

end BitcoinPeer
