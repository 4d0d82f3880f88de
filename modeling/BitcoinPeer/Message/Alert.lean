import BitcoinPeer.Codec.CompactSize

/-!
# Alerts

A signed envelope around an encoded alert.
-/

namespace BitcoinPeer

/-- The alert itself. -/
structure UnsignedAlert where
  version : Int32 := 1
  relayUntil : Int64 := 0
  expiration : Int64 := 0
  id : Int32 := 0
  cancel : Int32 := 0
  setCancel : List Int32 := []
  minVersion : Int32 := 0
  maxVersion : Int32 := 0
  setSubVersion : List VarBytes := []
  priority : Int32 := 0
  comment : Bytes := []
  statusBar : Bytes := []
  reserved : Bytes := []
deriving DecidableEq

instance : Codec UnsignedAlert where
  encode a := Encode.int32 a.version ++ Encode.int64 a.relayUntil ++ Encode.int64 a.expiration
    ++ Encode.int32 a.id ++ Encode.int32 a.cancel ++ Codec.encode a.setCancel
    ++ Encode.int32 a.minVersion ++ Encode.int32 a.maxVersion ++ Codec.encode a.setSubVersion
    ++ Encode.int32 a.priority ++ Encode.byteString a.comment ++ Encode.byteString a.statusBar
    ++ Encode.byteString a.reserved
  decode := do
    let version ← Decoder.int32
    let relayUntil ← Decoder.int64
    let expiration ← Decoder.int64
    let id ← Decoder.int32
    let cancel ← Decoder.int32
    let setCancel ← Codec.decode
    let minVersion ← Decoder.int32
    let maxVersion ← Decoder.int32
    let setSubVersion ← Codec.decode
    let priority ← Decoder.int32
    let comment ← Decoder.byteString
    let statusBar ← Decoder.byteString
    let reserved ← Decoder.byteString
    return {
      version, relayUntil, expiration, id, cancel, setCancel, minVersion, maxVersion,
      setSubVersion, priority, comment, statusBar, reserved }

/-- The envelope: an encoded alert and its signature. -/
structure Alert where
  message : Bytes := []
  signature : Bytes := []
deriving DecidableEq

instance : Codec Alert where
  encode a := Encode.byteString a.message ++ Encode.byteString a.signature
  decode := do
    let message ← Decoder.byteString
    let signature ← Decoder.byteString
    return { message, signature }

/-- The alert in the envelope. -/
def Alert.unsigned (a : Alert) : Except DecodeError UnsignedAlert :=
  Codec.decode.front a.message

end BitcoinPeer
