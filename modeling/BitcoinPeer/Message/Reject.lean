import BitcoinPeer.Chain.Transaction

/-!
# Rejections
-/

namespace BitcoinPeer

structure Reject where
  /-- The command of the rejected message. -/
  message : String
  code : UInt8
  reason : String
  /-- The hash of the rejected object, zero if it is not carried. -/
  data : Hash256
deriving DecidableEq

namespace Reject

/-- The code of a message that could not be read. -/
def malformed : UInt8 := 1

/-- Whether the hash is carried: only for blocks and transactions that could be read. -/
def carriesHash (message : String) (code : UInt8) : Bool :=
  code != malformed && (message == "block" || message == "tx")

instance : Codec Reject where
  encode r := Encode.text r.message ++ Encode.uint8 r.code ++ Encode.text r.reason
    ++ (if carriesHash r.message r.code then Codec.encode r.data else [])
  decode := do
    let message ← Decoder.text
    let code ← Decoder.uint8
    let reason ← Decoder.text
    let data ← if carriesHash message code then Codec.decode else pure Hash256.zero
    return { message, code, reason, data }

/-- The form in which the message is logged. -/
def toText (r : Reject) : String :=
  "msg_reject: " ++ r.message ++ " " ++ toString r.code ++ " " ++ r.reason
    ++ " [" ++ r.data.toHex ++ "]"

end Reject

end BitcoinPeer
