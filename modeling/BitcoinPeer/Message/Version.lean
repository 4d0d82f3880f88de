import BitcoinPeer.Chain.Block
import BitcoinPeer.Peer.Address
import BitcoinPeer.Peer.Association
import BitcoinPeer.Text.Inspect

/-!
# The version message

The announcement that opens a connection. Its own version says which fields it has: the sender's
address, a nonce and a user agent from 106 on, the start height from 209 on, and from 70001 on a
relay flag and an association id, which may be missing even then.
-/

namespace BitcoinPeer

/-! ## Protocol versions -/

/-- The first version with the sender's address, a nonce and a user agent. -/
def senderVersion : Int32 := 106

/-- The version at which every connection starts, and the first with a start height. -/
def initialVersion : Int32 := 209

/-- The last version in which pings have no nonce. -/
def legacyPingVersion : Int32 := 60000

/-- The first version with a relay flag. -/
def relayVersion : Int32 := 70001

/-- The user agent that is announced. -/
def userAgentText : String := "/Bitcoin SV:1.0.7/"

structure VersionMessage where
  version : Int32
  services : Services
  /-- Seconds since the start of 1970. -/
  time : Int64
  receiver : PeerAddress
  sender : Option PeerAddress := none
  nonce : Option UInt64 := none
  userAgent : Option String := none
  startHeight : Option Int32 := none
  relay : Bool := false
  associationId : Option AssociationId := none
deriving DecidableEq

namespace VersionMessage

/-- Some nodes announce version 300 by this number. -/
def misspelled300 : Int32 := 10300

/-- The version that an announced number means. -/
def meaning (version : Int32) : Int32 :=
  if version = misspelled300 then 300 else version

/-- Reads the relay flag and the association id, as far as they are there. Bytes that are no
association id count as none. A field that is cut short uses up all bytes; one that claims too many
leaves those after its length. -/
def trailingFields : Bytes → (Bool × Option AssociationId) × Bytes
  | [] => ((false, none), [])
  | b :: bs =>
    match AssociationId.decodeBlob.run bs with
    | .ok (id, rest) => ((b != 0, id), rest)
    | .error (.oversizedBytes _) =>
      ((b != 0, none), (CompactSize.decode.run bs).toOption.elim [] Prod.snd)
    | .error _ => ((b != 0, none), [])

/-- Reads the fields in front of those that may be missing. -/
def decodeMandatory : Decoder VersionMessage := do
  let version := meaning (← Decoder.int32)
  let services ← Codec.decode
  let time ← Decoder.int64
  let receiver ← Codec.decode
  let m : VersionMessage := { version, services, time, receiver }
  let m ←
    if senderVersion ≤ version then do
      let sender ← Codec.decode
      let nonce ← Decoder.uint64
      let userAgent ← Decoder.text
      pure { m with sender := some sender, nonce := some nonce, userAgent := some userAgent }
    else pure m
  if initialVersion ≤ version then do
    let startHeight ← Decoder.int32
    return { m with startHeight := some startHeight }
  else return m

/-- Writes the fields in front of those that may be missing. A field that the version calls for
and that is absent is written as its default. -/
def encodeMandatory (m : VersionMessage) : Bytes :=
  Encode.int32 m.version ++ Codec.encode m.services ++ Encode.int64 m.time
    ++ Codec.encode m.receiver
    ++ (if senderVersion ≤ m.version then
          Codec.encode (m.sender.getD {}) ++ Encode.uint64 (m.nonce.getD 0)
            ++ Encode.text (m.userAgent.getD "")
        else [])
    ++ (if initialVersion ≤ m.version then Encode.int32 (m.startHeight.getD (-1)) else [])

instance : Codec VersionMessage where
  encode m := m.encodeMandatory
    ++ (if relayVersion ≤ m.version then
          Encode.bool m.relay ++ AssociationId.encodeOptional m.associationId
        else [])
  decode := do
    let m ← decodeMandatory
    if relayVersion ≤ m.version then
      let (relay, associationId) ← ⟨fun bs => .ok (trailingFields bs)⟩
      return { m with relay, associationId }
    else return m

/-- The form in which the message is logged. -/
def toText (m : VersionMessage) : String :=
  let userAgent := Inspect.optional Text.quote m.userAgent
  let startHeight := Inspect.optional (fun h : Int32 => toString h.toInt) m.startHeight
  let associationId := Inspect.optional AssociationId.inspect m.associationId
  "msg_version(" ++ " ".intercalate
    ["version=" ++ toString m.version.toInt, "services=" ++ toString m.services.bits,
      "time=" ++ toString m.time.toInt, "addr_to=" ++ m.receiver.toText,
      "user_agent=" ++ userAgent, "start_height=" ++ startHeight,
      "relay=" ++ toString m.relay, "assoc_id=" ++ associationId] ++ ")"

end VersionMessage

end BitcoinPeer
