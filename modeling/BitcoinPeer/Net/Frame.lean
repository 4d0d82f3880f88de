import BitcoinPeer.Message.Catalog
import BitcoinPeer.Net.Network
import BitcoinPeer.Text.Utf8

/-!
# Frames

A message travels in a frame: the network's magic, the command in twelve bytes, the length of the
payload, from version 209 on the first four bytes of its double digest, and the payload. The two
directions have versions of their own.
-/

namespace BitcoinPeer

/-- Why a connection cannot go on. -/
inductive ConnectionError where
  | badMagic
  | badChecksum
  | unknownCommand (command : String)
  | payloadTooLarge (length : UInt32)
  | decode (e : DecodeError)
  | notConnected
  /-- The transport failed, in the words of the system. -/
  | transport (reason : String)
  | timeout (awaited : String)
deriving DecidableEq

namespace ConnectionError

/-- The wording of an error. -/
def message : ConnectionError → String
  | badMagic => "Bad network magic"
  | badChecksum => "Bad frame checksum"
  | unknownCommand command => "Unknown command: '" ++ command ++ "'"
  | payloadTooLarge length => s!"Payload of {length} bytes is too large"
  | decode e => "Decode error: " ++ e.message
  | notConnected => "Not connected"
  | transport reason => "IO error: " ++ reason
  | timeout awaited => "Timed out waiting for " ++ awaited

/-- After an error in the frames themselves nothing that follows can be trusted. -/
def isFraming : ConnectionError → Bool
  | badMagic | badChecksum | unknownCommand _ | payloadTooLarge _ => true
  | _ => false

end ConnectionError

/-- How the frames of one connection are written and read. -/
structure FrameCodec where
  magic : Bytes
  sendVersion : Int32 := initialVersion
  recvVersion : Int32 := initialVersion
  /-- Whether pings are read without a nonce. -/
  legacyPing : Bool := false
deriving DecidableEq

namespace FrameCodec

def ofNetwork (network : Network) : FrameCodec :=
  { magic := network.magic }

/-- The first version with a checksum in its frames. -/
def checksumVersion : Int32 := 209

/-- The largest length of a payload. -/
def maxPayload : Nat := 0x7fffffff

/-- The bytes in front of a payload. -/
def headerLength (version : Int32) : Nat :=
  if checksumVersion ≤ version then 24 else 20

/-- The name in a command field, up to its first zero byte. -/
def commandName (field : Bytes) : String :=
  String.ofList (Utf8.decodeLossy (field.takeWhile (· != 0)))

/-- A command in twelve bytes, filled up with zeros. -/
def commandField (command : String) : Bytes :=
  (command.toUTF8.toList ++ Bytes.zeros 12).take 12

/-- The bytes from `start` on, so many of them. -/
def slice (bs : Bytes) (start length : Nat) : Bytes :=
  (bs.drop start).take length

/-- Reads a message from the front of a buffer, and says what stays in the buffer. Nothing is taken
from it unless it holds a whole frame; a frame that cannot be used is taken nevertheless, unless its
magic or its length is wrong. -/
def decode (c : FrameCodec) (buffer : Bytes) :
    Except ConnectionError (Option Message) × Bytes :=
  let header := headerLength c.recvVersion
  if buffer.length < 4 then (.ok none, buffer)
  else if buffer.take 4 ≠ c.magic then (.error .badMagic, buffer)
  else if buffer.length < header then (.ok none, buffer)
  else
    let length := Bytes.toNatLE (slice buffer 16 4)
    if maxPayload < length then (.error (.payloadTooLarge (UInt32.ofNat length)), buffer)
    else if buffer.length < header + length then (.ok none, buffer)
    else
      let payload := slice buffer header length
      let rest := buffer.drop (header + length)
      if checksumVersion ≤ c.recvVersion ∧ slice buffer 20 4 ≠ Digest.checksum payload then
        (.error .badChecksum, rest)
      else
        let command := commandName (slice buffer 4 12)
        match Message.decodePayload c.legacyPing command payload with
        | .error e => (.error (.decode e), rest)
        | .ok none => (.error (.unknownCommand command), rest)
        | .ok (some message) => (.ok (some message), rest)

/-- The frame of a payload. -/
def frame (c : FrameCodec) (command : String) (payload : Bytes) : Bytes :=
  c.magic ++ commandField command ++ Bytes.ofNatLE 4 payload.length
    ++ (if checksumVersion ≤ c.sendVersion then Digest.checksum payload else []) ++ payload

/-- The frame of a message. -/
def encode (c : FrameCodec) (message : Message) : Except ConnectionError Bytes :=
  let payload := message.encodePayload
  if maxPayload < payload.length then .error (.payloadTooLarge (UInt32.ofNat payload.length))
  else .ok (c.frame message.command payload)

end FrameCodec

end BitcoinPeer
