import BitcoinPeer.Message.Text
import BitcoinPeer.Net.Config
import BitcoinPeer.Net.Frame

/-!
# Connections

The state of one connection to a peer: what is waiting to be sent, what has been received and not
yet read, and what the two sides agreed on. Operations that may fail keep what they did before they
failed, so they answer with a result and a state.
-/

namespace BitcoinPeer

/-- A point in time, in milliseconds. -/
abbrev Instant := Nat

/-- How long a connection may be silent before a ping is sent ahead of the next message. -/
def keepaliveInterval : Nat := 30 * 60 * 1000

inductive ConnectionState where
  | connecting
  | connected
  | closed
deriving DecidableEq

def ConnectionState.name : ConnectionState → String
  | connecting => "Connecting"
  | connected => "Connected"
  | closed => "Closed"

/-- What a connection reports of its work. -/
inductive LogEntry where
  | sending (message : Message)
  | received (message : Message)
  | unknownCommand (command : String)
  /-- The opening version message could not be queued. -/
  | versionNotQueued (reason : ConnectionError)
deriving DecidableEq

structure Connection where
  peer : SocketAddress
  network : Network
  state : ConnectionState := .connecting
  codec : FrameCodec
  sendBuffer : Bytes := []
  receiveBuffer : Bytes := []
  lastSent : Option Instant := none
  wantsDisconnect : Bool := false
  /-- The services that the peer announced. -/
  services : Services := Services.empty
  maxInvElements : Nat
  userAgent : Option String := none
  associationId : Option AssociationId := none
  /-- Everything reported so far, the oldest first. -/
  log : List LogEntry := []
deriving DecidableEq

/-- Something done to a connection that may fail. -/
abbrev Connection.Action (α : Type) := EStateM ConnectionError Connection α

/-- What makes our own version message unlike any other. -/
structure Freshness where
  time : Int64
  nonce : UInt64
  associationId : AssociationId

/-- Made from bytes that nobody can guess. -/
def Freshness.ofRandom (time : Int64) (nonce : Octets 8) (id : Octets 16) : Freshness :=
  { time, nonce := UInt64.ofNat (Bytes.toNatLE nonce.bytes), associationId := .random id }

/-- The payload that a peer is taken to accept before it says otherwise. -/
def legacyMaxPayload : Nat := 1024 * 1024

namespace VersionMessage

/-- Our own announcement to a peer. -/
def announcing (receiver : PeerAddress) (fresh : Freshness) : VersionMessage where
  version := protocolVersion
  services := Services.network
  time := fresh.time
  receiver
  sender := some {}
  nonce := some fresh.nonce
  userAgent := some userAgentText
  startHeight := some (-1)
  relay := true
  associationId := some fresh.associationId

/-- Our own announcement under the given settings. -/
def configured (c : ConnectionConfig) (peer : SocketAddress) (fresh : Freshness) :
    VersionMessage :=
  { announcing { ip := peer.ip, port := peer.port } fresh with
    services := c.services
    startHeight := some c.startHeight
    userAgent := c.userAgent.orElse fun _ => some userAgentText
    associationId := if c.nullAssociationId then none else some fresh.associationId }

end VersionMessage

namespace Connection

def isConnected (c : Connection) : Bool :=
  c.state = .connected

/-! ## Sending -/

/-- Puts the frame of a message into the send buffer. Only a connected peer takes messages, unless
`beforeConnect` is set. -/
def send (now : Instant) (message : Message) (beforeConnect : Bool) : Action Unit := do
  if (← get).state ≠ .connected ∧ ¬beforeConnect then throw .notConnected
  modify fun c => { c with log := c.log ++ [.sending message] }
  match (← get).codec.encode message with
  | .error e => throw e
  | .ok frame =>
    modify fun c => { c with sendBuffer := c.sendBuffer ++ frame, lastSent := some now }

/-- Whether there is something for the transport to do. -/
def isWritable (c : Connection) : Bool :=
  c.state = .connecting || !c.sendBuffer.isEmpty

/-- Drops the bytes that the transport took. -/
def consume (n : Nat) (c : Connection) : Connection :=
  { c with sendBuffer := c.sendBuffer.drop n }

/-! ## Opening and closing -/

/-- A new connection. Our version message is queued at once, unless the settings forbid it or name
an association to join. -/
def new (peer : SocketAddress) (config : ConnectionConfig) (fresh : Freshness) (now : Instant) :
    Connection :=
  let c : Connection := {
    peer
    network := config.network
    codec := FrameCodec.ofNetwork config.network
    maxInvElements := Inventory.maxElements legacyMaxPayload
    userAgent := config.userAgent
    associationId := config.associationId }
  if config.sendVersion ∧ config.associationId = none then
    let version := VersionMessage.configured config peer fresh
    match (send now (.version version) true).run { c with associationId := version.associationId }
    with
    | .ok _ c => c
    | .error e c => { c with log := c.log ++ [.versionNotQueued e] }
  else c

/-- The transport is ready for the first time. Says whether this made the connection connected. -/
def handleConnect (c : Connection) : Bool × Connection :=
  if c.state = .connecting then (true, { c with state := .connected }) else (false, c)

/-- Drops what is buffered; nothing leads out of the closed state. -/
def handleClose (c : Connection) : Connection :=
  { c with state := .closed, sendBuffer := [], receiveBuffer := [] }

/-- Asks for the connection to be closed. -/
def disconnect (c : Connection) : Connection :=
  { c with wantsDisconnect := true }

/-! ## Receiving -/

def receive (bs : Bytes) (c : Connection) : Connection :=
  { c with receiveBuffer := c.receiveBuffer ++ bs }

/-- Reads the next whole message from the receive buffer, if there is one. -/
def nextMessage : Action (Option Message) := do
  let c ← get
  let (result, receiveBuffer) := c.codec.decode c.receiveBuffer
  modify fun c => { c with receiveBuffer }
  match result with
  | .ok message => return message
  | .error e =>
    if let .unknownCommand command := e then
      modify fun c => { c with log := c.log ++ [.unknownCommand command] }
    throw e

/-- Whether a ping is due, because nothing was ever sent or the last time is too long ago. -/
def keepaliveDue (now : Instant) (c : Connection) : Bool :=
  match c.lastSent with
  | none => true
  | some sent => keepaliveInterval < now - sent

/-- What is done with a message before it is handled: a peer that knows no ping nonces is noted,
and a ping is sent if one is due. -/
def gotMessage (now : Instant) (message : Message) : Action Unit := do
  if let .version v := message then
    if v.version ≤ legacyPingVersion then
      modify fun c => { c with codec := { c.codec with legacyPing := true } }
  let c ← get
  if c.keepaliveDue now then
    send now (.ping (if c.codec.legacyPing then none else some 0)) false
  modify fun c => { c with log := c.log ++ [.received message] }

/-! ## The wire versions -/

def setSendVersion (version : Int32) (c : Connection) : Connection :=
  { c with codec := { c.codec with sendVersion := version } }

def setRecvVersion (version : Int32) (c : Connection) : Connection :=
  { c with codec := { c.codec with recvVersion := version } }

end Connection

/-! ## The log as text -/

namespace LogEntry

/-- The most bytes of a message's text that are logged. -/
def textLimit : Nat := 500

/-- The longest run of characters at the front that takes no more than the given number of bytes. -/
def takeBytes : Nat → List Char → List Char
  | _, [] => []
  | limit, c :: cs =>
    if c.utf8Size ≤ limit then c :: takeBytes (limit - c.utf8Size) cs else []

/-- The text of a message, cut at the limit. -/
def messageText (m : Message) : String :=
  let text := m.toText
  if text.utf8ByteSize ≤ textLimit then text
  else String.ofList (takeBytes textLimit text.toList) ++ "... (msg truncated)"

/-- The line of an entry, with its level in front. -/
def toText (peer : SocketAddress) : LogEntry → String
  | sending m => "DEBUG Send message to " ++ peer.toText ++ ": " ++ messageText m
  | received m => "DEBUG Received message from " ++ peer.toText ++ ": " ++ messageText m
  | unknownCommand command =>
    "WARN Received unknown command from " ++ peer.toText ++ ": '" ++ command ++ "'"
  | versionNotQueued reason =>
    "WARN Failed to queue version for " ++ peer.toText ++ ": " ++ reason.message

end LogEntry

end BitcoinPeer
