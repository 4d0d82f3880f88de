import BitcoinPeer.Net.Connection

/-!
# Handlers

What is done when a connection opens or closes and when a message arrives. Each handler has a usual
one, which may be replaced.
-/

namespace BitcoinPeer

namespace Connection

/-- Answers a version message: from the initial version on with a confirmation and our
configuration. The version for sending is the lower one of the two sides'; a peer before the
initial version sends no confirmation, so the version for receiving follows at once. -/
def answerVersion (now : Instant) (v : VersionMessage) : Action Unit := do
  if initialVersion ≤ v.version then
    send now .verack false
    send now (.protoconf Protoconf.ours) false
  modify (setSendVersion (if v.version < protocolVersion then v.version else protocolVersion))
  if v.version < initialVersion then
    modify fun c => c.setRecvVersion c.codec.sendVersion
  modify fun c => { c with services := v.services }

/-- The peer has confirmed our version, so it sends by the version agreed on from now on. -/
def answerVerack : Action Unit :=
  modify fun c => c.setRecvVersion c.codec.sendVersion

/-- Answers a ping, if the version agreed on knows an answer. -/
def answerPing (now : Instant) (nonce : Option UInt64) : Action Unit := do
  if legacyPingVersion < (← get).codec.sendVersion then
    send now (.pong (nonce.getD 0)) false

/-- Asks for everything that is announced, entries of the error kind apart. -/
def answerInv (now : Instant) (entries : List Inventory) : Action Unit := do
  let wanted := entries.filter fun entry => entry.invType ≠ .error
  unless wanted.isEmpty do
    send now (.getData wanted) false

end Connection

structure Handlers where
  onOpen : Connection → Connection := id
  onClose : Connection → Connection := id
  onVersion : Instant → VersionMessage → Connection.Action Unit := Connection.answerVersion
  onVerack : Instant → Connection.Action Unit := fun _ => Connection.answerVerack
  onPing : Instant → Option UInt64 → Connection.Action Unit := Connection.answerPing
  onInv : Instant → List Inventory → Connection.Action Unit := Connection.answerInv
  /-- Takes every other message. -/
  onMessage : Instant → Message → Connection.Action Unit := fun _ _ => pure ()

namespace Handlers

/-- The usual handlers. -/
def usual : Handlers := {}

/-- Hands a message to its handler. -/
def dispatch (h : Handlers) (now : Instant) : Message → Connection.Action Unit
  | .version v => h.onVersion now v
  | .verack => h.onVerack now
  | .ping nonce => h.onPing now nonce
  | .inv entries => h.onInv now entries
  | m => h.onMessage now m

end Handlers

end BitcoinPeer
