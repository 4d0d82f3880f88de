import BitcoinPeer.Net.Registry

/-!
# A peer in memory

A registry with one session whose peer is in memory: what the peer sends waits until the session
reads it, and what the session sends is kept in order. The transport takes everything at once and
never fails.
-/

namespace BitcoinPeer

/-- Cuts bytes into pieces of a size; the last one may be shorter. -/
def pieces (size : Nat) (bs : Bytes) : List Bytes :=
  if bs.isEmpty then []
  else if size = 0 then [bs]
  else bs.take size :: pieces size (bs.drop size)
termination_by bs.length
decreasing_by
  have : bs.length ≠ 0 := by simpa [List.isEmpty_iff] using ‹¬bs.isEmpty = true›
  simp only [List.length_drop]
  omega

structure Loopback where
  registry : Registry
  handle : SessionHandle
  /-- What the peer sent and the session has not read. -/
  unread : Bytes := []
  /-- What reached the peer. -/
  received : Bytes := []
  /-- Whether the peer closed its side. -/
  hungUp : Bool := false

/-- A session of which nothing has happened. -/
def Session.unopened : Session :=
  { conn := {
      peer := { ip := .unspecified, port := 0 }
      network := .regtest
      codec := FrameCodec.ofNetwork .regtest
      maxInvElements := 0 } }

namespace Loopback

/-- The session; one that was never opened if the registry does not know the handle. -/
def session (l : Loopback) : Session :=
  (l.registry.session? l.handle.id).getD Session.unopened

/-- Whether the loop still polls the session. -/
def isPolled (l : Loopback) : Bool :=
  !l.registry.stopped && l.registry.active.contains l.handle.id

/-- Changes the session. -/
def update (f : Session → Session) (l : Loopback) : Loopback :=
  { l with registry := l.registry.update l.handle.id f }

/-! ## What the peer does -/

def peerSend (bs : Bytes) (l : Loopback) : Loopback :=
  { l with unread := l.unread ++ bs }

def peerClose (l : Loopback) : Loopback :=
  { l with hungUp := true }

/-! ## The loop -/

/-- What the transport gives in one pass: everything the peer sent, and the end of the stream if
the peer closed its side. -/
def reads (l : Loopback) : List ReadOutcome :=
  (pieces l.registry.readBufferSize l.unread).map .received
    ++ [if l.hungUp then .endOfStream else .blocked]

/-- One iteration of the loop. A session that is to be disconnected neither sends nor reads. -/
def poll (now : Instant) (l : Loopback) : Loopback :=
  if !l.isPolled then l
  else
    let conn := l.session.conn
    let registry := l.registry.pollOnce now fun _ => ⟨.accepted conn.sendBuffer.length, l.reads⟩
    if conn.wantsDisconnect then { l with registry }
    else { l with registry, received := l.received ++ conn.sendBuffer, unread := [] }

/-- Iterates until there is nothing to do: the first iteration reads, the second one sends the
answers, the third one meets the end of the stream at the latest. -/
def settle (now : Instant) (l : Loopback) : Loopback :=
  ((l.poll now).poll now).poll now

def stop (l : Loopback) : Loopback :=
  { l with registry := l.registry.stop }

/-! ## What the holder of the handle does -/

def send (now : Instant) (message : Message) (l : Loopback) :
    Except ConnectionError Unit × Loopback :=
  let (result, s) := l.session.act (Connection.send now message false)
  (result, l.update fun _ => s)

def disconnect (l : Loopback) : Loopback :=
  l.update Session.disconnect

def clearMessages (l : Loopback) : Loopback :=
  l.update fun s => { s with tracker := s.tracker.clear }

/-- Looks once for what is waited for. -/
def await (awaited : Session.Awaited) (l : Loopback) : Except ConnectionError Unit × Loopback :=
  (l.session.checkFor awaited, l)

/-- Pings the peer and looks for the answer at once. -/
def ping (now : Instant) (l : Loopback) : Except ConnectionError Unit × Loopback :=
  let (sent, s) := l.session.sendPing now l.handle
  let l := l.update fun _ => s
  match sent with
  | .error e => (.error e, l)
  | .ok () =>
    let (result, handle) := l.handle.afterPong l.session
    (result, { l with handle })

end Loopback

end BitcoinPeer
