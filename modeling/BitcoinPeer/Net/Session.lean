import BitcoinPeer.Net.Handlers
import BitcoinPeer.Net.Tracker

/-!
# Sessions

A connection with its handlers and the record of what it received. A pass of a session sends what
the transport takes, and then reads what the transport gives, handling every whole message.
-/

namespace BitcoinPeer

/-- A call of a handler. -/
inductive HandlerCall where
  | opened
  | message (m : Message)
  | closed
deriving DecidableEq

structure Session where
  conn : Connection
  tracker : Tracker := {}
  handlers : Handlers := Handlers.usual
  /-- The calls of handlers so far, the oldest first. -/
  calls : List HandlerCall := []

/-- What the transport does with the bytes that are waiting. -/
inductive WriteOutcome where
  | accepted (n : Nat)
  | blocked
  | failed (reason : String)

/-- What the transport gives when asked for bytes. -/
inductive ReadOutcome where
  | received (bs : Bytes)
  | endOfStream
  | blocked
  | failed (reason : String)

/-- What the transport does in one pass; when its reads are used up, it is blocked. -/
structure SocketPass where
  write : WriteOutcome
  reads : List ReadOutcome

namespace Session

/-- Runs an action on the connection. -/
def act {α : Type} (action : Connection.Action α) (s : Session) :
    Except ConnectionError α × Session :=
  match action.run s.conn with
  | .ok a conn => (.ok a, { s with conn })
  | .error e conn => (.error e, { s with conn })

def opened (s : Session) : Session :=
  { s with
    tracker := { s.tracker with connected := true }
    conn := s.handlers.onOpen s.conn
    calls := s.calls ++ [.opened] }

def closed (s : Session) : Session :=
  { s with
    conn := s.handlers.onClose s.conn.handleClose
    tracker := { s.tracker with connected := false }
    calls := s.calls ++ [.closed] }

/-- Takes note of a message and hands it to its handler. -/
def deliver (now : Instant) (message : Message) (s : Session) :
    Except ConnectionError Unit × Session :=
  match s.act (Connection.gotMessage now message) with
  | (.error e, s) => (.error e, s)
  | (.ok (), s) =>
    let s := { s with
      tracker := s.tracker.record now message
      calls := s.calls ++ [HandlerCall.message message] }
    s.act (s.handlers.dispatch now message)

/-- Handles every whole message in the receive buffer, up to the first error. -/
def processReceived (now : Instant) (s : Session) : Except ConnectionError Unit × Session :=
  match s.act Connection.nextMessage with
  | (.error e, s) => (.error e, s)
  | (.ok none, s) => (.ok (), s)
  | (.ok (some message), t) =>
    match deliver now message t with
    | (.error e, t) => (.error e, t)
    | (.ok (), t) =>
      if t.conn.receiveBuffer.length < s.conn.receiveBuffer.length then processReceived now t
      else (.ok (), t)
termination_by s.conn.receiveBuffer.length

/-- Receives bytes and handles every message that they complete. -/
def feed (now : Instant) (bs : Bytes) (s : Session) : Except ConnectionError Unit × Session :=
  { s with conn := s.conn.receive bs }.processReceived now

/-- The end of the stream, as the transport reports it. -/
def endOfStream : ConnectionError :=
  .transport "unexpected end of file"

/-- Reads until the transport is blocked or gives fewer bytes than were asked for. -/
def readAll (now : Instant) (bufferSize : Nat) : List ReadOutcome → Session →
    Except ConnectionError Unit × Session
  | [], s => (.ok (), s)
  | .blocked :: _, s => (.ok (), s)
  | .endOfStream :: _, s => (.error endOfStream, s)
  | .failed reason :: _, s => (.error (.transport reason), s)
  | .received bs :: more, s =>
    if bs.isEmpty then (.error endOfStream, s)
    else
      match s.feed now bs with
      | (.error e, s) => (.error e, s)
      | (.ok (), s) => if bs.length < bufferSize then (.ok (), s) else readAll now bufferSize more s

/-- The first pass opens the session. -/
def ensureOpen (s : Session) : Session :=
  match s.conn.handleConnect with
  | (true, conn) => { s with conn }.opened
  | (false, conn) => { s with conn }

/-- Offers the waiting bytes to the transport. -/
def writePending (outcome : WriteOutcome) (s : Session) : Except ConnectionError Unit × Session :=
  if s.conn.sendBuffer.isEmpty then (.ok (), s)
  else
    match outcome with
    | .accepted n => (.ok (), { s with conn := s.conn.consume n })
    | .blocked => (.ok (), s)
    | .failed reason => (.error (.transport reason), s)

/-- One pass: opens the session if need be, writes, and reads. -/
def service (now : Instant) (bufferSize : Nat) (pass : SocketPass) (s : Session) :
    Except ConnectionError Unit × Session :=
  match s.ensureOpen.writePending pass.write with
  | (.error e, s) => (.error e, s)
  | (.ok (), s) => s.readAll now bufferSize pass.reads

/-- One turn of the loop for a session: it is closed if it is to be disconnected, and else serviced
and closed if that fails. Says whether the loop goes on with it. -/
def turn (now : Instant) (bufferSize : Nat) (pass : SocketPass) (s : Session) : Bool × Session :=
  if s.conn.wantsDisconnect then (false, s.closed)
  else
    match s.service now bufferSize pass with
    | (.ok (), s) => (true, s)
    | (.error _, s) => (false, s.closed)

end Session

end BitcoinPeer
