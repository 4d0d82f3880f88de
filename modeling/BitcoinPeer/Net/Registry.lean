import BitcoinPeer.Net.Session

/-!
# The registry and its handles

The registry keeps every session that was registered, and which of them are active: those it goes
on polling. Callers hold a handle on a session, through which they send, wait and disconnect.
-/

namespace BitcoinPeer

/-- How many bytes are asked for at once, if nothing else is set. -/
def usualReadBufferSize : Nat := 8192

structure Registry where
  readBufferSize : Nat := usualReadBufferSize
  /-- Every session by its id, the newest first. -/
  sessions : List (Nat × Session) := []
  /-- The ids of the sessions that are polled. -/
  active : List Nat := []
  nextId : Nat := 0
  stopped : Bool := false

namespace Registry

def session? (r : Registry) (id : Nat) : Option Session :=
  r.sessions.lookup id

/-- Changes one session. -/
def update (r : Registry) (id : Nat) (f : Session → Session) : Registry :=
  { r with sessions := r.sessions.map fun (i, s) => (i, if i = id then f s else s) }

/-- Adds a session and makes it active. -/
def register (s : Session) (r : Registry) : Nat × Registry :=
  (r.nextId,
    { r with
      sessions := (r.nextId, s) :: r.sessions
      active := r.nextId :: r.active
      nextId := r.nextId + 1 })

/-- Opens a connection to a peer, unless the transport could not reach it. -/
def connect (reached : Except String Unit) (peer : SocketAddress) (config : ConnectionConfig)
    (handlers : Handlers) (fresh : Freshness) (now : Instant) (r : Registry) :
    Except ConnectionError (Nat × Registry) :=
  match reached with
  | .error reason => .error (.transport reason)
  | .ok () =>
    .ok (r.register { conn := Connection.new peer config fresh now, handlers })

def connectionCount (r : Registry) : Nat :=
  r.active.length

def stop (r : Registry) : Registry :=
  { r with stopped := true }

/-- One iteration of the loop: every active session has its turn, and stays active if the loop goes
on with it. -/
def pollOnce (now : Instant) (pass : Nat → SocketPass) (r : Registry) : Registry :=
  let turns := r.active.filterMap fun id =>
    (r.session? id).map fun s => (id, s.turn now r.readBufferSize (pass id))
  { r with
    sessions := r.sessions.map fun (id, s) => (id, ((turns.lookup id).map Prod.snd).getD s)
    active := (turns.filter fun t => t.2.1).map Prod.fst }

end Registry

/-- A caller's hold on a session. -/
structure SessionHandle where
  id : Nat
  /-- The nonce of the next ping that is waited for. -/
  pingCounter : UInt64 := 1

namespace Session

/-- What a caller can wait for. -/
inductive Awaited where
  | verack
  | disconnect
  | pong (nonce : UInt64)

def Awaited.label : Awaited → String
  | verack => "verack"
  | disconnect => "disconnect"
  | pong _ => "pong"

/-- Whether what is waited for has come. -/
def has (s : Session) : Awaited → Bool
  | .verack => s.tracker.verackReceived
  | .disconnect => s.conn.state = .closed
  | .pong nonce => s.tracker.lastPong? = some nonce

/-- The outcome of waiting until the time is up, in which state the session is then. -/
def checkFor (s : Session) (awaited : Awaited) : Except ConnectionError Unit :=
  if s.has awaited then .ok () else .error (.timeout awaited.label)

/-- Queues the ping of a handle. -/
def sendPing (now : Instant) (handle : SessionHandle) (s : Session) :
    Except ConnectionError Unit × Session :=
  s.act (Connection.send now (.ping (some handle.pingCounter)) false)

/-- Asks for the session to be closed. -/
def disconnect (s : Session) : Session :=
  { s with conn := s.conn.disconnect }

end Session

namespace Registry

/-- Looks at a session for what is awaited. -/
def check (id : Nat) (awaited : Session.Awaited) (r : Registry) : Except ConnectionError Unit :=
  match r.session? id with
  | some s => s.checkFor awaited
  | none => .error .notConnected

/-- Does something with a session that may fail. -/
def act {α : Type} (id : Nat) (f : Session → Except ConnectionError α × Session) (r : Registry) :
    Except ConnectionError α × Registry :=
  match r.session? id with
  | some s =>
    let (result, s) := f s
    (result, r.update id fun _ => s)
  | none => (.error .notConnected, r)

end Registry

/-- The handle after waiting for the answer to its ping: the next ping has another nonce only if
the answer came. -/
def SessionHandle.afterPong (handle : SessionHandle) (s : Session) :
    Except ConnectionError Unit × SessionHandle :=
  match s.checkFor (.pong handle.pingCounter) with
  | .ok () => (.ok (), { handle with pingCounter := handle.pingCounter + 1 })
  | .error e => (.error e, handle)

end BitcoinPeer
