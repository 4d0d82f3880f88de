import BitcoinPeer.Net.Session
import Mathlib.Tactic.NthRewrite
import Mathlib.Tactic.SplitIfs

/-!
# What the usual handlers do

A message is handled by a few kinds of changes to the session, which are named here. The usual
handlers send their answers (`FrameCodec.replies`) and then adopt what the message says of the two
sides (`Session.adopt`). They look at nothing but the state, the codec and whether a ping is due, so
two sessions that agree on these stay in step (`Lockstep.deliver`).
-/

namespace BitcoinPeer

/-! ### The codec and a message -/

namespace FrameCodec

/-- A peer that knows no ping nonces is noted. -/
def heard (c : FrameCodec) : Message → FrameCodec
  | .version v => if v.version ≤ legacyPingVersion then { c with legacyPing := true } else c
  | _ => c

/-- The version for sending that follows from the peer's version. -/
def lowerVersion (version : Int32) : Int32 :=
  if version < protocolVersion then version else protocolVersion

/-- The versions agreed on by a message. -/
def agreed (c : FrameCodec) : Message → FrameCodec
  | .version v =>
    { c with
      sendVersion := lowerVersion v.version
      recvVersion := if v.version < initialVersion then lowerVersion v.version else c.recvVersion }
  | .verack => { c with recvVersion := c.sendVersion }
  | _ => c

@[simp] theorem magic_agreed (c : FrameCodec) (m : Message) : (c.agreed m).magic = c.magic := by
  cases m <;> rfl

@[simp] theorem legacyPing_agreed (c : FrameCodec) (m : Message) :
    (c.agreed m).legacyPing = c.legacyPing := by
  cases m <;> rfl

/-- The answers to a message. -/
def replies (c : FrameCodec) : Message → List Message
  | .version v =>
    if initialVersion ≤ v.version then [.verack, .protoconf Protoconf.ours] else []
  | .ping nonce => if legacyPingVersion < c.sendVersion then [.pong (nonce.getD 0)] else []
  | .inv entries =>
    let wanted := entries.filter fun entry => entry.invType ≠ .error
    if wanted.isEmpty then [] else [.getData wanted]
  | _ => []

end FrameCodec

namespace Connection

/-- Sends messages one after the other, up to the first that fails. -/
def sendAll (now : Instant) : List Message → Action Unit
  | [] => pure ()
  | m :: ms => do
    send now m false
    sendAll now ms

end Connection

/-! ### Changes to a session -/

namespace Session

variable {s t : Session} {now now' : Instant}

def report (entry : LogEntry) (s : Session) : Session :=
  { s with conn := { s.conn with log := s.conn.log ++ [entry] } }

/-- A frame is put behind what is waiting to be sent. -/
def enqueue (now : Instant) (frame : Bytes) (s : Session) : Session :=
  { s with conn := { s.conn with sendBuffer := s.conn.sendBuffer ++ frame, lastSent := some now } }

def setCodec (codec : FrameCodec) (s : Session) : Session :=
  { s with conn := { s.conn with codec } }

def setServices (services : Services) (s : Session) : Session :=
  { s with conn := { s.conn with services } }

/-- A message is counted and handed on. -/
def record (now : Instant) (m : Message) (s : Session) : Session :=
  { s with tracker := s.tracker.record now m, calls := s.calls ++ [.message m] }

/-- What a message says of the two sides: the versions agreed on and the services of the peer. -/
def adopt (m : Message) (s : Session) : Session :=
  { s with conn := { s.conn with
      codec := s.conn.codec.agreed m
      services := match m with
        | .version v => v.services
        | _ => s.conn.services } }

/-! ### Actions as changes -/

/-- Goes on from an outcome, unless it is an error. -/
def andThen {α β : Type} (outcome : Except ConnectionError α × Session)
    (f : α → Session → Except ConnectionError β × Session) : Except ConnectionError β × Session :=
  match outcome with
  | (.ok x, t) => f x t
  | (.error e, t) => (.error e, t)

section
variable {α β γ : Type}

@[simp] theorem andThen_ok (x : α) (f : α → Session → Except ConnectionError β × Session) :
    andThen (.ok x, s) f = f x s := rfl

@[simp] theorem andThen_error (e : ConnectionError)
    (f : α → Session → Except ConnectionError β × Session) :
    andThen (.error e, s) f = (.error e, s) := rfl

theorem andThen_assoc (r : Except ConnectionError α × Session)
    (f : α → Session → Except ConnectionError β × Session)
    (g : β → Session → Except ConnectionError γ × Session) :
    andThen (andThen r f) g = andThen r fun x t => andThen (f x t) g := by
  obtain ⟨_ | _, _⟩ := r <;> rfl

theorem andThen_pure (r : Except ConnectionError Unit × Session) :
    (andThen r fun _ t => (.ok (), t)) = r := by
  obtain ⟨_ | _, _⟩ := r <;> rfl

theorem act_bind (a : Connection.Action α) (f : α → Connection.Action β) (s : Session) :
    s.act (a >>= f) = andThen (s.act a) fun x t => t.act (f x) := by
  simp only [act, EStateM.run, bind, EStateM.bind]
  cases a s.conn <;> rfl

theorem act_pure (x : α) (s : Session) : s.act (pure x) = (.ok x, s) := rfl

theorem act_throw (e : ConnectionError) (s : Session) :
    s.act (throw e : Connection.Action α) = (.error e, s) := rfl

theorem act_get (s : Session) : s.act get = (.ok s.conn, s) := rfl

theorem act_modify (f : Connection → Connection) (s : Session) :
    s.act (modify f) = (.ok (), { s with conn := f s.conn }) := rfl

end

theorem act_send (now : Instant) (m : Message) (beforeConnect : Bool) (s : Session) :
    s.act (Connection.send now m beforeConnect) =
      if s.conn.state ≠ .connected ∧ ¬beforeConnect then (.error .notConnected, s)
      else
        match s.conn.codec.encode m with
        | .error e => (.error e, s.report (.sending m))
        | .ok frame => (.ok (), (s.report (.sending m)).enqueue now frame) := by
  by_cases h : s.conn.state ≠ .connected ∧ ¬beforeConnect
  · simp only [Connection.send, act_bind, act_get, andThen_ok, if_pos h, act_throw, andThen_error]
  · simp only [Connection.send, act_bind, act_get, andThen_ok, if_neg h, act_modify]
    cases s.conn.codec.encode m <;> rfl

theorem act_sendAll_cons (now : Instant) (m : Message) (ms : List Message) (s : Session) :
    s.act (Connection.sendAll now (m :: ms)) =
      andThen (s.act (Connection.send now m false)) fun _ t => t.act (Connection.sendAll now ms) := by
  rw [Connection.sendAll, act_bind]

theorem act_sendAll_singleton (now : Instant) (m : Message) (s : Session) :
    s.act (Connection.sendAll now [m]) = s.act (Connection.send now m false) :=
  (act_sendAll_cons now m [] s).trans (andThen_pure _)

/-- The usual handlers send the answers and then adopt what the message says. -/
theorem act_dispatch (now : Instant) (m : Message) (s : Session) :
    s.act (Handlers.usual.dispatch now m) =
      andThen (s.act (Connection.sendAll now (s.conn.codec.replies m))) fun _ t =>
        (.ok (), t.adopt m) := by
  cases m with
  | version v =>
    show s.act (Connection.answerVersion now v) = _
    simp only [Connection.answerVersion, FrameCodec.replies]
    have htail (t : Session) : t.act (do
        modify (Connection.setSendVersion (FrameCodec.lowerVersion v.version))
        if v.version < initialVersion then
          modify fun c => c.setRecvVersion c.codec.sendVersion
        modify fun c => { c with services := v.services }) = (.ok (), t.adopt (.version v)) := by
      by_cases hearlier : v.version < initialVersion
      · simp only [act_bind, act_modify, andThen_ok, if_pos hearlier, adopt, FrameCodec.agreed]
        rfl
      · simp only [act_bind, act_modify, andThen_ok, if_neg hearlier, adopt, FrameCodec.agreed]
        rfl
    by_cases hanswers : initialVersion ≤ v.version
    · simp only [if_pos hanswers, act_bind _ _ s, act_sendAll_cons, andThen_assoc]
      refine congrArg _ (funext fun _ => funext fun t => ?_)
      rw [act_bind]
      exact congrArg _ (funext fun _ => funext htail)
    · simp only [if_neg hanswers]
      exact htail s
  | ping nonce =>
    show s.act (Connection.answerPing now nonce) = _
    simp only [Connection.answerPing, FrameCodec.replies, act_bind, act_get, andThen_ok]
    split_ifs
    · rw [act_sendAll_singleton]
      exact (andThen_pure _).symm
    · rfl
  | inv entries =>
    show s.act (Connection.answerInv now entries) = _
    simp only [Connection.answerInv, FrameCodec.replies]
    split_ifs with hwanted
    · rfl
    · rw [act_sendAll_singleton]
      exact (andThen_pure _).symm
  | _ => rfl

theorem act_gotMessage (now : Instant) (m : Message) (s : Session) :
    s.act (Connection.gotMessage now m) =
      let s := s.setCodec (s.conn.codec.heard m)
      let ping := Message.ping (if s.conn.codec.legacyPing then none else some 0)
      andThen (s.act (Connection.sendAll now (if s.conn.keepaliveDue now then [ping] else [])))
        fun _ t => (.ok (), t.report (.received m)) := by
  have hrest (s : Session) : s.act (do
      let c ← get
      if c.keepaliveDue now then
        Connection.send now (.ping (if c.codec.legacyPing then none else some 0)) false
      modify fun c => { c with log := c.log ++ [.received m] }) =
      andThen (s.act (Connection.sendAll now (if s.conn.keepaliveDue now then
        [Message.ping (if s.conn.codec.legacyPing then none else some 0)] else [])))
        fun _ t => (.ok (), t.report (.received m)) := by
    simp only [act_bind, act_get, andThen_ok]
    by_cases hdue : s.conn.keepaliveDue now
    · simp only [if_pos hdue, act_bind, act_sendAll_singleton, act_modify]
      rfl
    · simp only [if_neg hdue]
      rfl
  rw [← hrest]
  cases m with
  | version v =>
    simp only [Connection.gotMessage, FrameCodec.heard]
    by_cases hlegacy : v.version ≤ legacyPingVersion
    · simp only [if_pos hlegacy, act_bind, act_modify]
      rfl
    · simp only [if_neg hlegacy]
      rfl
  | _ => rfl

theorem deliver_eq (now : Instant) (m : Message) (s : Session) :
    s.deliver now m =
      andThen (s.act (Connection.gotMessage now m)) fun _ t =>
        (t.record now m).act ((t.record now m).handlers.dispatch now m) := by
  rw [deliver]
  obtain ⟨_ | _, _⟩ := s.act (Connection.gotMessage now m) <;> rfl

/-! ### Sessions in step -/

/-- Two outcomes agree, and so do the sessions they leave. -/
def Meets {α : Type} (R : Session → Session → Prop) (r r' : Except ConnectionError α × Session) :
    Prop :=
  r.1 = r'.1 ∧ R r.2 r'.2

/-- A relation of two sessions, each at a time of its own, that says that the usual handlers see the
same of both, and that no change they make breaks. -/
structure Lockstep (now now' : Instant) (R : Session → Session → Prop) : Prop where
  usual {s t : Session} : R s t → s.handlers = Handlers.usual ∧ t.handlers = Handlers.usual
  state {s t : Session} : R s t → s.conn.state = t.conn.state
  codec {s t : Session} : R s t → s.conn.codec = t.conn.codec
  due {s t : Session} : R s t → s.conn.keepaliveDue now = t.conn.keepaliveDue now'
  report {s t : Session} : R s t → ∀ entry, R (s.report entry) (t.report entry)
  enqueue {s t : Session} : R s t → ∀ frame, R (s.enqueue now frame) (t.enqueue now' frame)
  setCodec {s t : Session} : R s t → ∀ codec, R (s.setCodec codec) (t.setCodec codec)
  setServices {s t : Session} :
    R s t → ∀ services, R (s.setServices services) (t.setServices services)
  record {s t : Session} : R s t → ∀ m, R (s.record now m) (t.record now' m)

variable {R : Session → Session → Prop}

theorem Meets.andThen {α β : Type} {r r' : Except ConnectionError α × Session}
    {f f' : α → Session → Except ConnectionError β × Session} (h : Meets R r r')
    (hf : ∀ x s t, r = (.ok x, s) → R s t → Meets R (f x s) (f' x t)) :
    Meets R (andThen r f) (Session.andThen r' f') := by
  obtain ⟨_ | x, s⟩ := r <;> obtain ⟨_ | x', t⟩ := r' <;> obtain ⟨hresult, hR⟩ := h <;> cases hresult
  · exact ⟨rfl, hR⟩
  · exact hf x s t rfl hR

namespace Lockstep

theorem send (hR : Lockstep now now' R) (h : R s t) (m : Message) :
    Meets R (s.act (Connection.send now m false)) (t.act (Connection.send now' m false)) := by
  rw [act_send, act_send, hR.state h, hR.codec h]
  split
  · exact ⟨rfl, h⟩
  · split
    · exact ⟨rfl, hR.report h _⟩
    · exact ⟨rfl, hR.enqueue (hR.report h _) _⟩

theorem sendAll (hR : Lockstep now now' R) (h : R s t) (ms : List Message) :
    Meets R (s.act (Connection.sendAll now ms)) (t.act (Connection.sendAll now' ms)) := by
  induction ms generalizing s t with
  | nil => exact ⟨rfl, h⟩
  | cons m ms ih =>
    rw [act_sendAll_cons, act_sendAll_cons]
    exact (hR.send h m).andThen fun _ _ _ _ h => ih h

theorem adopt (hR : Lockstep now now' R) (h : R s t) (m : Message) : R (s.adopt m) (t.adopt m) := by
  have hcodec := hR.setCodec h (s.conn.codec.agreed m)
  nth_rewrite 2 [hR.codec h] at hcodec
  cases m with
  | version v => exact hR.setServices hcodec _
  | _ => exact hcodec

theorem dispatch (hR : Lockstep now now' R) (h : R s t) (m : Message) :
    Meets R (s.act (s.handlers.dispatch now m)) (t.act (t.handlers.dispatch now' m)) := by
  rw [(hR.usual h).1, (hR.usual h).2, act_dispatch, act_dispatch, hR.codec h]
  exact (hR.sendAll h _).andThen fun _ _ _ _ h => ⟨rfl, hR.adopt h m⟩

theorem gotMessage (hR : Lockstep now now' R) (h : R s t) (m : Message) :
    Meets R (s.act (Connection.gotMessage now m)) (t.act (Connection.gotMessage now' m)) := by
  have hheard : R (s.setCodec (s.conn.codec.heard m)) (t.setCodec (t.conn.codec.heard m)) := by
    rw [hR.codec h]
    exact hR.setCodec h _
  rw [act_gotMessage, act_gotMessage]
  simp only [hR.due hheard, hR.codec hheard]
  exact (hR.sendAll hheard _).andThen fun _ _ _ _ h => ⟨rfl, hR.report h _⟩

/-- Both sessions handle a message in the same way. -/
theorem deliver (hR : Lockstep now now' R) (h : R s t) (m : Message) :
    Meets R (s.deliver now m) (t.deliver now' m) := by
  rw [deliver_eq, deliver_eq]
  exact (hR.gotMessage h m).andThen fun _ _ _ _ h => hR.dispatch (hR.record h m) m

end Lockstep

end Session

end BitcoinPeer
