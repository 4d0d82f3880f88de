import BitcoinPeer.Proofs.Net.Handling
import Mathlib.Data.List.Forall2

/-!
# After a connection is closed

No call leads out of the closed state, and a closed connection takes no message, unless it is one of
those that may be sent before the connection is open: their frames are queued in every state. So
what is waiting to be sent after a connection was closed is what such calls have queued and the
transport has not taken (`Call.leave`), whatever else was called in between. `Shut` is the
invariant: the state, these bytes, and that frames are still written as they were when the
connection was closed.
-/

namespace BitcoinPeer.Connection

variable {c : Connection} {codec : FrameCodec} {waiting : Bytes}

/-! ### Calls and their answers -/

/-- A call that opens or closes a connection, or changes what it sends. -/
inductive Call where
  | connect
  | send (now : Instant) (message : Message) (beforeConnect : Bool)
  | got (now : Instant) (message : Message)
  | consume (n : Nat)
  | disconnect
  | close

/-- What a call comes back with. -/
inductive Answer where
  /-- Whether the call made the connection connected. -/
  | opened (now : Bool)
  | result (outcome : Except ConnectionError Unit)
  | done

/-- How an action ends, and the connection that it leaves. -/
def Action.ran (action : Action Unit) (c : Connection) : Except ConnectionError Unit × Connection :=
  match action.run c with
  | .ok _ c => (.ok (), c)
  | .error e c => (.error e, c)

/-- Makes a call. -/
def Call.perform (c : Connection) : Call → Answer × Connection
  | connect => (.opened c.handleConnect.1, c.handleConnect.2)
  | send now message beforeConnect =>
    let (outcome, c) := (Connection.send now message beforeConnect).ran c
    (.result outcome, c)
  | got now message =>
    let (outcome, c) := (gotMessage now message).ran c
    (.result outcome, c)
  | consume n => (.done, c.consume n)
  | disconnect => (.done, c.disconnect)
  | close => (.done, c.handleClose)

/-- Makes calls one after the other, and collects their answers. -/
def performAll : List Call → Connection → List Answer × Connection
  | [], c => ([], c)
  | call :: calls, c =>
    let (answer, c) := call.perform c
    let (answers, c) := performAll calls c
    (answer :: answers, c)

/-! ### What is expected of a closed connection -/

/-- What is waiting to be sent after one more call to a closed connection that writes frames like
the given codec. -/
def Call.leave (codec : FrameCodec) (waiting : Bytes) : Call → Bytes
  | send _ message true =>
    match codec.encode message with
    | .ok frame => waiting ++ frame
    | .error _ => waiting
  | consume n => waiting.drop n
  | close => []
  | _ => waiting

/-- How a closed connection answers: it never becomes connected, and it takes no message, unless the
message may be sent before the connection is open and fits into a frame. -/
def Call.AnsweredClosed (codec : FrameCodec) : Call → Answer → Prop
  | connect, answer => answer = .opened false
  | send _ _ false, answer => answer = .result (.error .notConnected)
  | send _ message true, answer => answer = .result ((codec.encode message).map fun _ => ())
  | got .., answer => answer = .result (.ok ()) ∨ answer = .result (.error .notConnected)
  | consume _, answer | disconnect, answer | close, answer => answer = .done

/-- A message is sent that may be sent before the connection is open. -/
def Call.Pushes : Call → Prop
  | send _ _ beforeConnect => beforeConnect = true
  | _ => False

/-- A closed connection that has these bytes to send, and writes frames like the given codec. -/
structure Shut (codec : FrameCodec) (waiting : Bytes) (c : Connection) : Prop where
  state : c.state = .closed
  sendBuffer : c.sendBuffer = waiting
  encode : ∀ m, c.codec.encode m = codec.encode m

theorem shut_handleClose (h : ∀ m, c.codec.encode m = codec.encode m) :
    Shut codec [] c.handleClose :=
  ⟨rfl, rfl, h⟩

/-! ### One call -/

/-- An action on a connection is the same action in a session. -/
theorem ran_eq_act (action : Action Unit) (c : Connection) :
    action.ran c =
      ((Session.act action { conn := c }).1, (Session.act action { conn := c }).2.conn) := by
  unfold Action.ran Session.act
  cases action.run c <;> rfl

theorem ran_send (now : Instant) (m : Message) (beforeConnect : Bool) (c : Connection) :
    (send now m beforeConnect).ran c =
      if c.state ≠ .connected ∧ ¬beforeConnect then (.error .notConnected, c)
      else
        match c.codec.encode m with
        | .error e => (.error e, { c with log := c.log ++ [.sending m] })
        | .ok frame => (.ok (), { c with
            log := c.log ++ [.sending m]
            sendBuffer := c.sendBuffer ++ frame
            lastSent := some now }) := by
  rw [ran_eq_act, Session.act_send]
  dsimp only
  split
  · rfl
  · cases c.codec.encode m <;> rfl

/-- How frames are written does not depend on how pings are read. -/
theorem encode_heard (codec : FrameCodec) (m m' : Message) :
    (codec.heard m).encode m' = codec.encode m' := by
  cases m with
  | version v =>
    simp only [FrameCodec.heard]
    split <;> rfl
  | _ => rfl

namespace Shut

theorem not_connected (h : Shut codec waiting c) : c.state ≠ .connected := by
  rw [h.state]
  decide

theorem send (h : Shut codec waiting c) (now : Instant) (m : Message) (beforeConnect : Bool) :
    Shut codec (Call.leave codec waiting (.send now m beforeConnect))
        ((Connection.send now m beforeConnect).ran c).2 ∧
      (Call.send now m beforeConnect).AnsweredClosed codec
        (.result ((Connection.send now m beforeConnect).ran c).1) := by
  cases beforeConnect with
  | false =>
    rw [ran_send, if_pos ⟨h.not_connected, Bool.false_ne_true⟩]
    exact ⟨h, rfl⟩
  | true =>
    rw [ran_send, if_neg fun hrefused => hrefused.2 rfl, h.encode]
    simp only [Call.leave, Call.AnsweredClosed]
    cases codec.encode m with
    | error e => exact ⟨⟨h.state, h.sendBuffer, h.encode⟩, rfl⟩
    | ok frame => exact ⟨⟨h.state, congrArg (· ++ frame) h.sendBuffer, h.encode⟩, rfl⟩

/-- The ping that may be due before a message is handled is refused like any other message. -/
theorem got (h : Shut codec waiting c) (now : Instant) (m : Message) :
    Shut codec waiting ((gotMessage now m).ran c).2 ∧
      (Call.got now m).AnsweredClosed codec (.result ((gotMessage now m).ran c).1) := by
  rw [ran_eq_act, Session.act_gotMessage]
  have hheard (m' : Message) : (c.codec.heard m).encode m' = codec.encode m' := by
    rw [encode_heard, h.encode]
  dsimp only
  split
  · rw [Session.act_sendAll_singleton, Session.act_send,
      if_pos ⟨h.not_connected, Bool.false_ne_true⟩]
    exact ⟨⟨h.state, h.sendBuffer, hheard⟩, .inr rfl⟩
  · exact ⟨⟨h.state, h.sendBuffer, hheard⟩, .inl rfl⟩

/-- One call leaves a closed connection closed. -/
theorem perform (h : Shut codec waiting c) (call : Call) :
    Shut codec (call.leave codec waiting) (call.perform c).2 ∧
      call.AnsweredClosed codec (call.perform c).1 := by
  cases call with
  | connect =>
    have hconnect : c.handleConnect = (false, c) := by
      rw [handleConnect, h.state]
      rfl
    simp only [Call.perform, hconnect]
    exact ⟨h, rfl⟩
  | send now m beforeConnect => exact h.send now m beforeConnect
  | got now m => exact h.got now m
  | consume n => exact ⟨⟨h.state, congrArg (List.drop n) h.sendBuffer, h.encode⟩, rfl⟩
  | disconnect => exact ⟨⟨h.state, h.sendBuffer, h.encode⟩, rfl⟩
  | close => exact ⟨shut_handleClose h.encode, rfl⟩

/-! ### Any calls -/

theorem performAll (h : Shut codec waiting c) (calls : List Call) :
    Shut codec (calls.foldl (Call.leave codec) waiting) (c.performAll calls).2 ∧
      List.Forall₂ (Call.AnsweredClosed codec) calls (c.performAll calls).1 := by
  induction calls generalizing c waiting with
  | nil => exact ⟨h, .nil⟩
  | cons call calls ih =>
    obtain ⟨hshut, hanswer⟩ := h.perform call
    obtain ⟨hrest, hanswers⟩ := ih hshut
    exact ⟨hrest, .cons hanswer hanswers⟩

end Shut

/-- Nothing is queued but by messages that may be sent before the connection is open. -/
theorem Call.leave_nil {call : Call} (h : ¬call.Pushes) : call.leave codec [] = [] := by
  cases call with
  | send now m beforeConnect =>
    obtain rfl : beforeConnect = false := by simpa [Pushes] using h
    rfl
  | consume n => exact List.drop_nil
  | _ => rfl

theorem Call.foldl_leave_nil {calls : List Call} (h : ∀ call ∈ calls, ¬call.Pushes) :
    calls.foldl (leave codec) [] = [] := by
  induction calls with
  | nil => rfl
  | cons call calls ih =>
    rw [List.foldl_cons, leave_nil (h call List.mem_cons_self)]
    exact ih fun call hcall => h call (List.mem_cons_of_mem _ hcall)

/-- **Closed for good**: whatever is called after a connection was closed, it stays closed, no call
makes it connected, and every message is refused, except that one which may be sent before the
connection is open is queued if it fits into a frame. What is waiting is what was queued in this way
since it was last closed, less what the transport took; so nothing is waiting as long as no such
message is sent. -/
theorem handleClose_terminal (c : Connection) (calls : List Call) :
    (c.handleClose.performAll calls).2.state = .closed ∧
      List.Forall₂ (Call.AnsweredClosed c.codec) calls (c.handleClose.performAll calls).1 ∧
      (c.handleClose.performAll calls).2.sendBuffer = calls.foldl (Call.leave c.codec) [] ∧
      ((∀ call ∈ calls, ¬call.Pushes) → (c.handleClose.performAll calls).2.sendBuffer = []) := by
  have hclosed : Shut c.codec [] c.handleClose := shut_handleClose fun _ => rfl
  obtain ⟨hshut, hanswers⟩ := hclosed.performAll calls
  refine ⟨hshut.state, hanswers, hshut.sendBuffer, fun hnone => ?_⟩
  rw [hshut.sendBuffer, Call.foldl_leave_nil hnone]

/-- Calls to an open connection with a frame to send, after it was closed. -/
theorem handleClose_terminal_refused :
    let peer : SocketAddress := { ip := .unspecified, port := 18444 }
    let fresh : Freshness := { time := 0, nonce := 1, associationId := .random (Octets.zero 16) }
    let c := (Connection.new peer (.forNetwork .regtest) fresh 0).handleConnect.2
    let calls : List Call :=
      [.connect, .send 1 .verack false, .got 2 (.ping (some 7)), .consume 5, .disconnect, .close]
    c.state = .connected ∧ c.sendBuffer ≠ [] ∧ (∀ call ∈ calls, ¬call.Pushes) ∧
      (c.handleClose.performAll calls).2.state = .closed ∧
      (c.handleClose.performAll calls).2.sendBuffer = [] := by
  intro peer fresh c calls
  have hnone : ∀ call ∈ calls, ¬call.Pushes := by simp [calls, Call.Pushes]
  obtain ⟨hstate, -, -, hempty⟩ := handleClose_terminal c calls
  exact ⟨by decide +kernel, by decide +kernel, hnone, hstate, hempty hnone⟩

/-- Being closed does not keep a connection from queueing a message that may be sent before it is
open. -/
theorem handleClose_pushed :
    ¬∀ (c : Connection) (calls : List Call),
      (c.handleClose.performAll calls).2.state = .closed ∧
      List.Forall₂ (fun call answer => (call = .connect → answer = .opened false) ∧
        ∀ now m beforeConnect, call = .send now m beforeConnect →
          answer = .result (.error .notConnected)) calls (c.handleClose.performAll calls).1 ∧
      (c.handleClose.performAll calls).2.sendBuffer = [] := by
  intro h
  let peer : SocketAddress := { ip := .unspecified, port := 18444 }
  let fresh : Freshness := { time := 0, nonce := 1, associationId := .random (Octets.zero 16) }
  let c := (Connection.new peer (.forNetwork .regtest) fresh 0).handleConnect.2
  obtain ⟨-, hanswers, -⟩ := h c [.send 1 .verack true]
  have hqueued : (c.handleClose.performAll [.send 1 .verack true]).1 = [.result (.ok ())] := rfl
  rw [hqueued, List.forall₂_cons] at hanswers
  have hrefused := hanswers.1.2 1 .verack true rfl
  cases hrefused

end BitcoinPeer.Connection
