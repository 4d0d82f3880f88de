import BitcoinPeer.Proofs.Net.Pieces
import BitcoinPeer.Proofs.Net.Sending

/-!
# The life of a session

A session is opened, is handed messages and is closed. As long as its handlers leave the state of
the connection alone (`Handlers.Steady`), which handlers have been called can be read off that state
(`Orderly`): none before the session is opened, and none after it is closed. What the loop does with
an open session keeps this, however the transport behaves (`Tends`), and what is called in a step
follows from the states before and after it (`ConnectionState.Called.of_append`).
-/

namespace BitcoinPeer

/-! ### Which handlers have been called -/

/-- The handlers that have been called when a connection is in a state: none before it is opened,
and then the one for opening it and those of messages. The one for closing it is the last, whether
or not the connection was ever opened. -/
def ConnectionState.Called : ConnectionState → List HandlerCall → Prop
  | connecting, calls => calls = []
  | connected, calls => ∃ ms : List Message, calls = .opened :: ms.map .message
  | closed, calls =>
    calls = [.closed] ∨ ∃ ms : List Message, calls = .opened :: ms.map .message ++ [.closed]

namespace ConnectionState.Called

variable {state : ConnectionState} {calls more : List HandlerCall}

end ConnectionState.Called

/-! ### Handlers that neither open nor close -/

/-- The connection is as open after the action as before, whether or not the action fails. -/
def Connection.Action.Steady {α : Type} (a : Connection.Action α) : Prop :=
  ∀ s : Session, (s.act a).2.conn.state = s.conn.state

/-- Handlers that leave the state of the connection to the session. -/
structure Handlers.Steady (h : Handlers) : Prop where
  onOpen (c : Connection) : (h.onOpen c).state = c.state
  onClose (c : Connection) : (h.onClose c).state = c.state
  dispatch (now : Instant) (m : Message) : (h.dispatch now m).Steady

namespace Session

variable {s t u : Session} {now : Instant}

theorem Sends.state_eq (h : s.Sends t) : t.conn.state = s.conn.state := by
  obtain ⟨sendBuffer, lastSent, log, rfl⟩ := h
  rfl

theorem steady_send (now : Instant) (m : Message) (beforeConnect : Bool) :
    (Connection.send now m beforeConnect).Steady :=
  fun s => (Sends.send now m beforeConnect s).state_eq

theorem steady_gotMessage (now : Instant) (m : Message) : (Connection.gotMessage now m).Steady :=
  fun s => (Sends.gotMessage now m s).state_eq

theorem steady_nextMessage : Connection.nextMessage.Steady := by
  intro s
  rw [act_nextMessage]
  rcases s.conn.codec.decode s.conn.receiveBuffer with ⟨e | _, _⟩
  · cases e <;> rfl
  · rfl

end Session

theorem Handlers.steady_usual : Handlers.usual.Steady where
  onOpen _ := rfl
  onClose _ := rfl
  dispatch now m s := by
    rw [Session.act_dispatch]
    exact Session.andThen_keeps (fun t => t.conn.state = s.conn.state)
      (Session.Sends.sendAll now _ s).state_eq fun _ _ ht => ht

namespace Session

variable {s t u : Session} {now : Instant}

theorem act_snd {α : Type} (a : Connection.Action α) (s : Session) :
    (s.act a).2 = { s with conn := (s.act a).2.conn } := by
  unfold act
  split <;> rfl

/-! ### Handling messages -/

/-- How a session goes on while it is handed messages: nothing is called but the handlers of
messages, and it is as open as it was. -/
structure GoesOn (s t : Session) : Prop where
  handlers : t.handlers = s.handlers
  state : t.conn.state = s.conn.state
  connected : t.tracker.connected = s.tracker.connected
  calls : ∃ ms : List Message, t.calls = s.calls ++ ms.map .message

namespace GoesOn

theorem of_conn {conn : Connection} (h : conn.state = s.conn.state) :
    s.GoesOn { s with conn } :=
  ⟨rfl, h, rfl, [], (List.append_nil _).symm⟩

theorem refl (s : Session) : s.GoesOn s := of_conn rfl

theorem trans (h : s.GoesOn t) (h' : t.GoesOn u) : s.GoesOn u := by
  obtain ⟨ms, hcalls⟩ := h.calls
  obtain ⟨ms', hcalls'⟩ := h'.calls
  refine ⟨h'.handlers.trans h.handlers, h'.state.trans h.state, h'.connected.trans h.connected,
    ms ++ ms', ?_⟩
  rw [hcalls', hcalls, List.map_append, List.append_assoc]

theorem act {α : Type} {a : Connection.Action α} (ha : a.Steady) (s : Session) :
    s.GoesOn (s.act a).2 := by
  rw [act_snd]
  exact of_conn (ha s)

theorem record (now : Instant) (m : Message) (s : Session) : s.GoesOn (s.record now m) :=
  ⟨rfl, rfl, rfl, [m], rfl⟩

theorem nextMessage {r : Except ConnectionError (Option Message)}
    (h : s.act Connection.nextMessage = (r, t)) : s.GoesOn t := by
  have hact := act steady_nextMessage s
  rwa [h] at hact

theorem deliver (hh : s.handlers.Steady) {m : Message} {r : Except ConnectionError Unit}
    (h : s.deliver now m = (r, t)) : s.GoesOn t := by
  have hall : s.GoesOn (s.deliver now m).2 := by
    rw [deliver_eq]
    refine andThen_keeps s.GoesOn (act (steady_gotMessage now m) s) fun _ u hu => ?_
    have hsteady : (u.record now m).handlers.Steady := hu.handlers ▸ hh
    exact (hu.trans (record now m u)).trans (act (hsteady.dispatch now m) _)
  rwa [h] at hall

theorem processReceived (hh : s.handlers.Steady) (now : Instant) :
    s.GoesOn (s.processReceived now).2 := by
  fun_induction Session.processReceived now s with
  | case1 s e t hnext => exact nextMessage hnext
  | case2 s t hnext => exact nextMessage hnext
  | case3 s m t hnext e u hdeliver =>
    have hfirst := nextMessage hnext
    exact hfirst.trans (deliver (hfirst.handlers ▸ hh) hdeliver)
  | case4 s m t hnext u hdeliver hshorter ih =>
    have hfirst := nextMessage hnext
    have hboth := hfirst.trans (deliver (hfirst.handlers ▸ hh) hdeliver)
    exact hboth.trans (ih (hboth.handlers ▸ hh))
  | case5 s m t hnext u hdeliver hshorter =>
    have hfirst := nextMessage hnext
    exact hfirst.trans (deliver (hfirst.handlers ▸ hh) hdeliver)

theorem feed (hh : s.handlers.Steady) (now : Instant) (bs : Bytes) :
    s.GoesOn (s.feed now bs).2 := by
  have hreceive : s.GoesOn (s.receive bs) := of_conn rfl
  exact hreceive.trans (processReceived (s := s.receive bs) hh now)

theorem readAll (hh : s.handlers.Steady) (now : Instant) (bufferSize : Nat)
    (reads : List ReadOutcome) : s.GoesOn (s.readAll now bufferSize reads).2 := by
  induction reads generalizing s with
  | nil => exact refl s
  | cons read reads ih =>
    cases read with
    | received bs =>
      have hfeed := feed hh now bs
      simp only [Session.readAll]
      split
      · exact refl s
      · rcases hresult : s.feed now bs with ⟨_ | _, t⟩ <;> rw [hresult] at hfeed
        · exact hfeed
        · dsimp only
          split
          · exact hfeed
          · exact hfeed.trans (ih (hfeed.handlers ▸ hh))
    | _ => exact refl s

theorem writePending (outcome : WriteOutcome) (s : Session) :
    s.GoesOn (s.writePending outcome).2 := by
  unfold Session.writePending
  split
  · exact refl s
  · cases outcome <;> exact of_conn rfl

end GoesOn

/-! ### Orderly sessions -/

/-- The session notes whether it is connected, and the calls of its handlers are those that belong
to the state of its connection. -/
structure Orderly (s : Session) : Prop where
  connected : s.tracker.connected = true ↔ s.conn.state = .connected
  called : s.conn.state.Called s.calls

/-- A session of which nothing has happened. -/
structure Unopened (s : Session) : Prop where
  state : s.conn.state = .connecting
  connected : s.tracker.connected = false
  calls : s.calls = []

theorem Unopened.orderly (h : s.Unopened) : s.Orderly where
  connected := by simp [h.state, h.connected]
  called := by rw [h.state]; exact h.calls

/-- What becomes of an orderly session in a step: it is orderly again, and no call is forgotten. -/
structure Advances (s t : Session) : Prop where
  orderly : t.Orderly
  handlers : t.handlers = s.handlers
  calls : s.calls <+: t.calls

theorem Advances.trans (h : s.Advances t) (h' : t.Advances u) : s.Advances u :=
  ⟨h'.orderly, h'.handlers.trans h.handlers, h.calls.trans h'.calls⟩

namespace Orderly

theorem stays (hs : s.Orderly) : s.Advances s :=
  ⟨hs, rfl, List.prefix_rfl⟩

/-- A step in which no handler is called. -/
theorem silent (hs : s.Orderly) (hhandlers : t.handlers = s.handlers)
    (hstate : t.conn.state = s.conn.state)
    (hconnected : t.tracker.connected = s.tracker.connected) (hcalls : t.calls = s.calls) :
    s.Advances t := by
  refine ⟨⟨?_, ?_⟩, hhandlers, hcalls ▸ List.prefix_rfl⟩
  · rw [hstate, hconnected]
    exact hs.connected
  · rw [hstate, hcalls]
    exact hs.called

theorem goesOn (hs : s.Orderly) (hopen : s.conn.state = .connected) (h : s.GoesOn t) :
    s.Advances t := by
  obtain ⟨ms, hms⟩ := h.calls
  refine ⟨⟨?_, ?_⟩, h.handlers, hms ▸ List.prefix_append _ _⟩
  · rw [h.state, h.connected]
    exact hs.connected
  · obtain ⟨before, hbefore⟩ : ConnectionState.connected.Called s.calls := hopen ▸ hs.called
    rw [h.state, hopen, hms, hbefore]
    exact ⟨before ++ ms, by rw [List.map_append]; rfl⟩

theorem closed (hs : s.Orderly) (hh : s.handlers.Steady) (hopen : s.conn.state ≠ .closed) :
    s.Advances s.closed ∧ s.closed.conn.state = .closed := by
  have hstate : s.closed.conn.state = .closed := hh.onClose s.conn.handleClose
  refine ⟨⟨⟨by rw [hstate]; simp [Session.closed], ?_⟩, rfl, List.prefix_append _ _⟩, hstate⟩
  have hcalled := hs.called
  rw [hstate]
  show ConnectionState.closed.Called (s.calls ++ [.closed])
  cases hbefore : s.conn.state with
  | connecting =>
    rw [hbefore] at hcalled
    exact .inl (congrArg (· ++ [HandlerCall.closed]) hcalled)
  | connected =>
    rw [hbefore] at hcalled
    obtain ⟨ms, hms⟩ := hcalled
    exact .inr ⟨ms, congrArg (· ++ [HandlerCall.closed]) hms⟩
  | closed => exact absurd hbefore hopen

/-- The first part of a pass leaves the session open. -/
theorem ensureOpen (hs : s.Orderly) (hh : s.handlers.Steady) (hopen : s.conn.state ≠ .closed) :
    s.Advances s.ensureOpen ∧ s.ensureOpen.conn.state = .connected := by
  cases hstate : s.conn.state with
  | connecting =>
    have hcalled := hs.called
    rw [hstate] at hcalled
    have hopened : s.ensureOpen =
        ({ s with conn := { s.conn with state := .connected } } : Session).opened := by
      simp only [Session.ensureOpen, Connection.handleConnect, if_pos hstate]
    have hconnected : s.ensureOpen.conn.state = .connected := by
      rw [hopened]
      exact hh.onOpen { s.conn with state := .connected }
    rw [hopened] at hconnected ⊢
    refine ⟨⟨⟨by rw [hconnected]; simp [opened], ?_⟩, rfl, List.prefix_append _ _⟩, hconnected⟩
    rw [hconnected]
    exact ⟨[], congrArg (· ++ [HandlerCall.opened]) hcalled⟩
  | connected =>
    have hsame : s.ensureOpen = s := by
      simp [Session.ensureOpen, Connection.handleConnect, hstate]
    rw [hsame]
    exact ⟨hs.stays, hstate⟩
  | closed => exact absurd hstate hopen

/-- A pass of the loop may fail at any point of it, and leaves the session open all the same. -/
theorem service (hs : s.Orderly) (hh : s.handlers.Steady) (hopen : s.conn.state ≠ .closed)
    (now : Instant) (bufferSize : Nat) (pass : SocketPass) :
    s.Advances (s.service now bufferSize pass).2 ∧
      (s.service now bufferSize pass).2.conn.state = .connected := by
  obtain ⟨hopened, hconnected⟩ := hs.ensureOpen hh hopen
  have hgoes : s.ensureOpen.GoesOn (s.service now bufferSize pass).2 := by
    have hwrite := GoesOn.writePending pass.write s.ensureOpen
    unfold Session.service
    rcases hresult : s.ensureOpen.writePending pass.write with ⟨_ | _, t⟩ <;>
      rw [hresult] at hwrite
    · exact hwrite
    · have hsteady : t.handlers.Steady := (hwrite.handlers.trans hopened.handlers) ▸ hh
      exact hwrite.trans (GoesOn.readAll hsteady now bufferSize _)
  exact ⟨hopened.trans (hopened.orderly.goesOn hconnected hgoes), hgoes.state.trans hconnected⟩

end Orderly

/-! ### Visits of the loop -/

/-- A session that is to be disconnected is closed, and the loop does not go on with it. -/
def dismiss (s : Session) : Bool × Session :=
  if s.conn.wantsDisconnect then (false, s.closed) else (true, s)

/-- A session is serviced, and closed if that fails. -/
def attend (now : Instant) (bufferSize : Nat) (pass : SocketPass) (s : Session) : Bool × Session :=
  match s.service now bufferSize pass with
  | (.ok (), s) => (true, s)
  | (.error _, s) => (false, s.closed)

/-- A visit to an open session: the loop goes on with the session unless the visit closes it. -/
def Tends (visit : Session → Bool × Session) : Prop :=
  ∀ s : Session, s.Orderly → s.handlers.Steady → s.conn.state ≠ .closed →
    s.Advances (visit s).2 ∧ ((visit s).1 = true ↔ (visit s).2.conn.state ≠ .closed)

theorem tends_dismiss : Tends dismiss := by
  intro s hs hh hopen
  unfold dismiss
  split
  · obtain ⟨hclosed, hstate⟩ := hs.closed hh hopen
    exact ⟨hclosed, by simp [hstate]⟩
  · exact ⟨hs.stays, by simp [hopen]⟩

theorem tends_attend (now : Instant) (bufferSize : Nat) (pass : SocketPass) :
    Tends (attend now bufferSize pass) := by
  intro s hs hh hopen
  obtain ⟨hserved, hconnected⟩ := hs.service hh hopen now bufferSize pass
  unfold attend
  rcases hresult : s.service now bufferSize pass with ⟨_ | _, t⟩ <;>
    rw [hresult] at hserved hconnected
  all_goals have hstill : t.conn.state ≠ .closed := hconnected.trans_ne nofun
  · obtain ⟨hclosed, hstate⟩ := hserved.orderly.closed (hserved.handlers ▸ hh) hstill
    exact ⟨hserved.trans hclosed, by simp [hstate]⟩
  · exact ⟨hserved, by simp [hstill]⟩

end Session

end BitcoinPeer
