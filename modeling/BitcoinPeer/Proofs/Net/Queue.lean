import BitcoinPeer.Proofs.Net.Frame
import BitcoinPeer.Proofs.Net.Handling
import BitcoinPeer.Proofs.Net.Tracking

/-!
# What a session sends and what it is handed

A connected session queues every message whose payload fits into a frame, and puts the frames of
what it queues behind each other (`act_sendAll_of_connected`). So handling a message never fails
there, and it is known what is queued by it (`deliver_of_connected`).
-/

namespace BitcoinPeer

/-- A peer that knows ping nonces can read the message, and its payload fits into a frame. -/
structure Message.Sendable (m : Message) : Prop where
  readable : m.Readable false
  size : m.encodePayload.length ≤ FrameCodec.maxPayload

theorem Message.Sendable.fits {m : Message} (h : m.Sendable) : m.Fits :=
  m.fits_of_length (Nat.le_trans h.size (by decide))

namespace FrameCodec

/-- What a reader finds in a part of a stream of frames: it has to wait for more, or reads the first
message of the stream, and a stream of the others is left. -/
theorem decode_stream {c writer : FrameCodec} (h : c.Understands writer)
    (hlegacy : c.legacyPing = false) {waiting : List Message} (hwaiting : ∀ m ∈ waiting, m.Sendable)
    {buffer more : Bytes} (hstream : buffer ++ more = waiting.flatMap writer.frameOf) :
    c.decode buffer = (.ok none, buffer) ∨
      ∃ m ms rest, waiting = m :: ms ∧ c.decode buffer = (.ok (some m.canon), rest) ∧
        rest ++ more = ms.flatMap writer.frameOf := by
  cases waiting with
  | nil =>
    obtain ⟨rfl, -⟩ := List.append_eq_nil_iff.mp hstream
    exact .inl rfl
  | cons m ms =>
    have hm : m.Sendable := hwaiting m List.mem_cons_self
    have hwhole := decode_frameOf h hm.fits (hlegacy ▸ hm.readable) hm.size
      (ms.flatMap writer.frameOf)
    rw [List.flatMap_cons] at hstream
    rcases hdecode : c.decode buffer with ⟨e | _ | m', rest⟩
    · have happend := decode_append hdecode nofun more
      rw [hstream, hwhole] at happend
      cases happend
    · exact .inl (by rw [rest_of_decode_none hdecode])
    · have happend := decode_append hdecode nofun more
      rw [hstream, hwhole] at happend
      obtain ⟨hmessage, hrest⟩ := Prod.mk.inj happend
      cases hmessage
      exact .inr ⟨m, ms, rest, rfl, rfl, hrest.symm⟩

/-- The usual answers to a message that could be sent can be sent. -/
theorem sendable_replies {m : Message} (hm : m.Sendable) (c : FrameCodec) :
    ∀ r ∈ c.replies m.canon, r.Sendable := by
  intro r hr
  cases m with
  | version v =>
    simp only [Message.canon, replies] at hr
    split_ifs at hr
    · obtain rfl | hr := List.mem_cons.mp hr
      · exact ⟨trivial, by decide⟩
      · obtain rfl := List.mem_singleton.mp hr
        exact ⟨trivial, by decide +kernel⟩
    · exact absurd hr List.not_mem_nil
  | ping nonce =>
    simp only [Message.canon, replies] at hr
    split_ifs at hr
    · obtain rfl := List.mem_singleton.mp hr
      exact ⟨trivial, by simp [Message.encodePayload, maxPayload]⟩
    · exact absurd hr List.not_mem_nil
  | inv entries =>
    -- what is asked for is no more than what was announced
    have hfits : entries.length < UInt64.size :=
      Nat.lt_of_le_of_lt hm.fits maxLength.toNat_lt
    simp only [Message.canon, replies] at hr
    split_ifs at hr
    · exact absurd hr List.not_mem_nil
    · obtain rfl := List.mem_singleton.mp hr
      refine ⟨trivial, Nat.le_trans (Inventory.length_encode_list_le ?_ hfits) hm.size⟩
      exact Nat.le_trans (List.length_filter_le ..) (Nat.le_of_eq (List.length_map ..))
  | _ => exact absurd hr List.not_mem_nil

/-- The ping that is sent ahead of another message when one is due. -/
def duePing (c : FrameCodec) : Message :=
  .ping (if c.legacyPing then none else some 0)

theorem size_duePing (c : FrameCodec) : c.duePing.encodePayload.length ≤ maxPayload := by
  rw [duePing]
  split <;> decide

end FrameCodec

namespace Session

variable {s : Session} {now : Instant}

/-- The messages that were given to the connection to send, the oldest first. -/
def sent (s : Session) : List Message :=
  s.conn.log.filterMap fun
    | .sending m => some m
    | _ => none

/-- The messages that were handed to the handlers, the oldest first. -/
def delivered (s : Session) : List Message :=
  s.calls.filterMap fun
    | .message m => some m
    | _ => none

/-- The session with the frames of messages queued. -/
def queueAll (now : Instant) (ms : List Message) (s : Session) : Session :=
  { s with conn := { s.conn with
      log := s.conn.log ++ ms.map .sending
      sendBuffer := s.conn.sendBuffer ++ ms.flatMap s.conn.codec.frameOf
      lastSent := if ms.isEmpty then s.conn.lastSent else some now } }

/-- The ping that is due when a message arrives. -/
def keepalive (now : Instant) (s : Session) : List Message :=
  if s.conn.keepaliveDue now then [.ping (some 0)] else []

theorem eq_of_mem_keepalive {m : Message} (h : m ∈ s.keepalive now) : m = .ping (some 0) := by
  unfold keepalive at h
  split_ifs at h
  · exact List.mem_singleton.mp h
  · exact absurd h List.not_mem_nil

/-- What is queued when a message is handled. -/
def answers (now : Instant) (m : Message) (s : Session) : List Message :=
  s.keepalive now ++ s.conn.codec.replies m

/-- The session after it has handled a message, if nothing it sends fails. -/
def handled (now : Instant) (m : Message) (s : Session) : Session :=
  ((((s.queueAll now (s.keepalive now)).report (.received m)).record now m).queueAll now
    (s.conn.codec.replies m)).adopt m

/-- The ping that is due when a message arrives, as the peer reads it. -/
def duePings (now : Instant) (s : Session) : List Message :=
  if s.conn.keepaliveDue now then [s.conn.codec.duePing] else []

theorem size_of_mem_duePings : ∀ m ∈ s.duePings now,
    m.encodePayload.length ≤ FrameCodec.maxPayload := by
  intro m hm
  unfold duePings at hm
  split_ifs at hm
  · obtain rfl := List.mem_singleton.mp hm
    exact s.conn.codec.size_duePing
  · exact absurd hm List.not_mem_nil

/-- The session after it has handled a message that was taken note of, if nothing it sends fails. -/
def served (now : Instant) (m : Message) (s : Session) : Session :=
  ((((s.queueAll now (s.duePings now)).report (.received m)).record now m).queueAll now
    (s.conn.codec.replies m)).adopt m

/-! ### Sending -/

theorem act_send_of_size {beforeConnect : Bool}
    (hstate : s.conn.state = .connected ∨ beforeConnect = true) {m : Message}
    (hsize : m.encodePayload.length ≤ FrameCodec.maxPayload) :
    s.act (Connection.send now m beforeConnect) = (.ok (), s.queueAll now [m]) := by
  have hencode : s.conn.codec.encode m = .ok (s.conn.codec.frameOf m) :=
    FrameCodec.encode_eq_ok_iff.mpr ⟨hsize, rfl⟩
  rw [act_send, if_neg fun h => hstate.elim h.1 h.2, hencode]
  simp [queueAll, report, enqueue]

theorem act_sendAll_of_connected (hstate : s.conn.state = .connected) {ms : List Message}
    (hsize : ∀ m ∈ ms, m.encodePayload.length ≤ FrameCodec.maxPayload) :
    s.act (Connection.sendAll now ms) = (.ok (), s.queueAll now ms) := by
  induction ms generalizing s with
  | nil => simp [queueAll, Connection.sendAll, act_pure]
  | cons m ms ih =>
    have hrest := ih (s := s.queueAll now [m]) hstate fun m hm => hsize m (List.mem_cons_of_mem _ hm)
    rw [act_sendAll_cons, act_send_of_size (.inl hstate) (hsize m List.mem_cons_self), andThen_ok,
      hrest]
    cases ms <;> simp [queueAll]

/-- The ping that may be due before a message is handled is queued; its nonce is left out if the
peer is noted for knowing none, be it by this very message. -/
theorem act_gotMessage_of_connected (hstate : s.conn.state = .connected) (m : Message) :
    s.act (Connection.gotMessage now m) =
      (.ok (), ((s.setCodec (s.conn.codec.heard m)).queueAll now
        ((s.setCodec (s.conn.codec.heard m)).duePings now)).report (.received m)) := by
  have hopen : (s.setCodec (s.conn.codec.heard m)).conn.state = .connected := hstate
  rw [act_gotMessage]
  show andThen ((s.setCodec (s.conn.codec.heard m)).act (Connection.sendAll now
    ((s.setCodec (s.conn.codec.heard m)).duePings now))) _ = _
  rw [act_sendAll_of_connected hopen size_of_mem_duePings, andThen_ok]

theorem act_dispatch_of_connected (hstate : s.conn.state = .connected)
    (husual : s.handlers = Handlers.usual) {m : Message}
    (hsize : ∀ r ∈ s.conn.codec.replies m, r.encodePayload.length ≤ FrameCodec.maxPayload) :
    s.act (s.handlers.dispatch now m) =
      (.ok (), (s.queueAll now (s.conn.codec.replies m)).adopt m) := by
  rw [husual, act_dispatch, act_sendAll_of_connected hstate hsize, andThen_ok]

/-- A message whose answers fit into frames is handled without fail. -/
theorem deliver_of_size (hstate : s.conn.state = .connected) (husual : s.handlers = Handlers.usual)
    {m : Message} (hsize : ∀ r ∈ (s.conn.codec.heard m).replies m,
      r.encodePayload.length ≤ FrameCodec.maxPayload) :
    s.deliver now m = (.ok (), (s.setCodec (s.conn.codec.heard m)).served now m) := by
  rw [deliver_eq, act_gotMessage_of_connected hstate, andThen_ok]
  refine act_dispatch_of_connected ?_ ?_ ?_
  · exact hstate
  · exact husual
  · exact hsize

theorem deliver_of_connected (hstate : s.conn.state = .connected)
    (husual : s.handlers = Handlers.usual) (hlegacy : s.conn.codec.legacyPing = false) {m : Message}
    (hheard : s.conn.codec.heard m = s.conn.codec)
    (hsize : ∀ r ∈ s.conn.codec.replies m, r.encodePayload.length ≤ FrameCodec.maxPayload) :
    s.deliver now m = (.ok (), s.handled now m) := by
  have hpings : s.duePings now = s.keepalive now := by
    rw [duePings, FrameCodec.duePing, hlegacy]
    rfl
  have hcodec : s.setCodec (s.conn.codec.heard m) = s := by rw [hheard]; rfl
  rw [deliver_of_size hstate husual (hheard.symm ▸ hsize), hcodec, served, hpings]
  rfl

/-! ### What is done by handling a message -/

@[simp] theorem sent_queueAll (ms : List Message) : (s.queueAll now ms).sent = s.sent ++ ms := by
  simp [sent, queueAll, List.filterMap_map]

@[simp] theorem sent_handled (m : Message) :
    (s.handled now m).sent = s.sent ++ s.answers now m := by
  simp [sent, handled, adopt, queueAll, record, report, answers, List.filterMap_map]

@[simp] theorem sendBuffer_served (m : Message) :
    (s.served now m).conn.sendBuffer = s.conn.sendBuffer ++
      (s.duePings now ++ s.conn.codec.replies m).flatMap s.conn.codec.frameOf := by
  simp [served, adopt, queueAll, record, report]

@[simp] theorem sendBuffer_handled (m : Message) :
    (s.handled now m).conn.sendBuffer =
      s.conn.sendBuffer ++ (s.answers now m).flatMap s.conn.codec.frameOf := by
  simp [handled, adopt, queueAll, record, report, answers]

@[simp] theorem delivered_handled (m : Message) :
    (s.handled now m).delivered = s.delivered ++ [m] := by
  simp [delivered, handled, adopt, queueAll, record, report]

end Session

end BitcoinPeer
