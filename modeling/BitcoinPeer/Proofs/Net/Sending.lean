import BitcoinPeer.Proofs.Net.Handling

/-!
# What sending leaves alone

Sending a message changes the send buffer, the time of the last message and the log, whether or not
it fails (`Sends`). So does everything that the usual handlers do apart from what they adopt of a
message, and a new connection is its settings with at most our version message queued
(`exists_new_eq`).
-/

namespace BitcoinPeer

namespace Session

variable {s t u : Session}

/-- Nothing was done to the session but sending. -/
def Sends (s t : Session) : Prop :=
  ∃ sendBuffer lastSent log, t = { s with conn := { s.conn with sendBuffer, lastSent, log } }

theorem andThen_keeps {α β : Type} (P : Session → Prop) {r : Except ConnectionError α × Session}
    {f : α → Session → Except ConnectionError β × Session} (h : P r.2)
    (hf : ∀ x t, P t → P (f x t).2) : P (andThen r f).2 := by
  obtain ⟨_ | x, t⟩ := r
  · exact h
  · exact hf x t h

namespace Sends

theorem refl (s : Session) : s.Sends s := ⟨_, _, _, rfl⟩

theorem trans (h : s.Sends t) (h' : t.Sends u) : s.Sends u := by
  obtain ⟨sendBuffer, lastSent, log, rfl⟩ := h
  obtain ⟨sendBuffer', lastSent', log', rfl⟩ := h'
  exact ⟨sendBuffer', lastSent', log', rfl⟩

theorem report (entry : LogEntry) (s : Session) : s.Sends (s.report entry) := ⟨_, _, _, rfl⟩

theorem send (now : Instant) (m : Message) (beforeConnect : Bool) (s : Session) :
    s.Sends (s.act (Connection.send now m beforeConnect)).2 := by
  rw [act_send]
  split
  · exact refl s
  · split
    · exact report _ s
    · exact ⟨_, _, _, rfl⟩

theorem sendAll (now : Instant) (ms : List Message) (s : Session) :
    s.Sends (s.act (Connection.sendAll now ms)).2 := by
  induction ms generalizing s with
  | nil => exact refl s
  | cons m ms ih =>
    rw [act_sendAll_cons]
    exact andThen_keeps s.Sends (send now m false s) fun _ t ht => ht.trans (ih t)

/-- Before a message is handed on, at most the peer's lack of ping nonces is noted besides. -/
theorem gotMessage (now : Instant) (m : Message) (s : Session) :
    (s.setCodec (s.conn.codec.heard m)).Sends (s.act (Connection.gotMessage now m)).2 := by
  rw [act_gotMessage]
  exact andThen_keeps _ (sendAll now _ (s.setCodec _)) fun _ t ht => ht.trans (report _ t)

end Sends

end Session

/-- A new connection is not open and has received nothing, whatever the settings. -/
theorem Connection.exists_new_eq (peer : SocketAddress) (config : ConnectionConfig)
    (fresh : Freshness) (now : Instant) :
    ∃ associationId sendBuffer lastSent log, Connection.new peer config fresh now =
      { peer
        network := config.network
        codec := FrameCodec.ofNetwork config.network
        maxInvElements := Inventory.maxElements legacyMaxPayload
        userAgent := config.userAgent
        associationId
        sendBuffer
        lastSent
        log } := by
  unfold Connection.new
  dsimp only
  split
  · have hsend (m : Message) (c : Connection) := Session.Sends.send now m true { conn := c }
    simp only [Session.act] at hsend
    split
    case h_1 c hrun =>
      obtain ⟨sendBuffer, lastSent, log, heq⟩ := hsend _ _
      rw [hrun] at heq
      obtain rfl : c = _ := congrArg Session.conn heq
      exact ⟨_, sendBuffer, lastSent, log, rfl⟩
    case h_2 e c hrun =>
      obtain ⟨sendBuffer, lastSent, log, heq⟩ := hsend _ _
      rw [hrun] at heq
      obtain rfl : c = _ := congrArg Session.conn heq
      exact ⟨_, sendBuffer, lastSent, _, rfl⟩
  · exact ⟨_, _, _, _, rfl⟩

end BitcoinPeer
