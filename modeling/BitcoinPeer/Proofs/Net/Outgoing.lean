import BitcoinPeer.Proofs.Net.Closing
import BitcoinPeer.Proofs.Net.Frame

/-!
# What a connection sends

As long as a connection is not closed, no byte of what it has to send is lost, doubled or moved: what
the transport has taken, followed by what is still waiting, is what was waiting at the start followed
by the frames of the messages that were accepted (`consumed_append_pending`). One call keeps this
balance (`Outgoing.balance`), and the only calls that change how later frames are written are those
that set a version (`Outgoing.codec_perform`), so any calls keep it. A message that is refused leaves
nothing behind but a line in the log (`ran_send_cases`).
-/

namespace BitcoinPeer.Connection

variable {c : Connection}

/-! ### Calls and what comes of them -/

/-- A call that queues a message, opens the connection, sets a wire version, or tells how many bytes
the transport took. -/
inductive Outgoing where
  | connect
  | send (now : Instant) (message : Message) (beforeConnect : Bool)
  | setSendVersion (version : Int32)
  | setRecvVersion (version : Int32)
  | consume (n : Nat)

namespace Outgoing

inductive Outcome where
  | done
  /-- Whether the message was accepted. -/
  | queued (result : Except ConnectionError Unit)
  /-- The bytes that the transport took. -/
  | consumed (bytes : Bytes)

/-- Makes a call. The transport takes bytes off the front of those that are waiting. -/
def perform (c : Connection) : Outgoing → Outcome × Connection
  | connect => (.done, c.handleConnect.2)
  | send now message beforeConnect =>
    let (result, c) := (Connection.send now message beforeConnect).ran c
    (.queued result, c)
  | setSendVersion version => (.done, c.setSendVersion version)
  | setRecvVersion version => (.done, c.setRecvVersion version)
  | consume n => (.consumed (c.sendBuffer.take n), c.consume n)

/-- How frames are written and read after a call. -/
def adjust (codec : FrameCodec) : Outgoing → FrameCodec
  | setSendVersion version => { codec with sendVersion := version }
  | setRecvVersion version => { codec with recvVersion := version }
  | _ => codec

/-- The frame that a call is to queue: the whole frame of a message that was accepted, by the version
for sending that is in force. -/
def frames (codec : FrameCodec) : Outgoing → Outcome → List Bytes
  | send _ message _, .queued (.ok ()) => [codec.frameOf message]
  | _, _ => []

/-- The bytes that left with a call. -/
def Outcome.taken : Outcome → Bytes
  | consumed bytes => bytes
  | _ => []

end Outgoing

/-- Makes calls one after the other, and notes what comes of each. -/
def transmit : List Outgoing → Connection → List (Outgoing × Outgoing.Outcome) × Connection
  | [], c => ([], c)
  | call :: calls, c =>
    let (outcome, c) := call.perform c
    let (history, c) := transmit calls c
    ((call, outcome) :: history, c)

/-- The frames of the messages that were accepted, in order, each by the version for sending that was
set last before it. -/
def framesOf (codec : FrameCodec) : List (Outgoing × Outgoing.Outcome) → List Bytes
  | [] => []
  | (call, outcome) :: history =>
    call.frames codec outcome ++ framesOf (call.adjust codec) history

/-- The bytes that the transport took, in order. -/
def consumedBytes (history : List (Outgoing × Outgoing.Outcome)) : Bytes :=
  history.flatMap fun entry => entry.2.taken

/-! ### One call -/

/-- A message is refused because the connection is not open or because there is no room for it in a
frame, and then nothing of it is queued; or it is accepted, and its whole frame is put behind what is
waiting. -/
theorem ran_send_cases (now : Instant) (m : Message) (beforeConnect : Bool) (c : Connection) :
    (∃ e log, (send now m beforeConnect).ran c = (.error e, { c with log }) ∧
      (c.state ≠ .connected ∧ beforeConnect = false ∧ e = .notConnected ∨
        FrameCodec.maxPayload < m.encodePayload.length ∧
          e = .payloadTooLarge (UInt32.ofNat m.encodePayload.length))) ∨
    ∃ log, (send now m beforeConnect).ran c = (.ok (), { c with
      sendBuffer := c.sendBuffer ++ c.codec.frameOf m, lastSent := some now, log }) := by
  rw [ran_send]
  split
  next hclosed =>
    exact .inl ⟨_, c.log, rfl, .inl ⟨hclosed.1, Bool.eq_false_iff.mpr hclosed.2, rfl⟩⟩
  next =>
    cases hencode : c.codec.encode m with
    | error e => exact .inl ⟨e, _, rfl, .inr (FrameCodec.encode_eq_error_iff.mp hencode)⟩
    | ok frame =>
      obtain ⟨-, rfl⟩ := FrameCodec.encode_eq_ok_iff.mp hencode
      exact .inr ⟨_, rfl⟩

namespace Outgoing

theorem codec_perform (c : Connection) (call : Outgoing) :
    (call.perform c).2.codec = call.adjust c.codec := by
  cases call with
  | connect =>
    simp only [perform, handleConnect]
    split <;> rfl
  | send now m beforeConnect =>
    obtain ⟨e, log, hrun, -⟩ | ⟨log, hrun⟩ := ran_send_cases now m beforeConnect c <;>
      simp only [perform, hrun, adjust]
  | _ => rfl

/-- What left with a call and what is waiting after it are what was waiting before it and the frame
that it queued. -/
theorem balance (c : Connection) (call : Outgoing) :
    (call.perform c).1.taken ++ (call.perform c).2.sendBuffer =
      c.sendBuffer ++ (call.frames c.codec (call.perform c).1).flatten := by
  cases call with
  | connect =>
    simp only [perform, handleConnect]
    split <;> exact (List.append_nil _).symm
  | send now m beforeConnect =>
    obtain ⟨e, log, hrun, -⟩ | ⟨log, hrun⟩ := ran_send_cases now m beforeConnect c <;>
      simp [perform, hrun, Outcome.taken, frames]
  | consume n =>
    show c.sendBuffer.take n ++ c.sendBuffer.drop n = c.sendBuffer ++ []
    rw [List.take_append_drop, List.append_nil]
  | _ => exact (List.append_nil _).symm

end Outgoing

/-! ### Any calls -/

theorem transmit_balance (c : Connection) (calls : List Outgoing) :
    consumedBytes (c.transmit calls).1 ++ (c.transmit calls).2.sendBuffer =
      c.sendBuffer ++ (framesOf c.codec (c.transmit calls).1).flatten := by
  induction calls generalizing c with
  | nil => exact (List.append_nil _).symm
  | cons call calls ih =>
    have hrest := ih (call.perform c).2
    rw [call.codec_perform c] at hrest
    calc consumedBytes (c.transmit (call :: calls)).1 ++ (c.transmit (call :: calls)).2.sendBuffer
      _ = (call.perform c).1.taken ++
          (consumedBytes ((call.perform c).2.transmit calls).1 ++
            ((call.perform c).2.transmit calls).2.sendBuffer) := List.append_assoc ..
      _ = ((call.perform c).1.taken ++ (call.perform c).2.sendBuffer) ++
          (framesOf (call.adjust c.codec) ((call.perform c).2.transmit calls).1).flatten := by
        rw [hrest, List.append_assoc]
      _ = c.sendBuffer ++ (framesOf c.codec (c.transmit (call :: calls)).1).flatten := by
        rw [call.balance c, List.append_assoc, ← List.flatten_append]
        rfl

/-- **The byte stream of a connection**: whatever is called on a connection but closing it, what the
transport took followed by what is still waiting is what was waiting at the start, followed by one
whole frame for each message that was accepted, in the order of the calls and each by the version for
sending that was in force. A message that was refused, because the connection is not open or because
the payload has no room in a frame, leaves everything but the log as it was. -/
theorem consumed_append_pending (c : Connection) (calls : List Outgoing) :
    consumedBytes (c.transmit calls).1 ++ (c.transmit calls).2.sendBuffer =
      c.sendBuffer ++ (framesOf c.codec (c.transmit calls).1).flatten ∧
    ∀ now m beforeConnect e c', (send now m beforeConnect).ran c = (.error e, c') →
      (c.state ≠ .connected ∧ beforeConnect = false ∧ e = .notConnected ∨
        FrameCodec.maxPayload < m.encodePayload.length ∧
          e = .payloadTooLarge (UInt32.ofNat m.encodePayload.length)) ∧
      ∃ log, c' = { c with log } := by
  refine ⟨c.transmit_balance calls, ?_⟩
  intro now m beforeConnect e c' hrefused
  obtain ⟨e', log, hrun, hreason⟩ | ⟨log, hrun⟩ := ran_send_cases now m beforeConnect c <;>
    rw [hrun] at hrefused <;> cases hrefused
  exact ⟨hreason, log, rfl⟩

/-- A verack is refused before the connection is open and accepted without a checksum later; part of
the bytes is taken in between. -/
theorem consumed_append_pending_renegotiated :
    let peer : SocketAddress := { ip := .unspecified, port := 18444 }
    let fresh : Freshness := { time := 0, nonce := 1, associationId := .random (Octets.zero 16) }
    let c := Connection.new peer (.forNetwork .regtest) fresh 0
    let calls : List Outgoing := [.send 1 .verack false, .connect, .send 2 (.ping (some 7)) false,
      .consume 30, .setSendVersion 106, .send 3 .verack false, .consume 200]
    let withoutChecksums : FrameCodec := { c.codec with sendVersion := 106 }
    (send 1 .verack false).ran c = (.error .notConnected, c) ∧ (∃ log, c = { c with log }) ∧
      consumedBytes (c.transmit calls).1 ++ (c.transmit calls).2.sendBuffer =
        c.sendBuffer ++ [c.codec.frameOf (.ping (some 7)), withoutChecksums.frameOf .verack].flatten ∧
      (withoutChecksums.frameOf .verack).length = 20 := by
  intro peer fresh c calls withoutChecksums
  have hrefused : (send 1 .verack false).ran c = (.error .notConnected, c) := by decide +kernel
  have hframes : framesOf c.codec (c.transmit calls).1 =
      [c.codec.frameOf (.ping (some 7)), withoutChecksums.frameOf .verack] := by decide +kernel
  obtain ⟨hbytes, hrefusals⟩ := consumed_append_pending c calls
  rw [hframes] at hbytes
  exact ⟨hrefused, (hrefusals 1 .verack false .notConnected c hrefused).2, hbytes, by decide +kernel⟩

end BitcoinPeer.Connection
