import BitcoinPeer.Proofs.Net.Pieces
import BitcoinPeer.Proofs.Net.Queue

/-!
# Two sessions on a wire

Two sessions with the usual handlers and settings, joined by a pipe of bytes in each direction. The
invariant has a part for each session (`Sound`): which versions it has agreed on and how many
confirmations it has queued follow from what it was handed. And it has a part for each direction
(`Flow`): what the reader has not handled, what is in the pipe and what the writer has not written are
together the frames of the messages still to be delivered. Every step keeps both (`act_linked`).
-/

namespace BitcoinPeer

/-- Two sessions, and the bytes on their way to each of them. -/
structure Link where
  left : Session
  right : Session
  toLeft : Bytes := []
  toRight : Bytes := []

namespace Link

/-! ### Steps -/

/-- The pieces that a pipe gives for reads of these sizes, up to the first that finds nothing. -/
def cut : List Nat → Bytes → List Bytes
  | [], _ => []
  | n :: ns, bs => if (bs.take n).isEmpty then [] else bs.take n :: cut ns (bs.drop n)

/-- The pieces that a pass reads: none after one that is shorter than was asked for. -/
def taken (bufferSize : Nat) : List Bytes → List Bytes
  | [] => []
  | bs :: more => if bs.length < bufferSize then [bs] else bs :: taken bufferSize more

/-- What the session on one side does, or is made to do. -/
inductive Event where
  /-- A pass of the loop. One pipe takes the first `written` of the waiting bytes, the other one gives
  its bytes in reads of these sizes and then nothing. -/
  | pass (now : Instant) (bufferSize written : Nat) (sizes : List Nat)
  /-- A message is sent from outside. -/
  | say (now : Instant) (m : Message)

/-- Version messages and confirmations are left to the handlers, and what is sent from outside must
be readable and fit into a frame. -/
def Event.Allowed : Event → Prop
  | pass .. => True
  | say _ m => m.command ≠ "version" ∧ m.command ≠ "verack" ∧ m.Sendable

/-- The session on the left makes a step. -/
def act : Event → Link → Except ConnectionError Unit × Link
  | .pass now bufferSize written sizes, l =>
    let pieces := cut sizes l.toLeft
    let (result, left) :=
      l.left.service now bufferSize ⟨.accepted written, pieces.map .received⟩
    (result, { l with
      left
      toLeft := l.toLeft.drop (taken bufferSize pieces).flatten.length
      toRight := l.toRight ++ l.left.conn.sendBuffer.take written })
  | .say now m, l =>
    let (result, left) := l.left.act (Connection.send now m false)
    (result, { l with left })

/-- The same two sessions, seen from the other side. -/
def mirror (l : Link) : Link :=
  ⟨l.right, l.left, l.toRight, l.toLeft⟩

inductive Side where
  | left
  | right

/-- One of the sessions makes a step. -/
def step : Side → Event → Link → Except ConnectionError Unit × Link
  | .left, e, l => l.act e
  | .right, e, l => ((l.mirror.act e).1, (l.mirror.act e).2.mirror)

/-- Two new sessions on one network, of which nothing has happened. -/
def start (network : Network) (peers : SocketAddress × SocketAddress)
    (fresh : Freshness × Freshness) (now : Instant × Instant) : Link where
  left := { conn := Connection.new peers.1 (.forNetwork network) fresh.1 now.1 }
  right := { conn := Connection.new peers.2 (.forNetwork network) fresh.2 now.2 }

/-- What becomes of two new sessions by any steps. -/
inductive Reachable (network : Network) : Link → Prop
  | start (peers : SocketAddress × SocketAddress) (fresh : Freshness × Freshness)
      (now : Instant × Instant) : Reachable network (start network peers fresh now)
  | step {l : Link} (h : Reachable network l) (side : Side) {e : Event} (he : e.Allowed) :
      Reachable network (l.step side e).2

/-- What becomes of a wire by the steps of a list, one after the other. -/
def run (steps : List (Side × Event)) (l : Link) : Link :=
  steps.foldl (fun l step => (l.step step.1 step.2).2) l

theorem Reachable.run {network : Network} {l : Link} (h : Reachable network l)
    {steps : List (Side × Event)} (hsteps : ∀ step ∈ steps, step.2.Allowed) :
    Reachable network (l.run steps) := by
  induction steps generalizing l with
  | nil => exact h
  | cons step steps ih =>
    exact ih (h.step step.1 (hsteps step List.mem_cons_self))
      fun step hstep => hsteps step (List.mem_cons_of_mem _ hstep)

/-- Nothing is on its way, on either side. -/
structure Quiet (l : Link) : Prop where
  toLeft : l.toLeft = []
  toRight : l.toRight = []
  sendBuffers : l.left.conn.sendBuffer = [] ∧ l.right.conn.sendBuffer = []
  receiveBuffers : l.left.conn.receiveBuffer = [] ∧ l.right.conn.receiveBuffer = []

end Link

/-! ### A session on a wire -/

/-- Messages that begin with our version message, and have no other. -/
def OpensWithVersion (ms : List Message) : Prop :=
  ∃ v rest, ms = .version v :: rest ∧ v.version = protocolVersion ∧
    "version" ∉ rest.map Message.command

theorem OpensWithVersion.count {ms : List Message} (h : OpensWithVersion ms) :
    (ms.map Message.command).count "version" = 1 := by
  obtain ⟨v, rest, rfl, -, hrest⟩ := h
  rw [List.map_cons, show (Message.version v).command = "version" from rfl, List.count_cons_self,
    List.count_eq_zero.mpr hrest]

theorem OpensWithVersion.append {ms more : List Message} (h : OpensWithVersion ms)
    (hmore : "version" ∉ more.map Message.command) : OpensWithVersion (ms ++ more) := by
  obtain ⟨v, rest, rfl, hversion, hrest⟩ := h
  refine ⟨v, rest ++ more, rfl, hversion, ?_⟩
  rw [List.map_append, List.mem_append]
  exact not_or.mpr ⟨hrest, hmore⟩

/-- A version message among them is the first one. -/
theorem OpensWithVersion.version_eq {done more : List Message} {v : VersionMessage}
    (h : OpensWithVersion (done ++ .version v :: more)) : v.version = protocolVersion := by
  obtain ⟨w, rest, hms, hversion, hrest⟩ := h
  cases done with
  | nil => cases hms; exact hversion
  | cons m ms =>
    obtain rfl : ms ++ .version v :: more = rest := (List.cons.inj hms).2
    exact absurd (by simp [Message.command]) hrest

/-- The version message is in front of any other message. -/
theorem OpensWithVersion.mem_of_ne {done more : List Message} {m : Message}
    (h : OpensWithVersion (done ++ m :: more)) (hm : m.command ≠ "version") :
    "version" ∈ done.map Message.command := by
  obtain ⟨v, rest, hms, -, -⟩ := h
  cases done with
  | nil =>
    obtain rfl : m = .version v := (List.cons.inj hms).1
    exact absurd rfl hm
  | cons m' ms =>
    obtain rfl : m' = .version v := (List.cons.inj hms).1
    exact List.mem_cons_self

theorem commands_canon (ms : List Message) :
    (ms.map Message.canon).map Message.command = ms.map Message.command := by
  rw [List.map_map]
  exact List.map_congr_left fun m _ => Message.command_canon m

namespace Session

/-- What holds of a session at any time. What it was handed says which versions are agreed on, and
each version message is answered by one confirmation. -/
structure Sound (network : Network) (s : Session) : Prop where
  usual : s.handlers = Handlers.usual
  notClosed : s.conn.state ≠ .closed
  magic : s.conn.codec.magic = network.magic
  legacyPing : s.conn.codec.legacyPing = false
  sendVersion : s.conn.codec.sendVersion =
    if "version" ∈ s.delivered.map Message.command then protocolVersion else initialVersion
  recvVersion : s.conn.codec.recvVersion =
    if "verack" ∈ s.delivered.map Message.command then protocolVersion else initialVersion
  sendable : ∀ m ∈ s.sent, m.Sendable
  opening : OpensWithVersion s.sent
  veracks : (s.sent.map Message.command).count "verack" =
    (s.delivered.map Message.command).count "version"
  counted : ∀ command, s.tracker.count command = (s.delivered.map Message.command).count command

variable {network : Network} {s : Session} {now : Instant}

namespace Sound

theorem understands (h : s.Sound network) :
    s.conn.codec.Understands (FrameCodec.ofNetwork network) := by
  have hsend : FrameCodec.checksumVersion ≤ initialVersion := by decide
  have hrecv : FrameCodec.checksumVersion ≤ s.conn.codec.recvVersion := by
    rw [h.recvVersion]
    split_ifs <;> decide
  exact .of_versions rfl h.magic (.inl ⟨hsend, hrecv⟩)

theorem frameOf_eq (h : s.Sound network) :
    s.conn.codec.frameOf = (FrameCodec.ofNetwork network).frameOf := by
  have hchecksum : FrameCodec.checksumVersion ≤ s.conn.codec.sendVersion := by
    rw [h.sendVersion]
    split_ifs <;> decide
  funext m
  simp only [FrameCodec.frameOf, FrameCodec.frame, h.magic, if_pos hchecksum]
  rfl

end Sound

theorem not_mem_keepalive {command : String} (h : command ≠ "ping") :
    command ∉ (s.keepalive now).map Message.command := fun hmem => by
  obtain ⟨r, hr, rfl⟩ := List.mem_map.mp hmem
  exact h (by rw [eq_of_mem_keepalive hr]; rfl)

/-- What a message is answered by, and what it makes of the versions, if it comes next from a peer
that opened with its version message and `done` was handed on before. -/
theorem handles_next (h : s.Sound network) {done more : List Message} {m : Message}
    (hpeer : OpensWithVersion (done ++ m :: more)) (hdone : s.delivered = done.map Message.canon) :
    s.conn.codec.heard m.canon = s.conn.codec ∧
    (s.conn.codec.agreed m.canon).sendVersion =
      (if m.command = "version" then protocolVersion else s.conn.codec.sendVersion) ∧
    (s.conn.codec.agreed m.canon).recvVersion =
      (if m.command = "verack" then protocolVersion else s.conn.codec.recvVersion) ∧
    "version" ∉ (s.conn.codec.replies m.canon).map Message.command ∧
    ((s.conn.codec.replies m.canon).map Message.command).count "verack" =
      (if m.command = "version" then 1 else 0) := by
  cases m with
  | version v =>
    have hcanon : v.canon.version = protocolVersion := by
      show VersionMessage.meaning v.version = protocolVersion
      rw [hpeer.version_eq]
      decide
    simp only [Message.canon, FrameCodec.heard, FrameCodec.agreed, FrameCodec.replies,
      FrameCodec.lowerVersion, hcanon]
    exact ⟨rfl, rfl, rfl, by decide, rfl⟩
  | verack =>
    -- the version message of the peer came before
    have hsend : s.conn.codec.sendVersion = protocolVersion := by
      rw [h.sendVersion, hdone, commands_canon, if_pos (hpeer.mem_of_ne (by decide))]
    exact ⟨rfl, rfl, hsend, List.not_mem_nil, rfl⟩
  | ping nonce =>
    refine ⟨rfl, rfl, rfl, (?_ : _ ∧ _ = 0)⟩
    simp only [Message.canon, FrameCodec.replies]
    split_ifs <;> simp [Message.command]
  | inv entries =>
    refine ⟨rfl, rfl, rfl, (?_ : _ ∧ _ = 0)⟩
    simp only [Message.canon, FrameCodec.replies]
    split_ifs <;> simp [Message.command]
  | _ => exact ⟨rfl, rfl, rfl, List.not_mem_nil, rfl⟩

/-- A session handles the next message from its peer without an error, and all is well after it. -/
theorem Sound.handled (h : s.Sound network) (hstate : s.conn.state = .connected) (now : Instant)
    {done more : List Message} {m : Message} (hm : m.Sendable)
    (hpeer : OpensWithVersion (done ++ m :: more)) (hdone : s.delivered = done.map Message.canon) :
    s.deliver now m.canon = (.ok (), s.handled now m.canon) ∧
      (s.handled now m.canon).Sound network := by
  obtain ⟨hheard, hsend, hrecv, hversion, hverack⟩ := handles_next h hpeer hdone
  have hreplies := FrameCodec.sendable_replies hm s.conn.codec
  have hcommands : (s.handled now m.canon).delivered.map Message.command =
      s.delivered.map Message.command ++ [m.command] := by
    rw [delivered_handled, List.map_append, ← Message.command_canon m]
    rfl
  refine ⟨deliver_of_connected hstate h.usual h.legacyPing hheard fun r hr => (hreplies r hr).size, ?_⟩
  exact {
    usual := h.usual
    notClosed := h.notClosed
    magic := (FrameCodec.magic_agreed _ _).trans h.magic
    legacyPing := (FrameCodec.legacyPing_agreed _ _).trans h.legacyPing
    sendVersion := by
      show (s.conn.codec.agreed m.canon).sendVersion = _
      rw [hsend, h.sendVersion, ← ite_or]
      refine if_congr ?_ rfl rfl
      rw [hcommands, List.mem_append, List.mem_singleton, or_comm, eq_comm]
    recvVersion := by
      show (s.conn.codec.agreed m.canon).recvVersion = _
      rw [hrecv, h.recvVersion, ← ite_or]
      refine if_congr ?_ rfl rfl
      rw [hcommands, List.mem_append, List.mem_singleton, or_comm, eq_comm]
    sendable := fun r hr => by
      rw [sent_handled, List.mem_append, answers, List.mem_append] at hr
      obtain hr | hr | hr := hr
      · exact h.sendable r hr
      · rw [eq_of_mem_keepalive hr]
        exact ⟨rfl, by decide⟩
      · exact hreplies r hr
    opening := by
      rw [sent_handled]
      refine h.opening.append ?_
      rw [answers, List.map_append, List.mem_append]
      exact not_or.mpr ⟨not_mem_keepalive (by decide), hversion⟩
    veracks := by
      have hnone : ((s.keepalive now).map Message.command).count "verack" = 0 :=
        List.count_eq_zero.mpr (not_mem_keepalive (by decide))
      rw [hcommands, sent_handled, answers, List.map_append, List.map_append, List.count_append,
        List.count_append, List.count_append, h.veracks, hnone, hverack, List.count_singleton]
      simp
    counted := fun command => by
      show (s.tracker.record now m.canon).count command = _
      rw [Tracker.count_record, h.counted, hcommands, List.count_append, List.count_singleton,
        Message.command_canon]
      simp }

/-- A message from outside is only one more to be sent. -/
theorem Sound.say (h : s.Sound network) {m : Message} (hversion : m.command ≠ "version")
    (hverack : m.command ≠ "verack") (hm : m.Sendable) (now : Instant) :
    (s.queueAll now [m]).Sound network where
  usual := h.usual
  notClosed := h.notClosed
  magic := h.magic
  legacyPing := h.legacyPing
  sendVersion := h.sendVersion
  recvVersion := h.recvVersion
  sendable := fun r hr => by
    rw [sent_queueAll, List.mem_append, List.mem_singleton] at hr
    exact hr.elim (h.sendable r) fun hr => hr ▸ hm
  opening := by
    rw [sent_queueAll]
    exact h.opening.append (by simpa using hversion.symm)
  veracks := by
    have hnone : ([m].map Message.command).count "verack" = 0 :=
      List.count_eq_zero.mpr (by simpa using hverack.symm)
    rw [sent_queueAll, List.map_append, List.count_append, hnone]
    exact h.veracks
  counted := h.counted

/-- Only what was sent and handed on, and what the versions are, matters. -/
theorem Sound.of_eq {t : Session} (h : s.Sound network) (husual : t.handlers = s.handlers)
    (hstate : t.conn.state ≠ .closed) (hcodec : t.conn.codec = s.conn.codec)
    (hsent : t.sent = s.sent) (hdelivered : t.delivered = s.delivered)
    (hcount : ∀ command, t.tracker.count command = s.tracker.count command) : t.Sound network where
  usual := husual.trans h.usual
  notClosed := hstate
  magic := hcodec ▸ h.magic
  legacyPing := hcodec ▸ h.legacyPing
  sendVersion := by rw [hcodec, h.sendVersion, hdelivered]
  recvVersion := by rw [hcodec, h.recvVersion, hdelivered]
  sendable := hsent ▸ h.sendable
  opening := hsent ▸ h.opening
  veracks := by rw [hsent, hdelivered, h.veracks]
  counted := fun command => by rw [hcount, hdelivered, h.counted]

/-! ### A pass -/

/-- Whether it is the first pass or not, the session is connected after its start. -/
theorem Sound.ensureOpen (h : s.Sound network) :
    s.ensureOpen.Sound network ∧ s.ensureOpen.conn = { s.conn with state := .connected } ∧
      s.ensureOpen.delivered = s.delivered := by
  cases hstate : s.conn.state with
  | connecting =>
    have hconnect : s.conn.handleConnect = (true, { s.conn with state := .connected }) :=
      if_pos hstate
    have hopen : s.ensureOpen =
        Session.opened { s with conn := { s.conn with state := .connected } } := by
      rw [Session.ensureOpen, hconnect]
    have hconn : s.ensureOpen.conn = { s.conn with state := .connected } := by
      rw [hopen, Session.opened, h.usual]
      rfl
    have hdelivered : s.ensureOpen.delivered = s.delivered := by
      rw [hopen]
      simp [Session.opened, delivered]
    refine ⟨h.of_eq (by rw [hopen]; rfl) (by simp [hconn]) (by rw [hconn]) ?_ hdelivered ?_,
      hconn, hdelivered⟩
    · simp only [sent, hconn]
    · rw [hopen]
      exact fun _ => rfl
  | connected =>
    have hopen : s.ensureOpen = s := by
      rw [Session.ensureOpen, Connection.handleConnect, if_neg (by rw [hstate]; decide)]
    rw [hopen]
    exact ⟨h, by rw [← hstate], rfl⟩
  | closed => exact absurd hstate h.notClosed

theorem writePending_accepted (n : Nat) (s : Session) :
    s.writePending (.accepted n) = (.ok (), { s with conn := s.conn.consume n }) := by
  rw [writePending]
  split_ifs with hempty
  · have hnil : s.conn.sendBuffer = [] := List.isEmpty_iff.mp hempty
    have hsame : s.conn.consume n = s.conn := by
      rw [Connection.consume, hnil, List.drop_nil, ← hnil]
    rw [hsame]
  · rfl

end Session

/-! ### A direction of the wire -/

/-- The reader was handed what the writer sent, in its order and in canonical form, up to the messages
whose frames are still on their way: first in the reader's buffer, then in the pipe, then in the
writer's buffer. -/
def Flow (network : Network) (writer : Session) (pipe : Bytes) (reader : Session) : Prop :=
  ∃ done waiting, writer.sent = done ++ waiting ∧ reader.delivered = done.map Message.canon ∧
    reader.conn.receiveBuffer ++ (pipe ++ writer.conn.sendBuffer) =
      waiting.flatMap (FrameCodec.ofNetwork network).frameOf

namespace Flow

variable {network : Network} {writer writer' reader reader' : Session} {pipe pipe' : Bytes}

/-- Bytes may move, as long as their order stays. -/
theorem move (h : Flow network writer pipe reader) (hsent : writer'.sent = writer.sent)
    (hdelivered : reader'.delivered = reader.delivered)
    (hbytes : reader'.conn.receiveBuffer ++ (pipe' ++ writer'.conn.sendBuffer) =
      reader.conn.receiveBuffer ++ (pipe ++ writer.conn.sendBuffer)) :
    Flow network writer' pipe' reader' := by
  obtain ⟨done, waiting, hdone, hread, hstream⟩ := h
  exact ⟨done, waiting, hsent ▸ hdone, hdelivered ▸ hread, hbytes ▸ hstream⟩

/-- What is sent is put behind what waits already. -/
theorem send (h : Flow network writer pipe reader) {ms : List Message}
    (hsent : writer'.sent = writer.sent ++ ms)
    (hbuffer : writer'.conn.sendBuffer =
      writer.conn.sendBuffer ++ ms.flatMap (FrameCodec.ofNetwork network).frameOf) :
    Flow network writer' pipe reader := by
  obtain ⟨done, waiting, hdone, hread, hstream⟩ := h
  refine ⟨done, waiting ++ ms, by rw [hsent, hdone, List.append_assoc], hread, ?_⟩
  rw [hbuffer, List.flatMap_append, ← hstream]
  simp only [List.append_assoc]

theorem prefix_of (h : Flow network writer pipe reader) :
    reader.delivered <+: writer.sent.map Message.canon := by
  obtain ⟨done, waiting, hdone, hread, -⟩ := h
  rw [hdone, hread, List.map_append]
  exact List.prefix_append ..

end Flow

namespace Link

variable {network : Network} {l : Link}

/-- The invariant of a wire. -/
structure Linked (network : Network) (l : Link) : Prop where
  left : l.left.Sound network
  right : l.right.Sound network
  toLeft : Flow network l.right l.toLeft l.left
  toRight : Flow network l.left l.toRight l.right

theorem Linked.mirror (h : l.Linked network) : l.mirror.Linked network :=
  ⟨h.right, h.left, h.toRight, h.toLeft⟩

/-- The session on the left handles all whole frames it has without an error. -/
theorem Linked.processReceived (h : l.Linked network) (hstate : l.left.conn.state = .connected)
    (now : Instant) :
    (l.left.processReceived now).1 = .ok () ∧
      (l.left.processReceived now).2.conn.state = .connected ∧
      Linked network { l with left := (l.left.processReceived now).2 } := by
  induction hn : l.left.conn.receiveBuffer.length using Nat.strongRecOn generalizing l with
  | ind n ih =>
  obtain ⟨done, waiting, hdone, hread, hstream⟩ := h.toLeft
  have hwaiting : ∀ m ∈ waiting, m.Sendable := fun m hm =>
    h.right.sendable m (hdone ▸ List.mem_append_right _ hm)
  rw [Session.processReceived_eq h.left.usual]
  rcases FrameCodec.decode_stream h.left.understands h.left.legacyPing hwaiting hstream with
    hdecode | ⟨m, ms, rest, rfl, hdecode, hrest⟩
  · rw [hdecode]
    exact ⟨rfl, hstate, h⟩
  · have hleave : (l.left.leave rest).Sound network :=
      h.left.of_eq rfl h.left.notClosed rfl rfl rfl fun _ => rfl
    obtain ⟨hdeliver, hsound⟩ := hleave.handled hstate now (hwaiting m List.mem_cons_self)
      (hdone ▸ h.right.opening) hread
    have hlt := FrameCodec.rest_lt_of_decode_some hdecode
    have hlinked : Linked network { l with left := (l.left.leave rest).handled now m.canon } := {
      left := hsound
      right := h.right
      toLeft := by
        refine ⟨done ++ [m], ms, by rw [hdone, List.append_assoc]; rfl, ?_, hrest⟩
        rw [Session.delivered_handled, List.map_append]
        exact congrArg (· ++ [m.canon]) hread
      toRight := h.toRight.send (Session.sent_handled m.canon) (by
        rw [Session.sendBuffer_handled, hleave.frameOf_eq]
        rfl) }
    rw [hdecode]
    dsimp only
    rw [hdeliver]
    exact ih _ (hn ▸ hlt) hlinked hstate rfl

/-- The session on the left reads the first pieces of its pipe without an error. -/
theorem Linked.readAll (h : l.Linked network) (hstate : l.left.conn.state = .connected)
    (now : Instant) (bufferSize : Nat) {pieces : List Bytes} {rest : Bytes}
    (hne : ∀ bs ∈ pieces, ¬bs.isEmpty) (hpipe : l.toLeft = pieces.flatten ++ rest) :
    (l.left.readAll now bufferSize (pieces.map .received)).1 = .ok () ∧
      Linked network { l with
        left := (l.left.readAll now bufferSize (pieces.map .received)).2
        toLeft := l.toLeft.drop (taken bufferSize pieces).flatten.length } := by
  induction pieces generalizing l with
  | nil => exact ⟨rfl, h⟩
  | cons bs pieces ih =>
    have hreceive : Linked network
        { l with left := l.left.receive bs, toLeft := pieces.flatten ++ rest } := {
      left := h.left.of_eq rfl h.left.notClosed rfl rfl rfl fun _ => rfl
      right := h.right
      toLeft := h.toLeft.move rfl rfl (by
        rw [hpipe, List.flatten_cons]
        simp only [Session.receive, Connection.receive, List.append_assoc])
      toRight := h.toRight.move rfl rfl rfl }
    obtain ⟨hok, hstate', hlinked⟩ := hreceive.processReceived hstate now
    have hfeed : l.left.feed now bs = (.ok (), ((l.left.receive bs).processReceived now).2) :=
      Prod.ext hok rfl
    have hdrop : l.toLeft.drop bs.length = pieces.flatten ++ rest := by
      rw [hpipe, List.flatten_cons, List.append_assoc, List.drop_left]
    rw [List.map_cons, Session.readAll, if_neg (hne bs List.mem_cons_self), hfeed, taken]
    dsimp only
    split_ifs
    · rw [List.flatten_singleton, hdrop]
      exact ⟨rfl, hlinked⟩
    · rw [List.flatten_cons, List.length_append, ← List.drop_drop, hdrop]
      exact ih hlinked hstate' (fun bs hbs => hne bs (List.mem_cons_of_mem _ hbs)) rfl

theorem cut_spec (sizes : List Nat) (bs : Bytes) :
    (∀ piece ∈ cut sizes bs, ¬piece.isEmpty) ∧ ∃ rest, bs = (cut sizes bs).flatten ++ rest := by
  induction sizes generalizing bs with
  | nil => exact ⟨fun _ h => absurd h List.not_mem_nil, bs, rfl⟩
  | cons n sizes ih =>
    rw [cut]
    split_ifs with hempty
    · exact ⟨fun _ h => absurd h List.not_mem_nil, bs, rfl⟩
    · obtain ⟨hne, rest, hrest⟩ := ih (bs.drop n)
      refine ⟨fun piece hpiece => ?_, rest, ?_⟩
      · obtain rfl | hpiece := List.mem_cons.mp hpiece
        · exact hempty
        · exact hne piece hpiece
      · rw [List.flatten_cons, List.append_assoc, ← hrest, List.take_append_drop]

/-- The wire after the bytes of a pass were written, and before any are read. -/
def written (n : Nat) (l : Link) : Link :=
  { l with
    left := { l.left.ensureOpen with conn := l.left.ensureOpen.conn.consume n }
    toRight := l.toRight ++ l.left.conn.sendBuffer.take n }

theorem Linked.written (h : l.Linked network) (n : Nat) :
    (l.written n).Linked network ∧ (l.written n).left.conn.state = .connected := by
  obtain ⟨hsound, hconn, hdelivered⟩ := h.left.ensureOpen
  have hsent : (l.written n).left.sent = l.left.sent := by
    show l.left.ensureOpen.sent = _
    simp only [Session.sent, hconn]
  have hstate : (l.written n).left.conn.state = .connected := by
    show l.left.ensureOpen.conn.state = _
    rw [hconn]
  refine ⟨⟨hsound.of_eq rfl (by rw [hstate]; decide) rfl rfl rfl fun _ => rfl, h.right,
    h.toLeft.move rfl hdelivered ?_, h.toRight.move hsent rfl ?_⟩, hstate⟩
  · show l.left.ensureOpen.conn.receiveBuffer ++ (l.toLeft ++ l.right.conn.sendBuffer) = _
    rw [hconn]
  · show l.right.conn.receiveBuffer ++ (l.toRight ++ l.left.conn.sendBuffer.take n ++
      l.left.ensureOpen.conn.sendBuffer.drop n) = _
    rw [hconn, List.append_assoc l.toRight, List.take_append_drop]

theorem act_pass (now : Instant) (bufferSize n : Nat) (sizes : List Nat) (l : Link) :
    l.act (.pass now bufferSize n sizes) =
      (((l.written n).left.readAll now bufferSize ((cut sizes l.toLeft).map .received)).1,
        { l.written n with
          left := ((l.written n).left.readAll now bufferSize ((cut sizes l.toLeft).map .received)).2
          toLeft := l.toLeft.drop (taken bufferSize (cut sizes l.toLeft)).flatten.length }) := by
  simp only [act, Session.service, Session.writePending_accepted]
  rfl

/-! ### The whole wire -/

/-- A step of the session on the left keeps the invariant and fails at most because the session is not
open yet, and then nothing happens. -/
theorem Linked.act (h : l.Linked network) {e : Event} (he : e.Allowed) :
    ((l.act e).1 = .ok () ∨ (l.act e).1 = .error .notConnected ∧ (l.act e).2 = l) ∧
      (l.act e).2.Linked network := by
  cases e with
  | pass now bufferSize n sizes =>
    obtain ⟨hwritten, hstate⟩ := h.written n
    obtain ⟨hne, rest, hpipe⟩ := cut_spec sizes l.toLeft
    obtain ⟨hok, hlinked⟩ := hwritten.readAll hstate now bufferSize hne hpipe
    rw [act_pass]
    exact ⟨.inl hok, hlinked⟩
  | say now m =>
    obtain ⟨hversion, hverack, hm⟩ := he
    by_cases hstate : l.left.conn.state = .connected
    · have hsend : l.left.act (Connection.send now m false) = (.ok (), l.left.queueAll now [m]) :=
        Session.act_send_of_size (.inl hstate) hm.size
      have hact : l.act (.say now m) = (.ok (), { l with left := l.left.queueAll now [m] }) := by
        simp only [Link.act, hsend]
      rw [hact]
      refine ⟨.inl rfl, h.left.say hversion hverack hm now, h.right, h.toLeft.move rfl rfl rfl,
        h.toRight.send (Session.sent_queueAll [m]) ?_⟩
      rw [← h.left.frameOf_eq]
      rfl
    · have hsend : l.left.act (Connection.send now m false) = (.error .notConnected, l.left) := by
        rw [Session.act_send, if_pos ⟨hstate, nofun⟩]
      have hact : l.act (.say now m) = (.error .notConnected, l) := by
        simp only [Link.act, hsend]
      rw [hact]
      exact ⟨.inr ⟨rfl, rfl⟩, h⟩

theorem Linked.step (h : l.Linked network) (side : Side) {e : Event} (he : e.Allowed) :
    ((l.step side e).1 = .ok () ∨ (l.step side e).1 = .error .notConnected ∧ (l.step side e).2 = l) ∧
      (l.step side e).2.Linked network := by
  cases side with
  | left => exact h.act he
  | right =>
    obtain ⟨hresult, hlinked⟩ := h.mirror.act he
    refine ⟨hresult.imp_right fun ⟨herror, hsame⟩ => ⟨herror, ?_⟩, hlinked.mirror⟩
    show (l.mirror.act e).2.mirror = l
    rw [hsame]
    rfl

/-- Our version message fits into a frame by far. -/
theorem sendable_configured (network : Network) (peer : SocketAddress) (fresh : Freshness) :
    (Message.version (VersionMessage.configured (.forNetwork network) peer fresh)).Sendable := by
  refine ⟨trivial, ?_⟩
  have hid : (AssociationId.encodeOptional (some fresh.associationId)).length = 18 := by
    rw [AssociationId.encodeOptional, Encode.byteString, List.length_append,
      AssociationId.length_toBlob]
    rfl
  have htext : (Encode.text userAgentText).length = 19 := by decide +kernel
  have hsender : senderVersion ≤ protocolVersion := by decide
  have hinitial : initialVersion ≤ protocolVersion := by decide
  have hrelay : relayVersion ≤ protocolVersion := by decide
  have hlen : (Codec.encode (VersionMessage.configured (.forNetwork network) peer fresh)).length =
      4 + 8 + 8 + 26 + (26 + 8 + 19) + 4 + (1 + 18) := by
    show (VersionMessage.encodeMandatory _ ++ _).length = _
    simp only [VersionMessage.encodeMandatory, VersionMessage.configured, VersionMessage.announcing,
      ConnectionConfig.forNetwork, if_pos hsender, if_pos hinitial, if_pos hrelay,
      List.length_append, Encode.length_int32, Encode.length_int64, Encode.length_uint64,
      Encode.length_bool, Services.length_encode, PeerAddress.length_encode, Option.getD_some,
      Option.orElse_none, htext, hid, Bool.false_eq_true, if_false]
  show (Codec.encode (VersionMessage.configured (.forNetwork network) peer fresh)).length ≤ _
  rw [hlen]
  decide

/-- A new session before its version message is queued. -/
def silent (network : Network) (peer : SocketAddress) (fresh : Freshness) : Session where
  conn := {
    peer
    network
    codec := FrameCodec.ofNetwork network
    maxInvElements := Inventory.maxElements legacyMaxPayload
    associationId := some fresh.associationId }

/-- A new session has queued its version message and done nothing else. -/
theorem new_eq (network : Network) (peer : SocketAddress) (fresh : Freshness) (now : Instant) :
    ({ conn := Connection.new peer (.forNetwork network) fresh now } : Session) =
      (silent network peer fresh).queueAll now
        [.version (VersionMessage.configured (.forNetwork network) peer fresh)] := by
  have hact : (silent network peer fresh).act (Connection.send now
      (.version (VersionMessage.configured (.forNetwork network) peer fresh)) true) = (.ok (), _) :=
    Session.act_send_of_size (.inr rfl) (sendable_configured network peer fresh).size
  rw [Session.act] at hact
  split at hact
  next hrun =>
    rw [← (Prod.mk.inj hact).2, Connection.new, if_pos ⟨rfl, rfl⟩]
    dsimp only
    split
    next hnew =>
      cases hrun.symm.trans hnew
      rfl
    next hnew => cases hrun.symm.trans hnew
  next hrun => cases hact

theorem sound_new (network : Network) (peer : SocketAddress) (fresh : Freshness) (now : Instant) :
    Session.Sound network { conn := Connection.new peer (.forNetwork network) fresh now } := by
  have hsent : Session.sent { conn := Connection.new peer (.forNetwork network) fresh now } =
      [.version (VersionMessage.configured (.forNetwork network) peer fresh)] := by
    rw [new_eq]
    rfl
  have hsendable := sendable_configured network peer fresh
  rw [new_eq] at hsent ⊢
  exact {
    usual := rfl
    notClosed := nofun
    magic := rfl
    legacyPing := rfl
    sendVersion := rfl
    recvVersion := rfl
    sendable := by rw [hsent]; exact fun m hm => List.mem_singleton.mp hm ▸ hsendable
    opening := ⟨_, [], hsent, rfl, List.not_mem_nil⟩
    veracks := by rw [hsent]; rfl
    counted := fun _ => rfl }

theorem linked_start (network : Network) (peers : SocketAddress × SocketAddress)
    (fresh : Freshness × Freshness) (now : Instant × Instant) :
    (start network peers fresh now).Linked network := by
  have hflow (peer peer' : SocketAddress) (fresh fresh' : Freshness) (now now' : Instant) :
      Flow network { conn := Connection.new peer (.forNetwork network) fresh now } []
        { conn := Connection.new peer' (.forNetwork network) fresh' now' } := by
    rw [new_eq, new_eq]
    exact ⟨[], _, rfl, rfl, rfl⟩
  exact ⟨sound_new .., sound_new .., hflow .., hflow ..⟩

theorem Reachable.linked (h : Reachable network l) : l.Linked network := by
  induction h with
  | start peers fresh now => exact linked_start network peers fresh now
  | step _ side he ih => exact (ih.step side he).2

/-! ### What holds of the wire -/

/-- One version message and one confirmation came, and both directions have the version agreed on. -/
structure ShookHands (s : Session) : Prop where
  version : s.tracker.count "version" = 1
  verack : s.tracker.count "verack" = 1
  sendVersion : s.conn.codec.sendVersion = protocolVersion
  recvVersion : s.conn.codec.recvVersion = protocolVersion

/-- When nothing is on its way any more, all that was sent was handed on. -/
theorem commands_of_quiet {writer reader : Session} (h : Flow network writer [] reader)
    (hsend : writer.conn.sendBuffer = []) (hreceive : reader.conn.receiveBuffer = []) :
    reader.delivered.map Message.command = writer.sent.map Message.command := by
  obtain ⟨done, waiting, hdone, hread, hstream⟩ := h
  have hnone : waiting = [] := by
    cases waiting with
    | nil => rfl
    | cons m ms =>
      have hframe : ((FrameCodec.ofNetwork network).frameOf m).length = 24 + m.encodePayload.length :=
        FrameCodec.length_frame network.magic_length _ _
      rw [hsend, hreceive, List.flatMap_cons] at hstream
      rw [(List.append_eq_nil_iff.mp hstream.symm).1, List.length_nil] at hframe
      omega
  rw [hread, hdone, hnone, List.append_nil, commands_canon]

theorem Linked.shookHands (h : l.Linked network) (hquiet : l.Quiet) : ShookHands l.left := by
  have hleft : l.left.delivered.map Message.command = l.right.sent.map Message.command :=
    commands_of_quiet (hquiet.toLeft ▸ h.toLeft) hquiet.sendBuffers.2 hquiet.receiveBuffers.1
  have hright : l.right.delivered.map Message.command = l.left.sent.map Message.command :=
    commands_of_quiet (hquiet.toRight ▸ h.toRight) hquiet.sendBuffers.1 hquiet.receiveBuffers.2
  have hversion : (l.left.delivered.map Message.command).count "version" = 1 := by
    rw [hleft, h.right.opening.count]
  have hverack : (l.left.delivered.map Message.command).count "verack" = 1 := by
    rw [hleft, h.right.veracks, hright, h.left.opening.count]
  exact {
    version := (h.left.counted _).trans hversion
    verack := (h.left.counted _).trans hverack
    sendVersion := h.left.sendVersion.trans
      (if_pos (List.count_pos_iff.mp (hversion ▸ Nat.one_pos)))
    recvVersion := h.left.recvVersion.trans
      (if_pos (List.count_pos_iff.mp (hverack ▸ Nat.one_pos))) }

/-- **Two sessions on a wire**: whatever steps were made, the next one fails at most because it sends
from outside before the session is open, and then nothing happens, so all that was sent was queued;
each side was handed a beginning of what the other one sent, in its order and in canonical form; and
when nothing is on its way any more, the hands are shaken on both sides. -/
theorem reachable_delivers (h : Reachable network l) :
    (∀ (side : Side) (e : Event), e.Allowed →
      (l.step side e).1 = .ok () ∨
        (l.step side e).1 = .error .notConnected ∧ (l.step side e).2 = l) ∧
    l.left.delivered <+: l.right.sent.map Message.canon ∧
    l.right.delivered <+: l.left.sent.map Message.canon ∧
    (l.Quiet → ShookHands l.left ∧ ShookHands l.right) := by
  have hlinked := h.linked
  refine ⟨fun side e he => (hlinked.step side he).1, hlinked.toLeft.prefix_of,
    hlinked.toRight.prefix_of, fun hquiet => ?_⟩
  refine ⟨hlinked.shookHands hquiet, hlinked.mirror.shookHands ?_⟩
  exact ⟨hquiet.toRight, hquiet.toLeft, hquiet.sendBuffers.symm, hquiet.receiveBuffers.symm⟩

/-- A whole handshake, with a message from outside in between: writes and reads end inside the version
messages, and the confirmations cross. -/
def handshake : Link :=
  let peer : SocketAddress := { ip := .unspecified, port := 18444 }
  let fresh : Freshness := { time := 0, nonce := 1, associationId := .random (Octets.zero 16) }
  (start .regtest (peer, peer) (fresh, fresh) (0, 0)).run
    [(.left, .pass 1 8192 1000 []), (.right, .pass 2 5 100 [5, 3, 1000]),
      (.right, .pass 3 5 0 [1000]), (.right, .say 4 .mempool), (.left, .pass 5 8192 0 [1000]),
      (.right, .pass 6 8192 1000 []), (.left, .pass 7 8192 7 [1000]),
      (.left, .pass 8 8192 1000 []), (.right, .pass 9 8192 0 [1000])]

/-- It ends when all is handed on: a version message, a confirmation, a configuration and the message
from outside. -/
theorem handshake_settles :
    handshake.toLeft = [] ∧ handshake.toRight = [] ∧
      (handshake.left.conn.sendBuffer = [] ∧ handshake.right.conn.sendBuffer = []) ∧
      (handshake.left.conn.receiveBuffer = [] ∧ handshake.right.conn.receiveBuffer = []) ∧
      handshake.left.delivered.length = 4 := by
  decide +kernel

theorem reachable_handshake : Reachable .regtest handshake := by
  refine (Reachable.start _ _ _).run fun step hstep => ?_
  simp only [List.mem_cons, List.not_mem_nil, or_false] at hstep
  obtain rfl | rfl | rfl | rfl | rfl | rfl | rfl | rfl | rfl := hstep
  case inr.inr.inr.inl => exact ⟨by decide, by decide, trivial, Nat.zero_le _⟩
  all_goals trivial

theorem reachable_delivers_handshake :
    Reachable .regtest handshake ∧ handshake.Quiet ∧ handshake.left.delivered.length = 4 ∧
      handshake.left.delivered <+: handshake.right.sent.map Message.canon ∧
      ShookHands handshake.left ∧ ShookHands handshake.right := by
  obtain ⟨htoLeft, htoRight, hsend, hreceive, hcount⟩ := handshake_settles
  have hquiet : handshake.Quiet := ⟨htoLeft, htoRight, hsend, hreceive⟩
  obtain ⟨-, hdelivered, -, hshook⟩ := reachable_delivers reachable_handshake
  exact ⟨reachable_handshake, hquiet, hcount, hdelivered, hshook hquiet⟩

end Link

end BitcoinPeer
