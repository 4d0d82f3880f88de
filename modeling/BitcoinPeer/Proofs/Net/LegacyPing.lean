import BitcoinPeer.Proofs.Net.Inputs
import BitcoinPeer.Proofs.Net.Queue

/-!
# Ping nonces and the version agreed on

A peer of version 60000 or lower knows no ping nonces. Two places keep account of this: a message
that announces such a version sets a flag of the codec when it is taken note of, and its handler
settles the version for sending. What both come to after any messages follows from the versions
announced (`legacyPing_foldl_follow`, `sendVersion_foldl_follow`): the version for sending goes by
the last one, but the flag, once set, stays. So pings are treated by the version agreed on
(`PingsByVersion`) exactly as long as no peer that once announced a version without nonces ends on
one that has them.
-/

namespace BitcoinPeer

/-- The versions that messages announce, the oldest first. -/
def announced (ms : List Message) : List Int32 :=
  ms.filterMap fun
    | .version v => some v.version
    | _ => none

theorem announced_version (v : VersionMessage) (ms : List Message) :
    announced (.version v :: ms) = v.version :: announced ms :=
  rfl

namespace FrameCodec

variable {c writer : FrameCodec} {m : Message} {ms : List Message}

/-! ### What messages do to the codec -/

/-- The codec after a message was taken note of and handled. -/
def follow (c : FrameCodec) (m : Message) : FrameCodec :=
  (c.heard m).agreed m

/-- Only a message that settles nothing may have answers that are too large. -/
theorem agreed_eq_or_size (m : Message) :
    (∀ c : FrameCodec, c.agreed m = c) ∨
      ∀ c : FrameCodec, ∀ r ∈ c.replies m, r.encodePayload.length ≤ maxPayload := by
  cases m with
  | version v =>
    right
    intro c r hr
    simp only [replies] at hr
    split_ifs at hr
    · rcases List.mem_pair.mp hr with rfl | rfl
      · decide
      · decide +kernel
    · exact absurd hr List.not_mem_nil
  | verack => exact .inr fun c r hr => absurd hr List.not_mem_nil
  | _ => exact .inl fun c => rfl

theorem legacyPing_follow_version (c : FrameCodec) (v : VersionMessage) :
    (c.follow (.version v)).legacyPing = true ↔
      v.version ≤ legacyPingVersion ∨ c.legacyPing = true := by
  rw [follow, legacyPing_agreed, heard]
  split_ifs with h
  · simp [h]
  · simp [h]

/-- **The flag**: it is set for good by any version without ping nonces. -/
theorem legacyPing_foldl_follow (c : FrameCodec) (ms : List Message) :
    (ms.foldl follow c).legacyPing = true ↔
      c.legacyPing = true ∨ ∃ v ∈ announced ms, v ≤ legacyPingVersion := by
  induction ms generalizing c with
  | nil => simp [announced]
  | cons m ms ih =>
    rw [List.foldl_cons, ih]
    cases m with
    | version v =>
      rw [legacyPing_follow_version, announced_version]
      simp only [List.mem_cons, exists_eq_or_imp]
      tauto
    | _ => exact Iff.rfl

/-- **The version**: it goes by the last one announced. -/
theorem sendVersion_foldl_follow (c : FrameCodec) (ms : List Message) :
    (ms.foldl follow c).sendVersion = (announced ms).getLast?.elim c.sendVersion lowerVersion := by
  induction ms generalizing c with
  | nil => rfl
  | cons m ms ih =>
    rw [List.foldl_cons, ih]
    cases m with
    | version v =>
      rw [announced_version, List.getLast?_cons]
      cases (announced ms).getLast? <;> rfl
    | _ => rfl

/-- Our own version has ping nonces, so whether there are any is up to the peer's. -/
theorem lowerVersion_le_iff (v : Int32) :
    lowerVersion v ≤ legacyPingVersion ↔ v ≤ legacyPingVersion := by
  unfold lowerVersion
  split_ifs with h
  · exact Iff.rfl
  · apply iff_of_false (by decide)
    intro hle
    exact h (Int32.lt_of_le_of_lt hle (by decide))

theorem heard_of_command_ne (c : FrameCodec) (h : m.command ≠ "version") : c.heard m = c := by
  cases m with
  | version v => exact absurd rfl h
  | _ => rfl

/-- What a ping with a nonce is read as. -/
def readPing (c : FrameCodec) (n : UInt64) : Message :=
  .ping (if c.legacyPing then none else some n)

theorem decode_ping (h : c.Understands writer) (n : UInt64) (rest : Bytes) :
    c.decode (writer.frameOf (.ping (some n)) ++ rest) = (.ok (some (c.readPing n)), rest) := by
  have hsize : (Message.ping (some n)).encodePayload.length ≤ maxPayload := by
    simp [Message.encodePayload, maxPayload]
  apply decode_frame h (command_mem _) hsize
  rw [readPing]
  cases c.legacyPing with
  | false =>
    have hfits : (Message.ping (some n)).Fits := trivial
    exact Message.decodePayload_of_readable hfits rfl
  | true => rfl

theorem replies_readPing (h : legacyPingVersion < c.sendVersion) (n : UInt64) :
    c.replies (c.readPing n) = [.pong (if c.legacyPing then 0 else n)] := by
  rw [readPing, replies, if_pos h]
  cases c.legacyPing <;> rfl

end FrameCodec

namespace Session

variable {s t : Session} {writer : FrameCodec} {now : Instant} {m : Message}

/-! ### What messages do to a session -/

/-- The session is open, and its handlers are the usual ones. -/
structure Ready (s : Session) : Prop where
  state : s.conn.state = .connected
  usual : s.handlers = Handlers.usual

/-- Messages are handled one after the other, each at its time, whether or not one fails. -/
def deliverAll (ms : List (Instant × Message)) (s : Session) : Session :=
  ms.foldl (fun s m => (s.deliver m.1 m.2).2) s

theorem Ready.deliver (h : s.Ready) (now : Instant) (m : Message) : (s.deliver now m).2.Ready := by
  have hsteady : s.handlers.Steady := h.usual.symm ▸ Handlers.steady_usual
  have hgoes : s.GoesOn (s.deliver now m).2 := GoesOn.deliver hsteady rfl
  exact ⟨hgoes.state.trans h.state, hgoes.handlers.trans h.usual⟩

/-- One message: the codec follows it, even if an answer to it cannot be sent. -/
theorem codec_deliver (h : s.Ready) (now : Instant) (m : Message) :
    (s.deliver now m).2.conn.codec = s.conn.codec.follow m := by
  rcases FrameCodec.agreed_eq_or_size m with hsame | hsize
  · have htook := deliver_took h.usual now m
    rw [FrameCodec.follow, hsame]
    generalize s.deliver now m = r at htook
    cases htook with
    | refused sends =>
      obtain ⟨sendBuffer, lastSent, log, rfl⟩ := sends
      rfl
    | handed _ _ _ codec _ =>
      rcases codec with hheard | hagreed
      · exact hheard
      · rw [hagreed, hsame]
  · rw [deliver_of_size h.state h.usual (hsize _)]
    rfl

theorem ready_deliverAll (h : s.Ready) (ms : List (Instant × Message)) :
    (s.deliverAll ms).Ready := by
  induction ms generalizing s with
  | nil => exact h
  | cons m ms ih => exact ih (h.deliver m.1 m.2)

theorem codec_deliverAll (h : s.Ready) (ms : List (Instant × Message)) :
    (s.deliverAll ms).conn.codec = (ms.map Prod.snd).foldl FrameCodec.follow s.conn.codec := by
  induction ms generalizing s with
  | nil => rfl
  | cons m ms ih =>
    rw [List.map_cons, List.foldl_cons, ← codec_deliver h m.1 m.2]
    exact ih (h.deliver m.1 m.2)

/-! ### Pings -/

/-- A ping with a nonce is answered, if the version agreed on has nonces; with its nonce, unless the
peer is noted for knowing none. -/
theorem react_ping (h : s.Ready) (hwriter : s.conn.codec.Understands writer)
    (hversion : legacyPingVersion < s.conn.codec.sendVersion) (n : UInt64) (rest : Bytes)
    (now : Instant) :
    ∃ t, (s.leave (writer.frameOf (.ping (some n)) ++ rest)).react (.next now) = (.ok (), t) ∧
      t.conn.sendBuffer = s.conn.sendBuffer ++
        (s.duePings now ++ [Message.pong (if s.conn.codec.legacyPing then 0 else n)]).flatMap
          s.conn.codec.frameOf := by
  have hread : (s.leave (writer.frameOf (.ping (some n)) ++ rest)).conn.codec.decode
      (s.leave (writer.frameOf (.ping (some n)) ++ rest)).conn.receiveBuffer =
        (.ok (some (s.conn.codec.readPing n)), rest) := FrameCodec.decode_ping hwriter n rest
  have hreplies := FrameCodec.replies_readPing hversion n
  have hsize : ∀ r ∈ s.conn.codec.replies (s.conn.codec.readPing n),
      r.encodePayload.length ≤ FrameCodec.maxPayload := by
    simp [hreplies, Message.encodePayload, FrameCodec.maxPayload]
  have hdeliver : (s.leave rest).deliver now (s.conn.codec.readPing n) =
      (.ok (), (s.leave rest).served now (s.conn.codec.readPing n)) :=
    deliver_of_size (s := s.leave rest) h.state h.usual hsize
  rw [react_next, hread]
  refine ⟨_, hdeliver, ?_⟩
  rw [sendBuffer_served, show (s.leave rest).conn.codec = s.conn.codec from rfl, hreplies]
  rfl

/-- A message other than a version message is taken note of with the ping that is due. -/
theorem gotMessage_duePing (h : s.Ready) (hdue : s.conn.keepaliveDue now = true)
    (hm : m.command ≠ "version") :
    ∃ t, s.act (Connection.gotMessage now m) = (.ok (), t) ∧
      t.conn.sendBuffer = s.conn.sendBuffer ++ s.conn.codec.frameOf s.conn.codec.duePing := by
  refine ⟨_, act_gotMessage_of_connected h.state m, ?_⟩
  have hpings : (s.setCodec s.conn.codec).duePings now = [s.conn.codec.duePing] := if_pos hdue
  rw [FrameCodec.heard_of_command_ne _ hm, hpings]
  simp [report, queueAll, setCodec]

/-- Pings go by the version agreed on: a peer is noted for knowing no nonces exactly if that version
has none; if it has them, a ping with a nonce is answered with it; and a ping that is due when a
message arrives that is no version message has a nonce exactly if that version has them. -/
structure PingsByVersion (s : Session) : Prop where
  flag : s.conn.codec.legacyPing = true ↔ s.conn.codec.sendVersion ≤ legacyPingVersion
  answered : legacyPingVersion < s.conn.codec.sendVersion →
    ∀ (writer : FrameCodec) (n : UInt64) (rest : Bytes) (now : Instant),
      s.conn.codec.Understands writer →
      ∃ t, (s.leave (writer.frameOf (.ping (some n)) ++ rest)).react (.next now) = (.ok (), t) ∧
        t.conn.sendBuffer = s.conn.sendBuffer ++
          (s.duePings now ++ [Message.pong n]).flatMap s.conn.codec.frameOf
  keepalive : ∀ (now : Instant) (m : Message), m.command ≠ "version" →
    s.conn.keepaliveDue now = true →
    ∃ t, s.act (Connection.gotMessage now m) = (.ok (), t) ∧
      t.conn.sendBuffer = s.conn.sendBuffer ++ s.conn.codec.frameOf
        (.ping (if legacyPingVersion < s.conn.codec.sendVersion then some 0 else none))

/-- It is enough that the flag goes by the version. -/
theorem Ready.pingsByVersion_iff (h : s.Ready) :
    s.PingsByVersion ↔
      (s.conn.codec.legacyPing = true ↔ s.conn.codec.sendVersion ≤ legacyPingVersion) := by
  constructor
  · exact PingsByVersion.flag
  · intro hflag
    refine ⟨hflag, fun hversion writer n rest now hwriter => ?_, fun now m hm hdue => ?_⟩
    · have hnonces : s.conn.codec.legacyPing = false := by
        rw [← Bool.not_eq_true, hflag, Int32.not_le]
        exact hversion
      have hanswer := react_ping h hwriter hversion n rest now
      rwa [hnonces] at hanswer
    · have hping : s.conn.codec.duePing =
          .ping (if legacyPingVersion < s.conn.codec.sendVersion then some 0 else none) := by
        rw [FrameCodec.duePing]
        congr 1
        by_cases hversion : legacyPingVersion < s.conn.codec.sendVersion
        · rw [if_pos hversion, if_neg (by rwa [hflag, Int32.not_le])]
        · rw [if_neg hversion, if_pos (by rwa [hflag, ← Int32.not_lt])]
      rw [← hping]
      exact gotMessage_duePing h hdue hm

/-- **Pings by the last version**: after messages with at least one version message among them, a
peer is noted for knowing no ping nonces if it was before or any of the versions has none, and the
version agreed on goes by the last one. So pings go by the version agreed on, unless there is a
version without nonces before one that has them. -/
theorem pingsByVersion_deliverAll (h : s.Ready) (ms : List (Instant × Message)) {v : Int32}
    (hlast : (announced (ms.map Prod.snd)).getLast? = some v) :
    let bare := s.conn.codec.legacyPing = true ∨
      ∃ w ∈ announced (ms.map Prod.snd), w ≤ legacyPingVersion
    ((s.deliverAll ms).conn.codec.legacyPing = true ↔ bare) ∧
      (s.deliverAll ms).conn.codec.sendVersion = FrameCodec.lowerVersion v ∧
      ((s.deliverAll ms).PingsByVersion ↔ (bare → v ≤ legacyPingVersion)) := by
  intro bare
  have hflag : (s.deliverAll ms).conn.codec.legacyPing = true ↔ bare := by
    rw [codec_deliverAll h, FrameCodec.legacyPing_foldl_follow]
  have hversion : (s.deliverAll ms).conn.codec.sendVersion = FrameCodec.lowerVersion v := by
    rw [codec_deliverAll h, FrameCodec.sendVersion_foldl_follow, hlast]
    rfl
  refine ⟨hflag, hversion, ?_⟩
  rw [(ready_deliverAll h ms).pingsByVersion_iff, hflag, hversion, FrameCodec.lowerVersion_le_iff]
  constructor
  · exact Iff.mp
  · intro hbare
    refine ⟨hbare, fun hv => .inr ⟨v, ?_, hv⟩⟩
    exact List.mem_of_getLast? hlast

/-- A peer that announces one version, with ping nonces. -/
theorem pingsByVersion_deliverAll_once :
    let peer : SocketAddress := { ip := .unspecified, port := 18444 }
    let fresh : Freshness := { time := 0, nonce := 1, associationId := .random (Octets.zero 16) }
    let s : Session :=
      { conn := (Connection.new peer (.forNetwork .regtest) fresh 0).handleConnect.2 }
    let version : Message := .version {
      version := 70013, services := Services.network, time := 0, receiver := {} }
    let ms : List (Instant × Message) := [(0, version), (1, .verack)]
    s.Ready ∧ (announced (ms.map Prod.snd)).getLast? = some 70013 ∧
      (s.deliverAll ms).conn.codec.sendVersion = 70013 ∧ (s.deliverAll ms).PingsByVersion := by
  intro peer fresh s version ms
  have hready : s.Ready := ⟨by decide +kernel, rfl⟩
  have hlast : (announced (ms.map Prod.snd)).getLast? = some 70013 := rfl
  obtain ⟨-, hversion, hpings⟩ := pingsByVersion_deliverAll hready ms hlast
  refine ⟨hready, hlast, hversion, hpings.mpr fun hbare => ?_⟩
  rcases hbare with hbefore | ⟨w, hw, hle⟩
  · exact absurd hbefore (by decide +kernel)
  · obtain rfl := List.mem_singleton.mp hw
    exact absurd hle (by decide)

/-- A peer that announces version 60000 and then version 70015 is still noted for knowing no ping
nonces, so its ping with a nonce is answered without it. -/
theorem not_pingsByVersion_deliverAll_newer :
    let peer : SocketAddress := { ip := .unspecified, port := 18444 }
    let fresh : Freshness := { time := 0, nonce := 1, associationId := .random (Octets.zero 16) }
    let s : Session :=
      { conn := (Connection.new peer (.forNetwork .regtest) fresh 0).handleConnect.2 }
    let version (n : Int32) : Message := .version {
      version := n, services := Services.network, time := 0, receiver := {} }
    let ms : List (Instant × Message) := [(0, version 60000), (1, version 70015)]
    let ping := (FrameCodec.ofNetwork .regtest).frameOf (.ping (some 7))
    s.Ready ∧ (s.deliverAll ms).conn.codec.sendVersion = 70015 ∧
      ¬((s.deliverAll ms).conn.codec.legacyPing = true ↔
        (s.deliverAll ms).conn.codec.sendVersion ≤ legacyPingVersion) ∧
      ∃ t, ((s.deliverAll ms).leave ping).react (.next 2) = (.ok (), t) ∧
        t.conn.sendBuffer = (s.deliverAll ms).conn.sendBuffer ++
          (s.deliverAll ms).conn.codec.frameOf (.pong 0) := by
  intro peer fresh s version ms ping
  have hready : s.Ready := ⟨by decide +kernel, rfl⟩
  have hfollow : (ms.map Prod.snd).foldl FrameCodec.follow s.conn.codec =
      { FrameCodec.ofNetwork .regtest with sendVersion := 70015, legacyPing := true } := by
    decide +kernel
  have hdue : (s.deliverAll ms).conn.keepaliveDue 2 = false := by decide +kernel
  have hall := ready_deliverAll hready ms
  have hcodec := (codec_deliverAll hready ms).trans hfollow
  generalize s.deliverAll ms = t at hall hcodec hdue ⊢
  have hversion : t.conn.codec.sendVersion = 70015 := by rw [hcodec]
  have hlegacy : t.conn.codec.legacyPing = true := by rw [hcodec]
  have hnonces : legacyPingVersion < t.conn.codec.sendVersion := by
    rw [hversion]
    decide
  have hdiffer : ¬(t.conn.codec.legacyPing = true ↔
      t.conn.codec.sendVersion ≤ legacyPingVersion) := by
    rw [hlegacy, hversion]
    decide
  have hwriter : t.conn.codec.Understands (FrameCodec.ofNetwork .regtest) := by
    rw [hcodec]
    exact ⟨rfl, rfl, by decide⟩
  obtain ⟨u, hu, hsent⟩ := react_ping hall hwriter hnonces 7 [] 2
  rw [List.append_nil] at hu
  have hquiet : t.duePings 2 = [] := if_neg (Bool.eq_false_iff.mp hdue)
  have hanswer : u.conn.sendBuffer = t.conn.sendBuffer ++ t.conn.codec.frameOf (.pong 0) := by
    rw [hsent, hquiet, hlegacy]
    simp
  exact ⟨hready, hversion, hdiffer, u, hu, hanswer⟩

end Session

end BitcoinPeer
