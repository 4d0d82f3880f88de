import BitcoinPeer.Proofs.Net.Checksum
import BitcoinPeer.Proofs.Net.Inputs
import BitcoinPeer.Proofs.Net.Queue
import Mathlib.Data.List.Induction

/-!
# What a session takes for a message

Which fields a frame has depends on a version that the peer changes in between, so the invariant is
about the versions and the bytes together (`Vouched`): as long as no version of the peer is below
the first one, frames have checksums at every moment, and every message that was handed on came from
a frame whose checksum is right.
-/

namespace BitcoinPeer

/-! ### The versions -/

/-- What a step does to the versions: the one for sending stays in bounds, and the one for receiving
is kept or follows it. -/
structure FrameCodec.Settles (c c' : FrameCodec) : Prop where
  magic : c'.magic = c.magic
  send : c'.sendVersion = c.sendVersion ∨
    initialVersion ≤ c'.sendVersion ∧ c'.sendVersion ≤ protocolVersion
  recv : c'.recvVersion = c.recvVersion ∨ c'.recvVersion = c.sendVersion

namespace FrameCodec.Settles

variable {c : FrameCodec} {m : Message}

theorem refl (c : FrameCodec) : c.Settles c := ⟨rfl, .inl rfl, .inl rfl⟩

theorem heard (c : FrameCodec) (m : Message) : c.Settles (c.heard m) := by
  unfold FrameCodec.heard
  split
  · split <;> exact ⟨rfl, .inl rfl, .inl rfl⟩
  · exact refl c

theorem lowerVersion_mem {version : Int32} (h : initialVersion ≤ version) :
    initialVersion ≤ lowerVersion version ∧ lowerVersion version ≤ protocolVersion := by
  unfold lowerVersion
  split
  case isTrue hlower => exact ⟨h, Int32.le_of_lt hlower⟩
  case isFalse => exact ⟨by decide, Int32.le_refl _⟩

/-- A message may change the versions, unless it is a version message below the first version. -/
theorem agreed (hm : ∀ v, m = .version v → initialVersion ≤ v.version) :
    c.Settles ((c.heard m).agreed m) := by
  obtain ⟨hmagic, -, -⟩ := heard c m
  cases m with
  | version v =>
    have hv := hm v rfl
    have hnot : ¬v.version < initialVersion := Int32.not_lt.mpr hv
    refine ⟨(magic_agreed _ _).trans hmagic, .inr (lowerVersion_mem hv), .inl ?_⟩
    simp only [FrameCodec.agreed, if_neg hnot, FrameCodec.heard]
    split <;> rfl
  | verack => exact ⟨rfl, .inl rfl, .inr rfl⟩
  | _ => exact refl c

end FrameCodec.Settles

namespace Session

variable {s t : Session} {now : Instant} {m : Message}

/-! ### What one input does -/

/-- All that an input can do to a session whose frames have a checksum. Either no message is handed
on, and what arrived is put behind the unread bytes unless there is an error. Or a message is handed
on, with its frame taken from the front of the unread bytes. -/
inductive Reacts (i : Input) (s : Session) : Except ConnectionError Unit × Session → Prop
  | keeps {r : Except ConnectionError Unit} {t : Session} (handlers : t.handlers = s.handlers)
      (calls : t.calls = s.calls) (tracker : t.tracker = s.tracker)
      (codec : t.conn.codec = s.conn.codec ∨ ∃ m, t.conn.codec = s.conn.codec.heard m)
      (unread : r = .ok () → t.conn.receiveBuffer = s.conn.receiveBuffer ++ i.arrived) :
      Reacts i s (r, t)
  | hands {now : Instant} {m : Message} {f : RawFrame} {r : Except ConnectionError Unit}
      {t : Session} (handlers : t.handlers = s.handlers) (carries : f.Carries m)
      (calls : t.calls = s.calls ++ [.message m]) (tracker : t.tracker = s.tracker.record now m)
      (codec : t.conn.codec = s.conn.codec.heard m ∨
        t.conn.codec = (s.conn.codec.heard m).agreed m)
      (unread : s.conn.receiveBuffer = f.bytes s.conn.codec.magic ++ t.conn.receiveBuffer)
      (arrived : i.arrived = []) : Reacts i s (r, t)

theorem react_reacts (h : s.handlers = Handlers.usual) (hmagic : s.conn.codec.magic.length = 4)
    (hversion : FrameCodec.checksumVersion ≤ s.conn.codec.recvVersion) (i : Input) :
    Reacts i s (s.react i) := by
  cases i with
  | bytes bs => exact .keeps rfl rfl rfl (.inl rfl) fun _ => rfl
  | say now m =>
    obtain ⟨sendBuffer, lastSent, log, hsend⟩ := Sends.send now m false s
    show Reacts _ s (.ok (), (s.act (Connection.send now m false)).2)
    rw [hsend]
    exact .keeps rfl rfl rfl (.inl rfl) fun _ => (List.append_nil _).symm
  | written n => exact .keeps rfl rfl rfl (.inl rfl) fun _ => (List.append_nil _).symm
  | next now =>
    rw [react_next]
    rcases hdecode : s.conn.codec.decode s.conn.receiveBuffer with ⟨e | _ | m, rest⟩
    · refine .keeps ?_ ?_ ?_ (.inl ?_) nofun <;> cases e <;> rfl
    · refine .keeps rfl rfl rfl (.inl rfl) fun _ => ?_
      rw [FrameCodec.rest_of_decode_none hdecode]
      exact (List.append_nil _).symm
    · obtain ⟨f, hbuffer, hcarries⟩ := RawFrame.exists_carries_of_decode hmagic hversion hdecode
      have htook := deliver_took (s := s.leave rest) h now m
      show Reacts _ s ((s.leave rest).deliver now m)
      rcases hdeliver : (s.leave rest).deliver now m with ⟨r, t⟩
      rw [hdeliver] at htook
      cases htook with
      | refused sends =>
        obtain ⟨sendBuffer, lastSent, log, rfl⟩ := sends
        exact .keeps rfl rfl rfl (.inr ⟨m, rfl⟩) nofun
      | handed handlers calls tracker codec unread =>
        have hunread := hbuffer.trans (congrArg _ unread.symm)
        exact .hands handlers hcarries calls tracker codec hunread rfl

/-! ### What holds at every moment -/

/-- What is known of the versions after some inputs: the one for receiving is the first version or
one that was used for sending after some of these inputs, and frames have a checksum either way. -/
structure Versions (start : Session) (inputs : List Input) (c : FrameCodec) : Prop where
  magic : c.magic = start.conn.codec.magic
  send : initialVersion ≤ c.sendVersion ∧ c.sendVersion ≤ protocolVersion
  recv : c.recvVersion = initialVersion ∨ ∃ earlier, earlier <+: inputs ∧
    c.recvVersion = (start.reactAll earlier).2.conn.codec.sendVersion
  checksums : FrameCodec.checksumVersion ≤ c.recvVersion

/-- What is known of a session after some inputs: its versions, which frames it was handed messages
from, and that the tracker was handed the same messages. -/
structure Vouched (start : Session) (inputs : List Input) (t : Session) : Prop where
  usual : t.handlers = Handlers.usual
  versions : Versions start inputs t.conn.codec
  frames : ∃ (frames : List RawFrame) (rest : Bytes),
    List.Forall₂ RawFrame.Carries frames t.delivered ∧
      arrived inputs = frames.flatMap (RawFrame.bytes start.conn.codec.magic) ++ rest ∧
      ((start.reactAll inputs).1 = .ok () → rest = t.conn.receiveBuffer)
  tracker : ∃ records : List (Instant × Message), records.map Prod.snd = t.delivered ∧
    t.tracker = records.foldl (fun tracker r => tracker.record r.1 r.2) start.tracker

section
variable {start : Session} {inputs : List Input}

theorem Versions.mono {c : FrameCodec} (hc : Versions start inputs c) (more : List Input) :
    Versions start (inputs ++ more) c := by
  refine ⟨hc.magic, hc.send, ?_, hc.checksums⟩
  rcases hc.recv with hfirst | ⟨earlier, hearlier, hrecv⟩
  · exact .inl hfirst
  · exact .inr ⟨earlier, hearlier.trans (List.prefix_append _ _), hrecv⟩

theorem Versions.settle {c' : FrameCodec}
    (hc : Versions start inputs (start.reactAll inputs).2.conn.codec)
    (hsettles : (start.reactAll inputs).2.conn.codec.Settles c') (more : List Input) :
    Versions start (inputs ++ more) c' := by
  refine ⟨hsettles.magic.trans hc.magic, ?_, ?_, ?_⟩
  · rcases hsettles.send with hkept | hbounds
    · rw [hkept]
      exact hc.send
    · exact hbounds
  · rcases hsettles.recv with hkept | hfollows
    · rw [hkept]
      exact (hc.mono more).recv
    · exact .inr ⟨inputs, List.prefix_append _ _, hfollows⟩
  · rcases hsettles.recv with hkept | hfollows
    · rw [hkept]
      exact hc.checksums
    · rw [hfollows]
      exact hc.send.1

end

/-- The versions delivered are none below the first. -/
def NoEarlyVersion (s : Session) : Prop :=
  ∀ v, .version v ∈ s.delivered → initialVersion ≤ v.version

theorem arrived_concat (inputs : List Input) (i : Input) :
    arrived (inputs ++ [i]) = arrived inputs ++ i.arrived := by
  simp [arrived]

theorem delivered_of_calls (ms : List Message) (h : t.calls = s.calls ++ ms.map .message) :
    t.delivered = s.delivered ++ ms := by
  unfold delivered
  rw [h, List.filterMap_append, List.filterMap_map]
  exact congrArg _ (List.filterMap_some)

namespace Vouched

variable {start : Session} {inputs : List Input}

/-- An input that comes after an error changes nothing. -/
theorem idle (ht : Vouched start inputs t) {e : ConnectionError}
    (herror : (start.reactAll inputs).1 = .error e) (i : Input) :
    Vouched start (inputs ++ [i]) t := by
  obtain ⟨frames, rest, hcarries, harrived, -⟩ := ht.frames
  have hstill : start.reactAll (inputs ++ [i]) = start.reactAll inputs := by
    rw [reactAll_append]
    rcases hresult : start.reactAll inputs with ⟨_ | _, u⟩
    · rfl
    · rw [hresult] at herror
      cases herror
  refine ⟨ht.usual, ht.versions.mono [i], ⟨frames, rest ++ i.arrived, hcarries, ?_, ?_⟩, ht.tracker⟩
  · rw [arrived_concat, harrived, List.append_assoc]
  · rw [hstill, herror]
    exact nofun

/-- An input that is taken. -/
theorem react (ht : Vouched start inputs t) (hok : start.reactAll inputs = (.ok (), t))
    (hmagic : start.conn.codec.magic.length = 4) {i : Input}
    (hearly : (t.react i).2.NoEarlyVersion) : Vouched start (inputs ++ [i]) (t.react i).2 := by
  obtain ⟨frames, rest, hcarries, harrived, hunread⟩ := ht.frames
  obtain ⟨records, hrecords, htracker⟩ := ht.tracker
  have hreacts := react_reacts ht.usual (ht.versions.magic ▸ hmagic) ht.versions.checksums i
  have hrest : rest = t.conn.receiveBuffer := hunread (congrArg Prod.fst hok)
  have hall : start.reactAll (inputs ++ [i]) = t.react i := by
    rw [reactAll_append, hok, andThen_ok]
    exact andThen_pure _
  have hsettle {c' : FrameCodec} (hsettles : t.conn.codec.Settles c') :
      Versions start (inputs ++ [i]) c' := by
    refine Versions.settle ?_ ?_ [i]
    · rw [hok]
      exact ht.versions
    · rw [hok]
      exact hsettles
  rcases hresult : t.react i with ⟨r, u⟩
  rw [hresult] at hreacts hearly hall
  cases hreacts with
  | keeps handlers calls tracker codec unread =>
    have hsettles : t.conn.codec.Settles u.conn.codec := by
      rcases codec with hsame | ⟨m, hheard⟩
      · exact hsame ▸ .refl _
      · exact hheard ▸ .heard _ m
    have hdelivered : u.delivered = t.delivered := by rw [delivered, calls, ← delivered]
    refine ⟨handlers.trans ht.usual, hsettle hsettles,
      ⟨frames, rest ++ i.arrived, hdelivered ▸ hcarries, ?_, ?_⟩,
      ⟨records, hdelivered ▸ hrecords, tracker.trans htracker⟩⟩
    · rw [arrived_concat, harrived, List.append_assoc]
    · intro hr
      rw [hall] at hr
      rw [hrest]
      exact (unread hr).symm
  | @hands now m f r u handlers carries calls tracker codec unread arrived =>
    have hdelivered : u.delivered = t.delivered ++ [m] := delivered_of_calls [m] calls
    have hsettles : t.conn.codec.Settles u.conn.codec := by
      rcases codec with hheard | hagreed
      · exact hheard ▸ .heard _ m
      · refine hagreed ▸ .agreed fun v hv => hearly v ?_
        rw [hdelivered, hv]
        exact List.mem_append_right _ List.mem_cons_self
    refine ⟨handlers.trans ht.usual, hsettle hsettles,
      ⟨frames ++ [f], u.conn.receiveBuffer, ?_, ?_, fun _ => rfl⟩, ⟨records ++ [(now, m)], ?_, ?_⟩⟩
    · rw [hdelivered]
      exact List.rel_append hcarries (.cons carries .nil)
    · rw [arrived_concat, arrived, harrived, hrest, unread, ht.versions.magic]
      simp
    · rw [hdelivered, List.map_append, hrecords]
      rfl
    · rw [tracker, htracker, List.foldl_append]
      rfl

end Vouched

/-- A session that has received nothing, with the usual handlers and the first versions. -/
structure Unheard (start : Session) : Prop where
  usual : start.handlers = Handlers.usual
  magic : start.conn.codec.magic.length = 4
  versions : start.conn.codec.sendVersion = initialVersion ∧
    start.conn.codec.recvVersion = initialVersion
  unread : start.conn.receiveBuffer = []
  delivered : start.delivered = []

theorem GoesOn.react (hh : s.handlers.Steady) (i : Input) : s.GoesOn (s.react i).2 := by
  cases i with
  | bytes bs => exact of_conn rfl
  | say now m => exact act (steady_send now m false) s
  | written n => exact of_conn rfl
  | next now =>
    have hnext := act steady_nextMessage s
    show s.GoesOn (andThen (s.act Connection.nextMessage) _).2
    refine andThen_keeps s.GoesOn hnext fun m t ht => ?_
    cases m with
    | none => exact ht
    | some m => exact ht.trans (deliver (ht.handlers ▸ hh) rfl)

theorem GoesOn.reactAll (hh : s.handlers.Steady) (inputs : List Input) :
    s.GoesOn (s.reactAll inputs).2 := by
  induction inputs generalizing s with
  | nil => exact refl s
  | cons i inputs ih =>
    exact andThen_keeps s.GoesOn (react hh i) fun _ t ht => ht.trans (ih (ht.handlers ▸ hh))

theorem GoesOn.delivered_prefix (h : s.GoesOn t) : s.delivered <+: t.delivered := by
  obtain ⟨ms, hms⟩ := h.calls
  rw [delivered_of_calls ms hms]
  exact List.prefix_append _ _

/-- What is known of a session holds after every list of inputs. -/
theorem vouched_reactAll {start : Session} (hstart : start.Unheard) {inputs : List Input}
    (hearly : (start.reactAll inputs).2.NoEarlyVersion) :
    Vouched start inputs (start.reactAll inputs).2 := by
  have hsteady : start.handlers.Steady := hstart.usual ▸ Handlers.steady_usual
  induction inputs using List.reverseRecOn with
  | nil =>
    obtain ⟨husual, hmagic, ⟨hsend, hrecv⟩, hunread, hdelivered⟩ := hstart
    refine ⟨husual, ⟨rfl, ?_, .inl hrecv, ?_⟩,
      ⟨[], [], hdelivered ▸ .nil, rfl, fun _ => hunread.symm⟩, ⟨[], hdelivered.symm, rfl⟩⟩
    · show _ ≤ start.conn.codec.sendVersion ∧ start.conn.codec.sendVersion ≤ _
      rw [hsend]
      decide
    · show _ ≤ start.conn.codec.recvVersion
      rw [hrecv]
      decide
  | append_singleton inputs i ih =>
    have hgoes := GoesOn.reactAll hsteady inputs
    rw [reactAll_append] at hearly ⊢
    have hlater : (start.reactAll inputs).2.GoesOn
        (andThen (start.reactAll inputs) fun _ t => t.reactAll [i]).2 := by
      refine andThen_keeps _ (.refl _) fun _ t ht => ht.trans (GoesOn.reactAll ?_ [i])
      exact (ht.handlers.trans hgoes.handlers) ▸ hsteady
    have ht := ih fun v hv => hearly v (hlater.delivered_prefix.subset hv)
    rcases hresult : start.reactAll inputs with ⟨e | _, t⟩ <;> rw [hresult] at ht hearly
    · exact ht.idle (congrArg Prod.fst hresult) i
    · have hone : andThen (t.react i) (fun _ u => (.ok (), u)) = t.react i := andThen_pure _
      rw [andThen_ok, reactAll]
      show Vouched _ _ (andThen (t.react i) fun _ u => (.ok (), u)).2
      have hearly' : (t.react i).2.NoEarlyVersion := by
        rw [← hone]
        exact hearly
      rw [hone]
      exact ht.react hresult hstart.magic hearly'

theorem unheard_new (peer : SocketAddress) (config : ConnectionConfig) (fresh : Freshness)
    (now : Instant) :
    let s : Session := { conn := Connection.new peer config fresh now }
    s.ensureOpen.Unheard ∧ s.ensureOpen.conn.codec.magic = config.network.magic := by
  intro s
  obtain ⟨associationId, sendBuffer, lastSent, log, hnew⟩ :=
    Connection.exists_new_eq peer config fresh now
  simp only [s, hnew]
  exact ⟨⟨rfl, config.network.magic_length, ⟨rfl, rfl⟩, rfl, rfl⟩, rfl⟩

/-- A whole frame with another checksum ends the delivery, and nothing else happens. -/
theorem feed_of_not_checks (h : s.handlers = Handlers.usual)
    (hmagic : s.conn.codec.magic.length = 4)
    (hversion : FrameCodec.checksumVersion ≤ s.conn.codec.recvVersion) {f : RawFrame}
    (hf : ¬f.Checks) {bs rest : Bytes}
    (hbuffer : s.conn.receiveBuffer ++ bs = f.bytes s.conn.codec.magic ++ rest) (now : Instant) :
    s.feed now bs = (.error .badChecksum, s.leave rest) := by
  have hdecode : (s.receive bs).conn.codec.decode (s.receive bs).conn.receiveBuffer =
      (.error .badChecksum, rest) := by
    show s.conn.codec.decode (s.conn.receiveBuffer ++ bs) = _
    rw [hbuffer]
    exact RawFrame.decode_of_not_checks hmagic hversion hf rest
  show (s.receive bs).processReceived now = _
  rw [processReceived_eq (s := s.receive bs) h, hdecode]
  rfl

/-- No message comes from a frame with another checksum, or from what is behind it. -/
theorem Vouched.length_delivered_le {start : Session} {inputs : List Input}
    (ht : Vouched start inputs t) (hmagic : start.conn.codec.magic.length = 4) {f : RawFrame}
    (hf : ¬f.Checks) {before : List RawFrame} {rest : Bytes}
    (hbytes : arrived inputs = before.flatMap (RawFrame.bytes start.conn.codec.magic) ++
      (f.bytes start.conn.codec.magic ++ rest)) : t.delivered.length ≤ before.length := by
  obtain ⟨frames, unread, hcarries, harrived, -⟩ := ht.frames
  rw [← hcarries.length_eq]
  by_contra hmore
  have hle : (before ++ [f]).length ≤ frames.length := by
    rw [List.length_append, List.length_singleton]
    omega
  have hcut : frames.flatMap (RawFrame.bytes start.conn.codec.magic) ++ unread =
      (before ++ [f]).flatMap (RawFrame.bytes start.conn.codec.magic) ++ rest := by
    rw [← harrived, hbytes]
    simp
  have hmem : f ∈ frames := by
    refine List.mem_of_mem_take (i := (before ++ [f]).length) ?_
    rw [RawFrame.take_of_flatMap_append hmagic hle hcut]
    exact List.mem_append_right _ List.mem_cons_self
  obtain ⟨i, hi, rfl⟩ := List.getElem_of_mem hmem
  have hi' : i < t.delivered.length := hcarries.length_eq ▸ hi
  exact hf (hcarries.get hi hi').1

/-- **What a session is handed came from sound frames**. Reads in any pieces and at any times are
inputs one after the other. At every moment, as long as no version that was delivered is below the
first one, the version for sending is in bounds, and the one for receiving is the first one or one
that was used for sending; the messages that the handlers and the tracker were given came, in order,
from frames of the stream with the network's magic and the checksum of their payload; and a frame
with another checksum yields no message and ends the delivery. -/
theorem delivered_from_sound_frames (peer : SocketAddress) (config : ConnectionConfig)
    (fresh : Freshness) (now : Instant) :
    let s : Session := { conn := Connection.new peer config fresh now }
    let start := s.ensureOpen
    let magic := config.network.magic
    (∀ reads, ∃ inputs, start.feedAll reads = start.reactAll inputs ∧
      arrived inputs = (reads.map Prod.snd).flatten) ∧
    ∀ inputs, let t := (start.reactAll inputs).2
      (∀ v, .version v ∈ t.delivered → 209 ≤ v.version) →
        (209 ≤ t.conn.codec.sendVersion ∧ t.conn.codec.sendVersion ≤ 70015) ∧
        (t.conn.codec.recvVersion = 209 ∨ ∃ earlier, earlier <+: inputs ∧
          t.conn.codec.recvVersion = (start.reactAll earlier).2.conn.codec.sendVersion) ∧
        (∃ frames rest, List.Forall₂ RawFrame.Carries frames t.delivered ∧
          arrived inputs = frames.flatMap (RawFrame.bytes magic) ++ rest) ∧
        (∃ records : List (Instant × Message), records.map Prod.snd = t.delivered ∧
          t.tracker = records.foldl (fun tracker r => tracker.record r.1 r.2) start.tracker) ∧
        ∀ f : RawFrame, ¬f.Checks →
          (∀ (before : List RawFrame) rest, arrived inputs =
              before.flatMap (RawFrame.bytes magic) ++ (f.bytes magic ++ rest) →
            t.delivered.length ≤ before.length) ∧
          ∀ later bs rest, t.conn.receiveBuffer ++ bs = f.bytes magic ++ rest →
            t.feed later bs = (.error .badChecksum, t.leave rest) := by
  intro s start magic
  have hstart : start.Unheard := (unheard_new peer config fresh now).1
  have hmagic : start.conn.codec.magic = magic := (unheard_new peer config fresh now).2
  refine ⟨exists_feedAll_eq hstart.usual, fun inputs => ?_⟩
  intro t hearly
  have ht : Vouched start inputs t := vouched_reactAll hstart hearly
  obtain ⟨frames, rest, hcarries, harrived, -⟩ := ht.frames
  rw [hmagic] at harrived
  obtain ⟨hnetwork, hsend, hrecv, hchecksums⟩ := ht.versions
  refine ⟨hsend, hrecv, ⟨frames, rest, hcarries, harrived⟩, ht.tracker, fun f hf => ⟨?_, ?_⟩⟩
  · intro before rest hbytes
    rw [← hmagic] at hbytes
    exact ht.length_delivered_le hstart.magic hf hbytes
  · intro later bs rest hbuffer
    rw [← hmagic, ← hnetwork] at hbuffer
    exact feed_of_not_checks ht.usual (hnetwork ▸ hstart.magic) hchecksums hf hbuffer later

/-- A peer announces its version and confirms ours, and then sends a ping with a wrong
checksum. -/
theorem delivered_from_sound_frames_handshake :
    let peer : SocketAddress := { ip := .unspecified, port := 18444 }
    let fresh : Freshness := { time := 0, nonce := 1, associationId := .random (Octets.zero 16) }
    let s : Session := { conn := Connection.new peer (.forNetwork .regtest) fresh 0 }
    let start := s.ensureOpen
    let version : Message := .version {
      version := 70013, services := Services.network, time := 0, receiver := {} }
    let inputs : List Input := [
      .bytes (start.conn.codec.frameOf version ++ start.conn.codec.frameOf .verack),
      .next 0, .next 1]
    let ping : RawFrame := {
      command := ⟨FrameCodec.commandField "ping", FrameCodec.length_commandField "ping"⟩
      checksum := Octets.zero 4
      payload := Bytes.ofNatLE 8 7
      length_payload := by decide }
    let t := (start.reactAll inputs).2
    t.delivered = [version.canon, .verack] ∧ t.conn.codec.sendVersion = 70013 ∧
      t.conn.codec.recvVersion = 70013 ∧ ¬ping.Checks ∧
      t.feed 2 (ping.bytes Network.regtest.magic) = (.error .badChecksum, t.leave []) := by
  intro peer fresh s start version inputs ping t
  obtain ⟨hdelivered, hsend, hrecv, hread⟩ : t.delivered = [version.canon, .verack] ∧
      t.conn.codec.sendVersion = 70013 ∧ t.conn.codec.recvVersion = 70013 ∧
      t.conn.receiveBuffer = [] := by decide +kernel
  have hearly : ∀ v, .version v ∈ t.delivered → 209 ≤ v.version := by
    intro v hv
    rw [hdelivered] at hv
    rcases List.mem_cons.mp hv with hversion | hverack
    · obtain rfl := Message.version.inj hversion
      decide
    · cases List.mem_singleton.mp hverack
  have hping : ¬ping.Checks := by decide +kernel
  obtain ⟨-, hrun⟩ := delivered_from_sound_frames peer (.forNetwork .regtest) fresh 0
  obtain ⟨-, -, -, -, hwrong⟩ := hrun inputs hearly
  refine ⟨hdelivered, hsend, hrecv, hping, (hwrong ping hping).2 2 _ [] ?_⟩
  rw [hread, List.append_nil]
  rfl

end Session

end BitcoinPeer
