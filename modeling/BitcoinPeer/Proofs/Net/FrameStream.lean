import BitcoinPeer.Proofs.Net.Frame

/-!
# Frames one behind the other

The frames of several messages in one buffer are read one after another, each call taking exactly one
of them (`FrameCodec.Understands.decodeTimes_frames`, by induction on the messages with
`FrameCodec.decode_frame` as the step). A frame that has not arrived in full is left where it is
(`FrameCodec.Understands.decode_part`). All that is asked of the two versions is that both have checksums
or neither has.
-/

namespace BitcoinPeer.FrameCodec

variable {c writer : FrameCodec} {ms : List Message} {read : Message → Message}

/-- One call of the reader after another: what each of them gives, and what is left in the buffer. -/
def decodeTimes (c : FrameCodec) :
    Nat → Bytes → List (Except ConnectionError (Option Message)) × Bytes
  | 0, buffer => ([], buffer)
  | n + 1, buffer =>
    let (result, rest) := c.decode buffer
    let (results, left) := c.decodeTimes n rest
    (result :: results, left)

/-- A message has room in a frame, and its payload is read by its command as `m'`: as the message
itself or, where the wire has another form for it, as its canonical form. -/
structure Receives (c : FrameCodec) (m m' : Message) : Prop where
  size : m.encodePayload.length ≤ maxPayload
  read : Message.decodePayload c.legacyPing m.command m.encodePayload = .ok (some m')

theorem Receives.of_readable {m : Message} (hsize : m.encodePayload.length ≤ maxPayload)
    (hm : m.Readable c.legacyPing) : c.Receives m m.canon where
  size := hsize
  read := Message.decodePayload_of_readable
    (m.fits_of_length (Nat.le_trans hsize (by decide))) hm

/-! ### Writing -/

theorem mapM_encode (hsize : ∀ m ∈ ms, m.encodePayload.length ≤ maxPayload) :
    ms.mapM c.encode = .ok (ms.map c.frameOf) := by
  induction ms with
  | nil => rfl
  | cons m ms ih =>
    obtain ⟨hm, hms⟩ := List.forall_mem_cons.mp hsize
    rw [List.mapM_cons, encode_eq_ok_iff.mpr ⟨hm, rfl⟩, ih hms]
    rfl

/-! ### Reading -/

/-- So many calls read so many messages, and leave the frames of the others. -/
theorem Understands.decodeTimes_frames (h : c.Understands writer)
    (hms : ∀ m ∈ ms, c.Receives m (read m)) {calls : Nat} (hcalls : calls ≤ ms.length)
    (rest : Bytes) :
    c.decodeTimes calls (ms.flatMap writer.frameOf ++ rest) =
      ((ms.take calls).map fun m => .ok (some (read m)),
        (ms.drop calls).flatMap writer.frameOf ++ rest) := by
  induction ms generalizing calls with
  | nil =>
    obtain rfl := Nat.le_zero.mp hcalls
    rfl
  | cons m ms ih =>
    obtain ⟨hm, hms⟩ := List.forall_mem_cons.mp hms
    cases calls with
    | zero => rfl
    | succ calls =>
      have hfirst : c.decode (writer.frameOf m ++ (ms.flatMap writer.frameOf ++ rest)) =
          (.ok (some (read m)), ms.flatMap writer.frameOf ++ rest) :=
        decode_frame h (command_mem m) hm.size hm.read _
      rw [List.flatMap_cons, List.append_assoc, decodeTimes, hfirst]
      simp only [ih hms (Nat.le_of_succ_le_succ hcalls), List.take_succ_cons, List.map_cons,
        List.drop_succ_cons]

/-- A frame that is cut short is waited for. -/
theorem Understands.decode_part (h : c.Understands writer) {command : String} {payload part : Bytes}
    (hsize : payload.length ≤ maxPayload) (hpart : part <+: writer.frame command payload)
    (hne : part ≠ writer.frame command payload) : c.decode part = (.ok none, part) := by
  obtain ⟨more, hmore⟩ := hpart
  have hpayload : payloadLength (part ++ more) = payload.length := by
    rw [hmore, ← List.append_nil (writer.frame command payload)]
    exact (h.slices command hsize []).2.2.1
  have hmissing : 0 < more.length := by
    refine List.length_pos_of_ne_nil fun hnil => hne ?_
    rwa [hnil, List.append_nil] at hmore
  have hlength : part.length + more.length = headerLength c.recvVersion + payload.length := by
    rw [← List.length_append, hmore, h.length_frame]
  have hnot : ¬c.HoldsFrame part := fun hwhole => by
    have hheader := Nat.le_trans (headerLength_ge _) hwhole.header
    have hfits := hwhole.payload
    rw [← payloadLength_append hheader more, hpayload] at hfits
    omega
  rcases decode_of_not_holdsFrame hnot with hwait | ⟨e, hrefusal, -⟩
  · exact hwait
  · -- the whole frame would be refused as well
    have hwhole := h.refusal_frame command hsize []
    rw [List.append_nil, ← hmore, refusal_append (.inl (by simp [hrefusal])), hrefusal] at hwhole
    cases hwhole

/-- **A stream of frames**: messages that are written one after another are read one after another,
whatever follows them. Each call gives the next message, in the form `read` in which its payload is
read, and takes its frame; what follows is left. Of a frame that is cut short nothing is read or taken. -/
theorem frames_readBack {network : Network} {writer reader : FrameCodec}
    (hwriter : writer.magic = network.magic) (hreader : reader.magic = network.magic)
    (hversions : checksumVersion ≤ writer.sendVersion ∧ checksumVersion ≤ reader.recvVersion ∨
      writer.sendVersion < checksumVersion ∧ reader.recvVersion < checksumVersion)
    {ms : List Message} {read : Message → Message} (hms : ∀ m ∈ ms, reader.Receives m (read m)) :
    (∃ frames, ms.mapM writer.encode = .ok frames ∧ frames.length = ms.length ∧
      ∀ rest, ∀ calls ≤ ms.length, reader.decodeTimes calls (frames.flatten ++ rest) =
        ((ms.take calls).map fun m => .ok (some (read m)), (frames.drop calls).flatten ++ rest)) ∧
    ∀ m frame, writer.encode m = .ok frame → ∀ part, part <+: frame → part ≠ frame →
      reader.decode part = (.ok none, part) := by
  have hunderstands : reader.Understands writer := .of_versions hwriter hreader hversions
  refine ⟨⟨ms.map writer.frameOf, mapM_encode fun m hm => (hms m hm).size, List.length_map _, ?_⟩, ?_⟩
  · intro rest calls hcalls
    have hread := hunderstands.decodeTimes_frames hms hcalls rest
    rwa [List.flatMap_def, List.flatMap_def, List.map_drop] at hread
  · intro m frame hframe part hpart hne
    obtain ⟨hsize, rfl⟩ := encode_eq_ok_iff.mp hframe
    exact hunderstands.decode_part hsize hpart hne

/-- Frames without checksums, for a reader with a negative version that knows no nonces in pings. -/
theorem frames_readBack_legacy :
    let writer : FrameCodec := { magic := Network.regtest.magic, sendVersion := 106 }
    let reader : FrameCodec :=
      { magic := Network.regtest.magic, recvVersion := -1, legacyPing := true }
    let ms : List Message := [.ping none, .pong 3, .verack]
    ∃ frames, ms.mapM writer.encode = .ok frames ∧
      reader.decodeTimes 3 (frames.flatten ++ [0xda]) =
        ([.ok (some (.ping none)), .ok (some (.pong 3)), .ok (some .verack)], [0xda]) ∧
      reader.decode ((writer.frameOf (.pong 3)).take 27) =
        (.ok none, (writer.frameOf (.pong 3)).take 27) := by
  intro writer reader ms
  have hms : ∀ m ∈ ms, reader.Receives m m.canon := by
    intro m hm
    have hsize : ∀ m ∈ ms, m.encodePayload.length ≤ maxPayload := by decide
    have hreadable : ∀ m ∈ ms, m.Readable true := by decide
    exact .of_readable (hsize m hm) (hreadable m hm)
  have hwriter : writer.magic = Network.regtest.magic := rfl
  have hversions : writer.sendVersion < checksumVersion ∧ reader.recvVersion < checksumVersion := by
    decide
  obtain ⟨⟨frames, hencode, -, hread⟩, hcut⟩ := frames_readBack hwriter rfl (.inr hversions) hms
  obtain rfl : ms.map writer.frameOf = frames :=
    Except.ok.inj ((mapM_encode fun m hm => (hms m hm).size).symm.trans hencode)
  refine ⟨_, hencode, hread [0xda] 3 (by decide), ?_⟩
  exact hcut (.pong 3) _ (encode_eq_ok_iff.mpr ⟨by decide, rfl⟩) _ (List.take_prefix 27 _)
    (by decide +kernel)

end BitcoinPeer.FrameCodec
