import BitcoinPeer.Net.Frame
import BitcoinPeer.Proofs.Message.RoundTrip

/-!
# Frames at the front of a buffer

Reading a frame takes three steps: the header may be refused as soon as it is there (`refusal`), the
frame may not have arrived in full (`HoldsFrame`), and a whole frame is opened (`opened`). None of them
looks behind the frame, so what is found at the front of a buffer does not change by what comes later
(`decode_append`). The frame of a message is read as its canonical form (`decode_frameOf`).
-/

namespace BitcoinPeer.FrameCodec

variable {c : FrameCodec} {buffer rest more : Bytes}

/-! ### The steps of reading a frame -/

/-- The length that the header at the front of a buffer gives for the payload. -/
def payloadLength (buffer : Bytes) : Nat :=
  Bytes.toNatLE (slice buffer 16 4)

/-- A whole frame is at the front of the buffer, by the length in its header. -/
structure HoldsFrame (c : FrameCodec) (buffer : Bytes) : Prop where
  header : headerLength c.recvVersion ≤ buffer.length
  payload : headerLength c.recvVersion + payloadLength buffer ≤ buffer.length

instance (c : FrameCodec) (buffer : Bytes) : Decidable (c.HoldsFrame buffer) :=
  decidable_of_iff _ ⟨fun h => HoldsFrame.mk h.1 h.2, fun h => And.intro h.header h.payload⟩

/-- Why the header at the front of a buffer is refused, whether or not its payload is there. -/
def refusal (c : FrameCodec) (buffer : Bytes) : Option ConnectionError :=
  if buffer.length < 4 then none
  else if buffer.take 4 ≠ c.magic then some .badMagic
  else if buffer.length < headerLength c.recvVersion then none
  else if maxPayload < payloadLength buffer then
    some (.payloadTooLarge (UInt32.ofNat (payloadLength buffer)))
  else none

/-- What the whole frame at the front of a buffer is read as. -/
def opened (c : FrameCodec) (buffer : Bytes) : Except ConnectionError (Option Message) :=
  let payload := slice buffer (headerLength c.recvVersion) (payloadLength buffer)
  if checksumVersion ≤ c.recvVersion ∧ slice buffer 20 4 ≠ Digest.checksum payload then
    .error .badChecksum
  else
    match Message.decodePayload c.legacyPing (commandName (slice buffer 4 12)) payload with
    | .error e => .error (.decode e)
    | .ok none => .error (.unknownCommand (commandName (slice buffer 4 12)))
    | .ok (some message) => .ok (some message)

theorem headerLength_ge (version : Int32) : 20 ≤ headerLength version := by
  unfold headerLength
  split_ifs <;> omega

theorem decode_eq (c : FrameCodec) (buffer : Bytes) :
    c.decode buffer =
      match c.refusal buffer with
      | some e => (.error e, buffer)
      | none =>
        if c.HoldsFrame buffer then
          (c.opened buffer, buffer.drop (headerLength c.recvVersion + payloadLength buffer))
        else (.ok none, buffer) := by
  have hmin := headerLength_ge c.recvVersion
  have hlength : Bytes.toNatLE (slice buffer 16 4) = payloadLength buffer := rfl
  have hwhole : c.HoldsFrame buffer ↔
      ¬buffer.length < headerLength c.recvVersion + payloadLength buffer :=
    ⟨fun h => Nat.not_lt.mpr h.payload, fun h => ⟨by omega, by omega⟩⟩
  simp only [decode, refusal, hlength, hwhole, opened]
  by_cases hfour : buffer.length < 4
  · simp only [if_pos hfour, if_neg (not_not.mpr (show buffer.length <
      headerLength c.recvVersion + payloadLength buffer by omega))]
  by_cases hmagic : buffer.take 4 ≠ c.magic
  · simp only [if_neg hfour, if_pos hmagic]
  by_cases hheader : buffer.length < headerLength c.recvVersion
  · simp only [if_neg hfour, if_neg hmagic, if_pos hheader, if_neg (not_not.mpr (show
      buffer.length < headerLength c.recvVersion + payloadLength buffer by omega))]
  by_cases hlarge : maxPayload < payloadLength buffer
  · simp only [if_neg hfour, if_neg hmagic, if_neg hheader, if_pos hlarge]
  simp only [if_neg hfour, if_neg hmagic, if_neg hheader, if_neg hlarge, ite_not]
  split
  · rfl
  · split
    · rfl
    · rcases Message.decodePayload c.legacyPing (commandName (slice buffer 4 12))
        (slice buffer (headerLength c.recvVersion) (payloadLength buffer)) with _ | _ | _ <;> rfl

theorem opened_ne_none (c : FrameCodec) (buffer : Bytes) : c.opened buffer ≠ .ok none := by
  rw [opened]
  split
  · exact nofun
  · split <;> exact nofun

/-- A header is refused for its magic or its length. -/
theorem of_refusal_eq_some {e : ConnectionError} (h : c.refusal buffer = some e) :
    e = .badMagic ∨ ∃ length, e = .payloadTooLarge length := by
  unfold refusal at h
  split_ifs at h <;> cases h
  · exact .inl rfl
  · exact .inr ⟨_, rfl⟩

/-- As long as the frame is not there in full, all that can happen is that its header is refused. -/
theorem decode_of_not_holdsFrame (h : ¬c.HoldsFrame buffer) :
    c.decode buffer = (.ok none, buffer) ∨
      ∃ e, c.refusal buffer = some e ∧ c.decode buffer = (.error e, buffer) := by
  rw [decode_eq, if_neg h]
  cases c.refusal buffer with
  | none => exact .inl rfl
  | some e => exact .inr ⟨e, rfl, rfl⟩

/-- A buffer in which no message is found yet is left alone. -/
theorem rest_of_decode_none (h : c.decode buffer = (.ok none, rest)) : rest = buffer := by
  rw [decode_eq] at h
  split at h
  · cases h
  · split_ifs at h
    · exact absurd (congrArg Prod.fst h) (opened_ne_none c buffer)
    · exact (congrArg Prod.snd h).symm

/-- A message takes at least the header of its frame from the buffer. -/
theorem rest_lt_of_decode_some {m : Message} (h : c.decode buffer = (.ok (some m), rest)) :
    rest.length < buffer.length := by
  have hmin := headerLength_ge c.recvVersion
  rw [decode_eq] at h
  split at h
  · cases h
  · split_ifs at h with hwhole
    · have hheader := hwhole.header
      obtain rfl : buffer.drop _ = rest := congrArg Prod.snd h
      rw [List.length_drop]
      omega
    · cases h

/-! ### The bytes behind a frame -/

theorem slice_append {start length : Nat} (h : start + length ≤ buffer.length) (more : Bytes) :
    slice (buffer ++ more) start length = slice buffer start length := by
  rw [slice, slice, List.drop_append_of_le_length (by omega),
    List.take_append_of_le_length (by rw [List.length_drop]; omega)]

theorem payloadLength_append (h : 20 ≤ buffer.length) (more : Bytes) :
    payloadLength (buffer ++ more) = payloadLength buffer :=
  congrArg Bytes.toNatLE (slice_append h more)

theorem HoldsFrame.append (h : c.HoldsFrame buffer) (more : Bytes) :
    c.HoldsFrame (buffer ++ more) where
  header := by
    rw [List.length_append]
    exact Nat.le_add_right_of_le h.header
  payload := by
    rw [payloadLength_append (Nat.le_trans (headerLength_ge _) h.header), List.length_append]
    exact Nat.le_add_right_of_le h.payload

/-- A refusal stands, and with the header there it is known whether there is one. -/
theorem refusal_append (h : c.refusal buffer ≠ none ∨ c.HoldsFrame buffer) (more : Bytes) :
    c.refusal (buffer ++ more) = c.refusal buffer := by
  have hmin := headerLength_ge c.recvVersion
  have hlen : (buffer ++ more).length = buffer.length + more.length := List.length_append
  have hfour : ¬buffer.length < 4 := fun hlt =>
    h.elim (fun h => h (if_pos hlt)) fun h => by have := h.header; omega
  have htake : (buffer ++ more).take 4 = buffer.take 4 :=
    List.take_append_of_le_length (by omega)
  simp only [refusal, if_neg hfour, if_neg (show ¬(buffer ++ more).length < 4 by omega), htake]
  by_cases hmagic : buffer.take 4 ≠ c.magic
  · simp only [if_pos hmagic]
  have hheader : ¬buffer.length < headerLength c.recvVersion := fun hlt =>
    h.elim (fun h => h (by simp only [refusal, if_neg hfour, if_neg hmagic, if_pos hlt]))
      fun h => by have := h.header; omega
  simp only [if_neg hmagic, if_neg hheader, payloadLength_append (show 20 ≤ buffer.length by omega),
    if_neg (show ¬(buffer ++ more).length < headerLength c.recvVersion by omega)]

theorem opened_append (h : c.HoldsFrame buffer) (more : Bytes) :
    c.opened (buffer ++ more) = c.opened buffer := by
  have hmin := headerLength_ge c.recvVersion
  have hheader := h.header
  have hchecksum : (checksumVersion ≤ c.recvVersion → slice (buffer ++ more) 20 4 =
      slice buffer 20 4) := fun hversion => by
    rw [headerLength, if_pos hversion] at hheader
    exact slice_append (by omega) more
  simp only [opened, payloadLength_append (Nat.le_trans hmin hheader), slice_append h.payload,
    slice_append (show 4 + 12 ≤ buffer.length by omega)]
  congr 1
  exact propext (and_congr_right fun hversion => by rw [hchecksum hversion])

/-- Once it is known what is at the front of a buffer, it does not change by what comes later. -/
theorem decode_append {result : Except ConnectionError (Option Message)}
    (h : c.decode buffer = (result, rest)) (hresult : result ≠ .ok none) (more : Bytes) :
    c.decode (buffer ++ more) = (result, rest ++ more) := by
  rw [decode_eq] at h ⊢
  cases hrefusal : c.refusal buffer with
  | some e =>
    rw [hrefusal] at h
    rw [refusal_append (.inl (by simp [hrefusal])), hrefusal]
    obtain ⟨rfl, rfl⟩ := Prod.mk.inj h
    rfl
  | none =>
    simp only [hrefusal] at h
    split_ifs at h with hwhole
    · have hheader := hwhole.header
      obtain ⟨rfl, rfl⟩ := Prod.mk.inj h
      rw [refusal_append (.inr hwhole), hrefusal]
      simp only [if_pos (hwhole.append more), opened_append hwhole,
        payloadLength_append (Nat.le_trans (headerLength_ge _) hheader),
        List.drop_append_of_le_length hwhole.payload]
    · exact absurd (congrArg Prod.fst h).symm hresult

/-! ### The frame of a message -/

/-- The frame in which a message is sent. -/
def frameOf (c : FrameCodec) (m : Message) : Bytes :=
  c.frame m.command m.encodePayload

/-- A message is written if its payload has room in a frame. -/
theorem encode_eq_ok_iff {m : Message} {frame : Bytes} :
    c.encode m = .ok frame ↔ m.encodePayload.length ≤ maxPayload ∧ frame = c.frameOf m := by
  rw [encode]
  split_ifs with hlarge
  · exact iff_of_false nofun fun h => Nat.not_lt.mpr h.1 hlarge
  · rw [Except.ok.injEq, eq_comm]
    exact ⟨fun h => ⟨Nat.le_of_not_lt hlarge, h⟩, And.right⟩

theorem encode_eq_error_iff {m : Message} {e : ConnectionError} :
    c.encode m = .error e ↔ maxPayload < m.encodePayload.length ∧
      e = .payloadTooLarge (UInt32.ofNat m.encodePayload.length) := by
  rw [encode]
  split_ifs with hlarge
  · rw [Except.error.injEq, eq_comm]
    exact ⟨fun h => ⟨hlarge, h⟩, And.right⟩
  · exact iff_of_false nofun fun h => hlarge h.1

/-- Every command comes back out of its field, without the zeros behind it. -/
theorem commandName_commandField :
    ∀ command ∈ Message.commands, commandName (commandField command) = command := by
  decide +kernel

theorem command_mem (m : Message) : m.command ∈ Message.commands := by
  cases m <;> simp [Message.command, Message.commands]

@[simp] theorem length_commandField (command : String) : (commandField command).length = 12 := by
  simp [commandField]

theorem slice_middle {front middle : Bytes} {start length : Nat} (hstart : start = front.length)
    (hlength : length = middle.length) :
    slice (front ++ (middle ++ rest)) start length = middle := by
  rw [slice, hstart, hlength, List.drop_left, List.take_left]

/-- The part of a frame between the length and the payload. -/
def checksumField (c : FrameCodec) (payload : Bytes) : Bytes :=
  if checksumVersion ≤ c.sendVersion then Digest.checksum payload else []

theorem length_checksumField (c : FrameCodec) (payload : Bytes) :
    (checksumField c payload).length = headerLength c.sendVersion - 20 := by
  unfold checksumField headerLength
  split_ifs
  · simp [Digest.checksum, Hash256.length_bytes]
  · rfl

/-- The fields of a frame, each in front of all that follows it. -/
theorem frame_append (c : FrameCodec) (command : String) (payload rest : Bytes) :
    c.frame command payload ++ rest =
      c.magic ++ (commandField command ++ (Bytes.ofNatLE 4 payload.length ++
        (c.checksumField payload ++ (payload ++ rest)))) := by
  simp only [frame, checksumField, List.append_assoc]

/-- One side reads the frames that the other one writes. -/
structure Understands (reader writer : FrameCodec) : Prop where
  magic : writer.magic = reader.magic
  length_magic : reader.magic.length = 4
  checksum : checksumVersion ≤ writer.sendVersion ↔ checksumVersion ≤ reader.recvVersion

section
variable {writer : FrameCodec} {payload : Bytes}

/-- Two ends on one network read each other's frames if both versions have checksums or neither has. -/
theorem Understands.of_versions {network : Network} (hwriter : writer.magic = network.magic)
    (hreader : c.magic = network.magic)
    (hversions : checksumVersion ≤ writer.sendVersion ∧ checksumVersion ≤ c.recvVersion ∨
      writer.sendVersion < checksumVersion ∧ c.recvVersion < checksumVersion) :
    c.Understands writer where
  magic := hwriter.trans hreader.symm
  length_magic := hreader ▸ network.magic_length
  checksum := by
    obtain ⟨hsend, hrecv⟩ | ⟨hsend, hrecv⟩ := hversions
    · exact iff_of_true hsend hrecv
    · exact iff_of_false (Int32.not_le.mpr hsend) (Int32.not_le.mpr hrecv)

theorem Understands.headerLength_eq (h : c.Understands writer) :
    headerLength writer.sendVersion = headerLength c.recvVersion := by
  simp only [headerLength, h.checksum]

theorem length_frame (hmagic : c.magic.length = 4) (command : String) (payload : Bytes) :
    (c.frame command payload).length = headerLength c.sendVersion + payload.length := by
  have hmin := headerLength_ge c.sendVersion
  rw [← List.append_nil (c.frame command payload), frame_append]
  simp only [List.length_append, hmagic, length_commandField, Bytes.length_ofNatLE,
    length_checksumField, List.length_nil]
  omega

theorem Understands.length_frame (h : c.Understands writer) (command : String) (payload : Bytes) :
    (writer.frame command payload).length = headerLength c.recvVersion + payload.length := by
  rw [FrameCodec.length_frame (h.magic ▸ h.length_magic), h.headerLength_eq]

/-- What a reader finds in the fields of a frame. -/
theorem Understands.slices (h : c.Understands writer) (command : String)
    (hsize : payload.length ≤ maxPayload) (rest : Bytes) :
    (writer.frame command payload ++ rest).take 4 = c.magic ∧
    slice (writer.frame command payload ++ rest) 4 12 = commandField command ∧
    payloadLength (writer.frame command payload ++ rest) = payload.length ∧
    (checksumVersion ≤ c.recvVersion →
      slice (writer.frame command payload ++ rest) 20 4 = Digest.checksum payload) ∧
    slice (writer.frame command payload ++ rest) (headerLength c.recvVersion) payload.length
      = payload := by
  have hmin := headerLength_ge c.recvVersion
  have hmagic : writer.magic.length = 4 := h.magic ▸ h.length_magic
  have hbound : payload.length < Bytes.bound 4 := Nat.lt_of_le_of_lt hsize (by decide)
  rw [frame_append]
  refine ⟨?_, slice_middle hmagic.symm (length_commandField command).symm, ?_, fun hversion => ?_, ?_⟩
  · rw [List.take_left' hmagic, h.magic]
  · rw [payloadLength, ← List.append_assoc, slice_middle (by simp [hmagic]) (by simp),
      Bytes.toNatLE_ofNatLE, Nat.mod_eq_of_lt hbound]
  · have hlen := length_checksumField writer payload
    rw [h.headerLength_eq, headerLength, if_pos hversion] at hlen
    rw [← List.append_assoc, ← List.append_assoc, slice_middle (by simp [hmagic]) hlen.symm,
      checksumField, if_pos (h.checksum.mpr hversion)]
  · rw [← List.append_assoc, ← List.append_assoc, ← List.append_assoc]
    refine slice_middle ?_ rfl
    simp only [List.length_append, hmagic, length_commandField, Bytes.length_ofNatLE,
      length_checksumField, h.headerLength_eq]
    omega

/-- A reader has nothing against the header of a frame. -/
theorem Understands.refusal_frame (h : c.Understands writer) (command : String)
    (hsize : payload.length ≤ maxPayload) (rest : Bytes) :
    c.refusal (writer.frame command payload ++ rest) = none := by
  obtain ⟨hmagic, -, hpayloadLength, -, -⟩ := h.slices command hsize rest
  have hmin := headerLength_ge c.recvVersion
  have hlen : (writer.frame command payload ++ rest).length =
      headerLength c.recvVersion + payload.length + rest.length := by
    rw [List.length_append, h.length_frame]
  rw [refusal, if_neg (by omega), if_neg (not_not.mpr hmagic), if_neg (by omega), hpayloadLength,
    if_neg (by omega)]

/-- The frame of a payload is read as the message that the payload is read as, and no byte more. -/
theorem decode_frame (h : c.Understands writer) {command : String} {m : Message}
    (hcommand : command ∈ Message.commands) (hsize : payload.length ≤ maxPayload)
    (hread : Message.decodePayload c.legacyPing command payload = .ok (some m)) (rest : Bytes) :
    c.decode (writer.frame command payload ++ rest) = (.ok (some m), rest) := by
  obtain ⟨-, hfield, hpayloadLength, hchecksum, hpayload⟩ := h.slices command hsize rest
  have hlen : (writer.frame command payload ++ rest).length =
      headerLength c.recvVersion + payload.length + rest.length := by
    rw [List.length_append, h.length_frame]
  have hwhole : c.HoldsFrame (writer.frame command payload ++ rest) := ⟨by omega, by omega⟩
  have hopened : c.opened (writer.frame command payload ++ rest) = .ok (some m) := by
    simp only [opened, hpayloadLength, hpayload, hfield, commandName_commandField _ hcommand, hread]
    exact if_neg fun hmismatch => hmismatch.2 (hchecksum hmismatch.1)
  rw [decode_eq, h.refusal_frame command hsize rest]
  simp only [if_pos hwhole, hopened, hpayloadLength, ← h.length_frame command, List.drop_left]

/-- The frame of a message is read as the canonical form of the message, and no byte more. -/
theorem decode_frameOf (h : c.Understands writer) {m : Message} (hfits : m.Fits)
    (hm : m.Readable c.legacyPing) (hsize : m.encodePayload.length ≤ maxPayload) (rest : Bytes) :
    c.decode (writer.frameOf m ++ rest) = (.ok (some m.canon), rest) :=
  decode_frame h (command_mem m) hsize (Message.decodePayload_of_readable hfits hm) rest

end

end BitcoinPeer.FrameCodec
