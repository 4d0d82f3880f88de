import BitcoinPeer.Proofs.Net.Frame

/-!
# Frames with a checksum

A frame as it travels, with whatever stands in its fields (`RawFrame`). A reader that looks for
checksums finds a message exactly in the frames whose checksum is that of their payload, and only if
the payload can be read (`decode_bytes`, `exists_bytes_of_decode`). The fields can be told from the
bytes, so a stream is cut into frames in one way (`bytes_append_inj`).
-/

namespace BitcoinPeer

/-- The fields of a frame after the magic; the length is that of the payload. -/
structure RawFrame where
  command : Octets 12
  checksum : Octets 4
  payload : Bytes
  length_payload : payload.length ≤ FrameCodec.maxPayload

namespace RawFrame

variable {c : FrameCodec} {magic buffer rest : Bytes}

def bytes (magic : Bytes) (f : RawFrame) : Bytes :=
  magic ++ (f.command.bytes ++ (Bytes.ofNatLE 4 f.payload.length ++ (f.checksum.bytes ++ f.payload)))

/-- The checksum is the first four bytes of the double digest of the payload. -/
def Checks (f : RawFrame) : Prop :=
  f.checksum.bytes = (Digest.doubleSha256 f.payload).bytes.take 4

instance (f : RawFrame) : Decidable f.Checks :=
  inferInstanceAs (Decidable (f.checksum.bytes = _))

/-- The frame is sound, and its payload is read as the message. -/
def Carries (f : RawFrame) (m : Message) : Prop :=
  f.Checks ∧ ∃ legacyPing,
    Message.decodePayload legacyPing (FrameCodec.commandName f.command.bytes) f.payload =
      .ok (some m)

theorem length_bytes (hmagic : magic.length = 4) (f : RawFrame) :
    (f.bytes magic).length = 24 + f.payload.length := by
  simp only [bytes, List.length_append, hmagic, f.command.length_bytes, f.checksum.length_bytes,
    Bytes.length_ofNatLE]
  omega

/-- What is found in the fields of a frame at the front of a buffer. -/
theorem slices (hmagic : magic.length = 4) (f : RawFrame) (rest : Bytes) :
    (f.bytes magic ++ rest).take 4 = magic ∧
    FrameCodec.slice (f.bytes magic ++ rest) 4 12 = f.command.bytes ∧
    FrameCodec.payloadLength (f.bytes magic ++ rest) = f.payload.length ∧
    FrameCodec.slice (f.bytes magic ++ rest) 20 4 = f.checksum.bytes ∧
    FrameCodec.slice (f.bytes magic ++ rest) 24 f.payload.length = f.payload ∧
    (f.bytes magic ++ rest).drop (24 + f.payload.length) = rest := by
  have hcommand := f.command.length_bytes
  have hchecksum := f.checksum.length_bytes
  have hbound : f.payload.length < Bytes.bound 4 := Nat.lt_of_le_of_lt f.length_payload (by decide)
  refine ⟨?_, ?_, ?_, ?_, ?_, by rw [← length_bytes hmagic f, List.drop_left]⟩
  all_goals simp only [bytes, List.append_assoc]
  · rw [List.take_left' hmagic]
  · exact FrameCodec.slice_middle hmagic.symm hcommand.symm
  · rw [FrameCodec.payloadLength, ← List.append_assoc,
      FrameCodec.slice_middle (by simp [hmagic, hcommand]) (by simp), Bytes.toNatLE_ofNatLE,
      Nat.mod_eq_of_lt hbound]
  · rw [← List.append_assoc, ← List.append_assoc]
    exact FrameCodec.slice_middle (by simp [hmagic, hcommand]) hchecksum.symm
  · rw [← List.append_assoc, ← List.append_assoc, ← List.append_assoc]
    exact FrameCodec.slice_middle (by simp [hmagic, hcommand, hchecksum]) rfl

/-- A stream is cut into frames in one way. -/
theorem bytes_append_inj (hmagic : magic.length = 4) {f g : RawFrame} {rest' : Bytes}
    (h : f.bytes magic ++ rest = g.bytes magic ++ rest') : f = g ∧ rest = rest' := by
  obtain ⟨-, hcommand, hlength, hchecksum, hpayload, hrest⟩ := slices hmagic f rest
  obtain ⟨-, hcommand', hlength', hchecksum', hpayload', hrest'⟩ := slices hmagic g rest'
  rw [h] at hcommand hlength hchecksum hpayload hrest
  have hsame : f.payload.length = g.payload.length := hlength.symm.trans hlength'
  rw [hsame] at hpayload hrest
  obtain ⟨⟨_, _⟩, ⟨_, _⟩, _, _⟩ := f
  obtain ⟨⟨_, _⟩, ⟨_, _⟩, _, _⟩ := g
  obtain rfl := hcommand.symm.trans hcommand'
  obtain rfl := hchecksum.symm.trans hchecksum'
  obtain rfl := hpayload.symm.trans hpayload'
  exact ⟨rfl, hrest.symm.trans hrest'⟩

/-! ### Reading frames with a checksum -/

/-- What a frame is read as: the checksum is looked at first. -/
def opened (legacyPing : Bool) (f : RawFrame) : Except ConnectionError (Option Message) :=
  if f.Checks then
    match Message.decodePayload legacyPing (FrameCodec.commandName f.command.bytes) f.payload with
    | .error e => .error (.decode e)
    | .ok none => .error (.unknownCommand (FrameCodec.commandName f.command.bytes))
    | .ok (some m) => .ok (some m)
  else .error .badChecksum

theorem decode_bytes (hmagic : c.magic.length = 4)
    (hversion : FrameCodec.checksumVersion ≤ c.recvVersion) (f : RawFrame) (rest : Bytes) :
    c.decode (f.bytes c.magic ++ rest) = (f.opened c.legacyPing, rest) := by
  obtain ⟨hfront, hcommand, hlength, hchecksum, hpayload, hrest⟩ := slices hmagic f rest
  have hheader : FrameCodec.headerLength c.recvVersion = 24 := if_pos hversion
  have htotal : (f.bytes c.magic ++ rest).length = 24 + f.payload.length + rest.length := by
    rw [List.length_append, length_bytes hmagic]
  have hholds : c.HoldsFrame (f.bytes c.magic ++ rest) := ⟨by omega, by omega⟩
  have hlimit := f.length_payload
  have hrefusal : c.refusal (f.bytes c.magic ++ rest) = none := by
    rw [FrameCodec.refusal, if_neg (by omega), if_neg (not_not.mpr hfront), if_neg (by omega),
      hlength, if_neg (by omega)]
  have hopened : c.opened (f.bytes c.magic ++ rest) = f.opened c.legacyPing := by
    simp only [FrameCodec.opened, hheader, hlength, hcommand, hchecksum, hpayload, opened]
    by_cases hchecks : f.Checks
    · exact (if_neg fun h => h.2 hchecks).trans (if_pos hchecks).symm
    · rw [if_pos ⟨hversion, hchecks⟩, if_neg hchecks]
  rw [FrameCodec.decode_eq, hrefusal]
  simp only [if_pos hholds, hopened, hheader, hlength, hrest]

/-- A frame with another checksum is not looked into. -/
theorem decode_of_not_checks (hmagic : c.magic.length = 4)
    (hversion : FrameCodec.checksumVersion ≤ c.recvVersion) {f : RawFrame} (hf : ¬f.Checks)
    (rest : Bytes) : c.decode (f.bytes c.magic ++ rest) = (.error .badChecksum, rest) := by
  rw [decode_bytes hmagic hversion, opened, if_neg hf]

theorem slice_append_drop (bs : Bytes) (start length : Nat) :
    FrameCodec.slice bs start length ++ bs.drop (start + length) = bs.drop start := by
  rw [FrameCodec.slice, ← List.drop_drop, List.take_append_drop]

/-- A whole frame of a valid length at the front of a buffer is one with these fields. -/
theorem exists_bytes (hversion : FrameCodec.checksumVersion ≤ c.recvVersion)
    (hrefusal : c.refusal buffer = none) (hholds : c.HoldsFrame buffer) :
    ∃ f : RawFrame, buffer =
      f.bytes c.magic ++ buffer.drop (24 + FrameCodec.payloadLength buffer) := by
  have hheader : FrameCodec.headerLength c.recvVersion = 24 := if_pos hversion
  obtain ⟨hlong, hwhole⟩ := hholds
  rw [hheader] at hlong hwhole
  have hfront : buffer.take 4 = c.magic ∧
      FrameCodec.payloadLength buffer ≤ FrameCodec.maxPayload := by
    unfold FrameCodec.refusal at hrefusal
    split_ifs at hrefusal with hfour hmagic hshort hlarge
    · omega
    · omega
    · exact ⟨not_not.mp hmagic, Nat.not_lt.mp hlarge⟩
  have hlen (start length : Nat) (h : start + length ≤ buffer.length) :
      (FrameCodec.slice buffer start length).length = length := by
    rw [FrameCodec.slice, List.length_take, List.length_drop]
    omega
  have hpayload := hlen 24 (FrameCodec.payloadLength buffer) hwhole
  have hnumber : Bytes.ofNatLE 4 (FrameCodec.payloadLength buffer) =
      FrameCodec.slice buffer 16 4 := by
    have hback := Bytes.ofNatLE_toNatLE (FrameCodec.slice buffer 16 4)
    rwa [hlen 16 4 (by omega)] at hback
  refine ⟨⟨⟨FrameCodec.slice buffer 4 12, hlen 4 12 (by omega)⟩,
    ⟨FrameCodec.slice buffer 20 4, hlen 20 4 (by omega)⟩,
    FrameCodec.slice buffer 24 (FrameCodec.payloadLength buffer),
    hpayload.trans_le hfront.2⟩, ?_⟩
  have hcommand : _ ++ buffer.drop 16 = buffer.drop 4 := slice_append_drop buffer 4 12
  have hlength : _ ++ buffer.drop 20 = buffer.drop 16 := slice_append_drop buffer 16 4
  have hchecksum : _ ++ buffer.drop 24 = buffer.drop 20 := slice_append_drop buffer 20 4
  simp only [bytes, hpayload, hnumber, List.append_assoc, slice_append_drop, hchecksum, hlength,
    hcommand]
  rw [← hfront.1, List.take_append_drop]

/-- A message is found in a frame that carries it. -/
theorem exists_carries_of_decode (hmagic : c.magic.length = 4)
    (hversion : FrameCodec.checksumVersion ≤ c.recvVersion) {m : Message}
    (h : c.decode buffer = (.ok (some m), rest)) :
    ∃ f : RawFrame, buffer = f.bytes c.magic ++ rest ∧ f.Carries m := by
  have hdecode := h
  rw [FrameCodec.decode_eq] at h
  split at h
  case h_1 => cases h
  case h_2 hrefusal =>
    have hholds : c.HoldsFrame buffer := by
      by_contra hwaits
      rw [if_neg hwaits] at h
      cases h
    obtain ⟨f, hf⟩ := exists_bytes hversion hrefusal hholds
    rw [hf, decode_bytes hmagic hversion] at hdecode
    obtain ⟨hopened, hrest⟩ := Prod.mk.inj hdecode
    refine ⟨f, hrest ▸ hf, ?_⟩
    unfold opened at hopened
    split at hopened
    case isTrue hchecks =>
      refine ⟨hchecks, c.legacyPing, ?_⟩
      split at hopened <;> cases hopened
      assumption
    case isFalse => cases hopened

/-! ### Streams of frames -/

/-- Frames in front of a stream are a part of any other cut of it that is as long. -/
theorem take_of_flatMap_append (hmagic : magic.length = 4) {fs gs : List RawFrame}
    (hle : gs.length ≤ fs.length) {rest' : Bytes}
    (h : fs.flatMap (bytes magic) ++ rest = gs.flatMap (bytes magic) ++ rest') :
    fs.take gs.length = gs := by
  induction gs generalizing fs with
  | nil => rfl
  | cons g gs ih =>
    cases fs with
    | nil => simp at hle
    | cons f fs =>
      rw [List.flatMap_cons, List.flatMap_cons, List.append_assoc, List.append_assoc] at h
      obtain ⟨rfl, hrest⟩ := bytes_append_inj hmagic h
      rw [List.length_cons, List.take_succ_cons, ih (Nat.le_of_succ_le_succ hle) hrest]

end RawFrame

end BitcoinPeer
