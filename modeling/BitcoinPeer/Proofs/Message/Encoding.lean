import BitcoinPeer.Message.Catalog
import BitcoinPeer.Proofs.Chain.Encoding
import BitcoinPeer.Proofs.Peer.Encoding

/-!
# Payloads, written and read back

What each payload comes back as. Fields that another field keeps off the wire come back as if they
were absent; all others come back as they are, but for the canonical forms of the values in them.
-/

namespace BitcoinPeer

open Decoder (Reads Yields reads_bool reads_int32 reads_int64 reads_uint8 reads_uint32 reads_uint64
  reads_compactSize reads_byteString reads_text reads_pure yields_pure)

/-! ### Configurations, streams, alerts, rejections and requests -/

namespace Protoconf

/-- The policies are limited only if they are carried. -/
def Fits (p : Protoconf) : Prop :=
  1 < p.numberOfFields → p.streamPolicies.length ≤ maxLength.toNat

/-- Policies that are not carried are lost. -/
def canon (p : Protoconf) : Protoconf :=
  if 1 < p.numberOfFields then p else { p with streamPolicies := [] }

theorem canon_canon (p : Protoconf) : p.canon.canon = p.canon := by
  by_cases h : 1 < p.numberOfFields <;> simp [canon, h]

theorem reads {p : Protoconf} (hp : p.Fits) : Reads Codec.decode (Codec.encode p) p.canon := by
  refine .of_eq (.bind (reads_compactSize p.numberOfFields) <|
    .bind (reads_uint32 p.maxReceivedPayload) (?_ : Reads _
      (if 1 < p.numberOfFields then Encode.byteString p.streamPolicies else []) _)) ?_
  · by_cases h : 1 < p.numberOfFields
    · simp only [if_pos h, canon]
      exact .ret (reads_byteString (hp h))
    · simp only [if_neg h, canon]
      exact .ret (reads_pure [])
  · simp only [Codec.encode, List.append_assoc]

theorem yields : Yields (Codec.decode : Decoder Protoconf) fun p => p.canon = p := by
  refine .seq fun numberOfFields => .seq fun maxReceivedPayload => ?_
  by_cases h : 1 < numberOfFields
  · simp only [if_pos h]
    exact .seq fun streamPolicies => yields_pure (by rw [canon, if_pos h])
  · simp only [if_neg h]
    exact .bind (yields_pure rfl) fun streamPolicies hnil =>
      yields_pure (by subst hnil; rw [canon, if_neg h])

theorem fits_of_length (p : Protoconf) (h : (Codec.encode p).length ≤ maxLength.toNat) : p.Fits := by
  intro hcarried
  have hle := Encode.length_le_byteString p.streamPolicies
  simp only [Codec.encode, if_pos hcarried, List.length_append] at h
  omega

end Protoconf

namespace CreateStream

def Fits (c : CreateStream) : Prop :=
  c.streamPolicy.length ≤ maxLength.toNat

/-- An association id that is there is read back; for none nothing at all would be written. -/
theorem reads {c : CreateStream} (hid : c.associationId.isSome) (h : c.Fits) :
    Reads Codec.decode (Codec.encode c) c := by
  obtain ⟨id, hid⟩ := Option.isSome_iff_exists.mp hid
  have hread : Reads AssociationId.decodeBlob (AssociationId.encodeOptional c.associationId)
      c.associationId := hid ▸ id.reads_decodeBlob
  exact .of_eq (.bind hread <| .bind (reads_uint8 c.streamType) <| .ret (reads_byteString h))
    (List.append_assoc _ _ _)

theorem fits_of_length (c : CreateStream) (h : (Codec.encode c).length ≤ maxLength.toNat) :
    c.Fits := by
  have hle := Encode.length_le_byteString c.streamPolicy
  simp only [Codec.encode, List.length_append] at h
  unfold Fits
  omega

end CreateStream

theorem StreamAck.reads {a : StreamAck} (hid : a.associationId.isSome) :
    Reads Codec.decode (Codec.encode a) a := by
  obtain ⟨id, hid⟩ := Option.isSome_iff_exists.mp hid
  have hread : Reads AssociationId.decodeBlob (AssociationId.encodeOptional a.associationId)
      a.associationId := hid ▸ id.reads_decodeBlob
  exact .bind hread <| .ret (reads_uint8 a.streamType)

namespace Alert

structure Fits (a : Alert) : Prop where
  message : a.message.length ≤ maxLength.toNat
  signature : a.signature.length ≤ maxLength.toNat

theorem reads {a : Alert} (h : a.Fits) : Reads Codec.decode (Codec.encode a) a :=
  .bind (reads_byteString h.message) <| .ret (reads_byteString h.signature)

theorem fits_of_length (a : Alert) (h : (Codec.encode a).length ≤ maxLength.toNat) : a.Fits := by
  have hmessage := Encode.length_le_byteString a.message
  have hsignature := Encode.length_le_byteString a.signature
  simp only [Codec.encode, List.length_append] at h
  exact ⟨by omega, by omega⟩

end Alert

namespace Reject

structure Fits (r : Reject) : Prop where
  message : r.message.utf8ByteSize ≤ maxLength.toNat
  reason : r.reason.utf8ByteSize ≤ maxLength.toNat

/-- A hash that is not carried is lost. -/
def canon (r : Reject) : Reject :=
  if carriesHash r.message r.code then r else { r with data := Hash256.zero }

theorem canon_canon (r : Reject) : r.canon.canon = r.canon := by
  by_cases h : carriesHash r.message r.code <;> simp [canon, h]

theorem reads {r : Reject} (hr : r.Fits) : Reads Codec.decode (Codec.encode r) r.canon := by
  refine .of_eq (.bind (reads_text hr.message) <| .bind (reads_uint8 r.code) <|
    .bind (reads_text hr.reason) (?_ : Reads _
      (if carriesHash r.message r.code then Codec.encode r.data else []) _)) ?_
  · by_cases h : carriesHash r.message r.code
    · simp only [if_pos h, canon]
      exact .ret r.data.reads
    · simp only [if_neg h, canon]
      exact .ret (reads_pure Hash256.zero)
  · simp only [Codec.encode, List.append_assoc]

theorem yields : Yields (Codec.decode : Decoder Reject) fun r => r.canon = r := by
  refine .seq fun message => .seq fun code => .seq fun reason => ?_
  by_cases h : carriesHash message code
  · simp only [if_pos h]
    exact .seq fun data => yields_pure (by rw [canon, if_pos h])
  · simp only [if_neg h]
    exact .bind (yields_pure rfl) fun data hzero =>
      yields_pure (by subst hzero; rw [canon, if_neg h])

theorem fits_of_length (r : Reject) (h : (Codec.encode r).length ≤ maxLength.toNat) : r.Fits := by
  have hmessage := Encode.utf8ByteSize_le_text r.message
  have hreason := Encode.utf8ByteSize_le_text r.reason
  simp only [Codec.encode, List.length_append] at h
  exact ⟨by omega, by omega⟩

end Reject

namespace LocatorRequest

def Fits (r : LocatorRequest) : Prop :=
  r.locator.Fits

theorem reads {r : LocatorRequest} (h : r.Fits) : Reads Codec.decode (Codec.encode r) r :=
  .bind (BlockLocator.reads h) <| .ret r.hashStop.reads

theorem fits_of_length (r : LocatorRequest) (h : (Codec.encode r).length ≤ maxLength.toNat) :
    r.Fits := by
  have hlen : (Codec.encode r).length = (Codec.encode r.locator).length +
      (Codec.encode r.hashStop).length := List.length_append
  exact r.locator.fits_of_length (by omega)

end LocatorRequest

/-! ### Version messages -/

namespace VersionMessage

/-- The user agent is limited only if it is carried. -/
def Fits (m : VersionMessage) : Prop :=
  senderVersion ≤ m.version → (m.userAgent.getD "").utf8ByteSize ≤ maxLength.toNat

/-- The version decides: a field that it calls for and that is absent has its default, and a field
that it does not call for is lost. -/
def canon (m : VersionMessage) : VersionMessage where
  version := meaning m.version
  services := m.services
  time := m.time
  receiver := m.receiver.canon
  sender := if senderVersion ≤ m.version then some (m.sender.getD {}).canon else none
  nonce := if senderVersion ≤ m.version then some (m.nonce.getD 0) else none
  userAgent := if senderVersion ≤ m.version then some (m.userAgent.getD "") else none
  startHeight := if initialVersion ≤ m.version then some (m.startHeight.getD (-1)) else none
  relay := if relayVersion ≤ m.version then m.relay else false
  associationId := if relayVersion ≤ m.version then m.associationId else none

/-- The misspelled number and the version it means call for the same fields. -/
theorem le_meaning_iff {gate : Int32}
    (h : gate = senderVersion ∨ gate = initialVersion ∨ gate = relayVersion) (version : Int32) :
    gate ≤ meaning version ↔ gate ≤ version := by
  by_cases hversion : version = misspelled300
  · subst hversion
    obtain rfl | rfl | rfl := h <;> decide
  · rw [meaning, if_neg hversion]

theorem meaning_meaning (version : Int32) : meaning (meaning version) = meaning version := by
  by_cases h : version = misspelled300
  · subst h
    decide
  · simp only [meaning, if_neg h]

theorem senderVersion_le_meaning (version : Int32) :
    senderVersion ≤ meaning version ↔ senderVersion ≤ version :=
  le_meaning_iff (.inl rfl) version

theorem initialVersion_le_meaning (version : Int32) :
    initialVersion ≤ meaning version ↔ initialVersion ≤ version :=
  le_meaning_iff (.inr (.inl rfl)) version

theorem relayVersion_le_meaning (version : Int32) :
    relayVersion ≤ meaning version ↔ relayVersion ≤ version :=
  le_meaning_iff (.inr (.inr rfl)) version

theorem canon_canon (m : VersionMessage) : m.canon.canon = m.canon := by
  simp only [canon, meaning_meaning, senderVersion_le_meaning, initialVersion_le_meaning,
    relayVersion_le_meaning, PeerAddress.canon_canon]
  split_ifs <;> simp [PeerAddress.canon_canon]

/-! #### The fields in front of those that may be missing -/

/-- The message without the fields that may be missing. -/
def mandatory (m : VersionMessage) : VersionMessage :=
  { m with relay := false, associationId := none }

/-- The start height, after the other fields `front`. -/
theorem reads_startHeight {m front out : VersionMessage}
    (hout : out = if initialVersion ≤ m.version then
      { front with startHeight := some (m.startHeight.getD (-1)) } else front) :
    Reads (if initialVersion ≤ m.version then do
        let startHeight ← Decoder.int32
        return { front with startHeight := some startHeight }
      else return front)
      (if initialVersion ≤ m.version then Encode.int32 (m.startHeight.getD (-1)) else []) out := by
  subst hout
  by_cases h : initialVersion ≤ m.version
  · simp only [if_pos h]
    exact .ret (reads_int32 _)
  · simp only [if_neg h]
    exact reads_pure front

theorem reads_mandatory {m : VersionMessage} (h : m.Fits) :
    Reads decodeMandatory m.encodeMandatory m.canon.mandatory := by
  refine .of_eq (.bind (reads_int32 m.version) <| .bind m.services.reads <|
    .bind (reads_int64 m.time) <| .bind m.receiver.reads (?_ : Reads _
      ((if senderVersion ≤ m.version then
          Codec.encode (m.sender.getD {}) ++ Encode.uint64 (m.nonce.getD 0)
            ++ Encode.text (m.userAgent.getD "")
        else []) ++
      (if initialVersion ≤ m.version then Encode.int32 (m.startHeight.getD (-1)) else [])) _)) ?_
  · simp only [senderVersion_le_meaning, initialVersion_le_meaning, pure_bind]
    by_cases hsender : senderVersion ≤ m.version
    · simp only [if_pos hsender]
      refine .of_eq (.bind (m.sender.getD {}).reads <| .bind (reads_uint64 (m.nonce.getD 0)) <|
        .bind (reads_text (h hsender)) <| reads_startHeight ?_) ?_
      · simp only [canon, mandatory, if_pos hsender]
        split_ifs <;> rfl
      · simp only [List.append_assoc]
    · simp only [if_neg hsender, List.nil_append]
      refine reads_startHeight ?_
      simp only [canon, mandatory, if_neg hsender]
      split_ifs <;> rfl
  · simp only [encodeMandatory, List.append_assoc]

theorem yields_mandatory : Yields decodeMandatory fun m => m.canon.mandatory = m := by
  refine .seq fun number => .seq fun services => .seq fun time =>
    .bind PeerAddress.yields fun receiver hreceiver => ?_
  simp only [pure_bind]
  by_cases hsender : senderVersion ≤ meaning number
  · simp only [if_pos hsender]
    refine .bind PeerAddress.yields fun sender hsenderAddress => .seq fun nonce =>
      .seq fun userAgent => ?_
    by_cases hinitial : initialVersion ≤ meaning number
    · simp only [if_pos hinitial]
      refine .seq fun startHeight => yields_pure ?_
      simp [canon, mandatory, meaning_meaning, hsender, hinitial, hreceiver, hsenderAddress]
    · simp only [if_neg hinitial]
      refine yields_pure ?_
      simp [canon, mandatory, meaning_meaning, hsender, hinitial, hreceiver, hsenderAddress]
  · simp only [if_neg hsender]
    by_cases hinitial : initialVersion ≤ meaning number
    · simp only [if_pos hinitial]
      refine .seq fun startHeight => yields_pure ?_
      simp [canon, mandatory, meaning_meaning, hsender, hinitial, hreceiver]
    · simp only [if_neg hinitial]
      refine yields_pure ?_
      simp [canon, mandatory, meaning_meaning, hsender, hinitial, hreceiver]

/-! #### The whole message -/

theorem trailingFields_encode (relay : Bool) (id : Option AssociationId) :
    trailingFields (Encode.bool relay ++ AssociationId.encodeOptional id) = ((relay, id), []) := by
  have hrelay : ((if relay then 1 else 0 : UInt8) != 0) = relay := by cases relay <;> rfl
  cases id with
  | none =>
    rw [AssociationId.encodeOptional, List.append_nil, Encode.bool, trailingFields, hrelay]
    rfl
  | some id =>
    have hread := id.reads_decodeBlob []
    rw [List.append_nil] at hread
    rw [Encode.bool, List.singleton_append, trailingFields, hread, hrelay]

/-- Nothing may follow a version message that has all fields: they are read to the end. -/
theorem run_encode {m : VersionMessage} (h : m.Fits) :
    Codec.decode.run (Codec.encode m) = .ok (m.canon, []) := by
  have hgate : relayVersion ≤ m.canon.mandatory.version ↔ relayVersion ≤ m.version :=
    relayVersion_le_meaning m.version
  have hhead := reads_mandatory h
    (if relayVersion ≤ m.version then
      Encode.bool m.relay ++ AssociationId.encodeOptional m.associationId else [])
  rw [show (Codec.decode : Decoder VersionMessage) = decodeMandatory >>= _ from rfl,
    show Codec.encode m = m.encodeMandatory ++ _ from rfl, Decoder.run_bind_ok _ hhead]
  by_cases hrelay : relayVersion ≤ m.version
  · rw [if_pos hrelay, if_pos (hgate.mpr hrelay)]
    simp only [Decoder.run_bind, trailingFields_encode, Decoder.run_pure]
    simp [mandatory, canon, hrelay]
  · rw [if_neg (mt hgate.mp hrelay), Decoder.run_pure]
    simp [mandatory, canon, hrelay]

theorem yields : Yields (Codec.decode : Decoder VersionMessage) fun m => m.canon = m := by
  refine .bind yields_mandatory fun m hm => ?_
  obtain ⟨version, services, time, receiver, sender, nonce, userAgent, startHeight, relay, id⟩ := m
  simp only [mandatory, canon, VersionMessage.mk.injEq] at hm
  obtain ⟨hversion, -, -, hreceiver, hsender, hnonce, hagent, hheight, hnorelay, hnoid⟩ := hm
  by_cases hrelay : relayVersion ≤ version
  · simp only [if_pos hrelay]
    refine .seq fun fields => yields_pure ?_
    simp only [canon, hversion, hreceiver, hsender, hnonce, hagent, hheight, if_pos hrelay]
  · simp only [if_neg hrelay]
    refine yields_pure ?_
    simp only [canon, hversion, hreceiver, hsender, hnonce, hagent, hheight, if_neg hrelay, hnorelay,
      hnoid]

theorem fits_of_length (m : VersionMessage) (h : (Codec.encode m).length ≤ maxLength.toNat) :
    m.Fits := by
  intro hsender
  have hle := Encode.utf8ByteSize_le_text (m.userAgent.getD "")
  simp only [Codec.encode, encodeMandatory, if_pos hsender, List.length_append] at h
  omega

end VersionMessage

end BitcoinPeer
