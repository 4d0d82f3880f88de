import BitcoinPeer.Proofs.Message.Encoding
import BitcoinPeer.Proofs.Peer.Association

/-!
# Opening streams without an association

A request for a stream and its confirmation begin with an association id, and other fields follow. For
no id nothing is written, while a reader always takes a length first; so it takes the kind of the stream
for that length, and what was written without an id is never read back. A reader has a form for it all
the same: any byte string that is no id stands for none. So messages without an id are read, and are
lost when they are written again (`stream_readBack_iff`).

The argument counts bytes and is the same for both messages (`OpensWithId`): a reader takes at least one
byte in front of the other fields, and without an id none is written there.
-/

namespace BitcoinPeer

open AssociationId (decodeBlob encodeOptional takes_decodeBlob Leads eq_some_iff_leads)
open Decoder (Reads Yields)

/-- Messages of a type begin with an association id, in front of other fields, the body. -/
structure OpensWithId {α : Type} [Codec α] (Fits : α → Prop) (id? : α → Option AssociationId)
    (body : α → Bytes) : Prop where
  encode_eq : ∀ a, Codec.encode a = encodeOptional (id? a) ++ body a
  reads : ∀ a, Fits a → (id? a).isSome → Reads Codec.decode (Codec.encode a) a
  yields : Yields (Codec.decode : Decoder α) Fits
  takes : (Codec.decode : Decoder α).Takes fun a => 1 + (body a).length
  found : ∀ {bs a rest}, Codec.decode.run bs = .ok (a, rest) →
    ∃ mid, decodeBlob.run bs = .ok (id? a, mid)

namespace OpensWithId

variable {α : Type} [Codec α] {Fits : α → Prop} {id? : α → Option AssociationId} {body : α → Bytes}
  {a : α} {payload : Bytes}

/-- A message that is read back has an id. -/
theorem isSome_of_run (h : OpensWithId Fits id? body) {rest : Bytes}
    (hrun : Codec.decode.run (Codec.encode a) = .ok (a, rest)) : (id? a).isSome := by
  by_contra hnone
  rw [Bool.not_eq_true, Option.isSome_eq_false_iff, Option.isNone_iff_eq_none] at hnone
  have htakes : 1 + (body a).length + rest.length ≤ (Codec.encode a).length := h.takes hrun
  -- nothing is written in front of the body
  rw [h.encode_eq, hnone, encodeOptional, List.nil_append] at htakes
  omega

theorem front_encode_iff (h : OpensWithId Fits id? body) (ha : Fits a) :
    Codec.decode.front (Codec.encode a) = .ok a ↔ (id? a).isSome := by
  constructor
  · intro hfront
    obtain ⟨rest, hrun⟩ := Decoder.front_eq_ok_iff.mp hfront
    exact h.isSome_of_run hrun
  · intro hid
    exact (h.reads a ha hid).front

/-- What was read is read back if it was read from bytes that begin with an id. -/
theorem front_encode_iff_leads (h : OpensWithId Fits id? body)
    (hread : Codec.decode.front payload = .ok a) :
    Codec.decode.front (Codec.encode a) = .ok a ↔ ∃ id, Leads id payload := by
  obtain ⟨rest, hrun⟩ := Decoder.front_eq_ok_iff.mp hread
  obtain ⟨mid, hfound⟩ := h.found hrun
  rw [h.front_encode_iff (h.yields hrun), Option.isSome_iff_exists]
  exact exists_congr fun id => eq_some_iff_leads hfound

end OpensWithId

theorem CreateStream.opensWithId : OpensWithId CreateStream.Fits CreateStream.associationId
    fun c => Encode.uint8 c.streamType ++ Encode.byteString c.streamPolicy where
  encode_eq c := List.append_assoc _ _ _
  reads c hfits hid := CreateStream.reads hid hfits
  yields := .seq fun _ => .seq fun _ => .bind Decoder.yields_byteString fun _ h =>
    Decoder.yields_pure h
  takes := by
    refine takes_decodeBlob.bind fun id => Decoder.takes_uint8.bind fun kind => .ret ?_
    refine Decoder.takes_byteString.mono fun policy => ?_
    show 1 + (Encode.uint8 kind ++ Encode.byteString policy).length - 1 - 1 ≤
      (Encode.byteString policy).length
    rw [List.length_append, Encode.uint8, List.length_singleton]
    omega
  found := by
    intro bs c rest hrun
    obtain ⟨id, mid, hid, hrest⟩ := Decoder.exists_of_run_bind hrun
    obtain ⟨kind, mid', -, hrest⟩ := Decoder.exists_of_run_bind hrest
    obtain ⟨policy, mid'', -, hrest⟩ := Decoder.exists_of_run_bind hrest
    cases hrest
    exact ⟨mid, hid⟩

theorem StreamAck.opensWithId : OpensWithId (fun _ => True) StreamAck.associationId
    fun a => Encode.uint8 a.streamType where
  encode_eq a := rfl
  reads a _ hid := StreamAck.reads hid
  yields _ _ _ _ := trivial
  takes := by
    refine takes_decodeBlob.bind fun id => .ret (Decoder.takes_uint8.mono fun kind => ?_)
    exact Nat.le_refl 1
  found := by
    intro bs a rest hrun
    obtain ⟨id, mid, hid, hrest⟩ := Decoder.exists_of_run_bind hrun
    obtain ⟨kind, mid', -, hrest⟩ := Decoder.exists_of_run_bind hrest
    cases hrest
    exact ⟨mid, hid⟩

/-- **Streams, written and read back**: a request for a stream or its confirmation is read back if it
has an association id, and not without one; and one that was read from a payload is read back if the
payload begins with an id, and not if it begins with a byte string that is none. -/
theorem stream_readBack_iff {request : CreateStream} (hfits : request.Fits) (ack : StreamAck)
    (payload : Bytes) :
    (Codec.decode.front (Codec.encode request) = .ok request ↔ request.associationId.isSome) ∧
    (Codec.decode.front (Codec.encode ack) = .ok ack ↔ ack.associationId.isSome) ∧
    (∀ c : CreateStream, Codec.decode.front payload = .ok c →
      (Codec.decode.front (Codec.encode c) = .ok c ↔ ∃ id, Leads id payload)) ∧
    ∀ a : StreamAck, Codec.decode.front payload = .ok a →
      (Codec.decode.front (Codec.encode a) = .ok a ↔ ∃ id, Leads id payload) := by
  refine ⟨?_, ?_, ?_, ?_⟩
  · exact CreateStream.opensWithId.front_encode_iff hfits
  · exact StreamAck.opensWithId.front_encode_iff trivial
  · intro c hread
    exact CreateStream.opensWithId.front_encode_iff_leads hread
  · intro a hread
    exact StreamAck.opensWithId.front_encode_iff_leads hread

/-- An id behind a length in a longer form, and a confirmation without an id. -/
theorem stream_readBack_iff_padded :
    let payload : Bytes := [0xfd, 17, 0] ++ Bytes.zeros 17 ++ [2, 0]
    let c : CreateStream :=
      { associationId := some ⟨Octets.zero 16⟩, streamType := 2, streamPolicy := [] }
    let a : StreamAck := { associationId := none, streamType := 2 }
    Codec.decode.front payload = .ok c ∧ Codec.encode c ≠ payload ∧ c.Fits ∧
      Codec.decode.front (Codec.encode c) = .ok c ∧ (∃ id, Leads id payload) ∧
      Codec.decode.front [0, 2] = .ok a ∧ Codec.decode.front (Codec.encode a) ≠ .ok a ∧
      ¬ ∃ id, Leads id [0, 2] := by
  intro payload c a
  have hfits : c.Fits := Nat.zero_le _
  obtain ⟨hrequest, -, hrequestRead, -⟩ := stream_readBack_iff hfits a payload
  obtain ⟨-, hack, -, hackRead⟩ := stream_readBack_iff hfits a [0, 2]
  have hc : Codec.decode.front payload = .ok c := by decide
  have hback : Codec.decode.front (Codec.encode c) = .ok c := hrequest.mpr rfl
  have ha : Codec.decode.front [0, 2] = .ok a := by decide
  have hlost : Codec.decode.front (Codec.encode a) ≠ .ok a := fun h => nomatch hack.mp h
  exact ⟨hc, by decide, hfits, hback, (hrequestRead c hc).mp hback, ha, hlost,
    fun hleads => hlost ((hackRead a ha).mpr hleads)⟩

/-- Both messages without an id are read from a payload that begins with an empty byte string. When the
request is written and read again, another one comes out; the confirmation is cut short. -/
theorem not_readBack_without_id :
    let c : CreateStream := { associationId := none, streamType := 0, streamPolicy := [0] }
    let a : StreamAck := { associationId := none, streamType := 0 }
    c.Fits ∧ Codec.decode.front [0, 0, 1, 0] = .ok c ∧
      Codec.decode.front (Codec.encode c) = .ok { c with streamType := 1, streamPolicy := [] } ∧
      Codec.decode.front (Codec.encode c) ≠ .ok c ∧ Codec.decode.front [0, 0] = .ok a ∧
      (Codec.decode : Decoder StreamAck).front (Codec.encode a) = .error (.truncated 1) := by
  intro c a
  have hfits : c.Fits := by
    show [0].length ≤ maxLength.toNat
    decide
  exact ⟨hfits, by decide, by decide, by decide, by decide, by decide⟩

end BitcoinPeer
