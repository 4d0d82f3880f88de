import BitcoinPeer.Proofs.Message.Encoding
import BitcoinPeer.Proofs.Message.Streaming
import BitcoinPeer.Proofs.Peer.Association

/-!
# What follows the mandatory fields of a version message

A version message ends with a relay flag and an association id, which may be missing or mangled: no
bytes at all that stand there make a reader fail, and none of them changes a field in front. The fields
in front are another matter. They are read like any other payload as it arrives (`streams_mandatory`),
so whatever is cut short before their end is reported (`VersionMessage.decode_any_tail`).
-/

namespace BitcoinPeer.VersionMessage

open AssociationId (decodeBlob Leads leads_iff eq_some_iff_leads)
open Decoder (Streams streams_pure streams_int32 streams_int64 streams_uint64 streams_text)

variable {m : VersionMessage} {id : AssociationId} {bs tail : Bytes} {e : DecodeError}

/-! ### The mandatory fields -/

theorem streams_mandatory : decodeMandatory.Streams := by
  refine streams_int32.bind fun number => Services.streams.bind fun services =>
    streams_int64.bind fun time => PeerAddress.streams.bind fun receiver => ?_
  have hheight (front : VersionMessage) : Streams (if initialVersion ≤ meaning number then do
        let startHeight ← Decoder.int32
        return { front with startHeight := some startHeight }
      else return front) := streams_int32.ret.ite (streams_pure front)
  simp only [pure_bind]
  split
  · exact PeerAddress.streams.bind fun sender => streams_uint64.bind fun nonce =>
      streams_text.bind fun userAgent => hheight _
  · exact hheight _

theorem front_error (h : decodeMandatory.run bs = .error e) :
    (Codec.decode : Decoder VersionMessage).front bs = .error e := by
  have hrun : (Codec.decode : Decoder VersionMessage).run bs = .error e :=
    Decoder.run_bind_error _ h
  rw [Decoder.front, hrun]
  rfl

/-! ### The trailing fields -/

/-- The message with the fields that are found behind its mandatory ones. -/
def withTrailing (m : VersionMessage) (tail : Bytes) : VersionMessage :=
  if relayVersion ≤ m.version then
    { m with relay := (trailingFields tail).1.1, associationId := (trailingFields tail).1.2 }
  else m

theorem front_ok (h : decodeMandatory.run bs = .ok (m, tail)) :
    Codec.decode.front bs = .ok (m.withTrailing tail) := by
  rw [Decoder.front, show (Codec.decode : Decoder VersionMessage) = decodeMandatory >>= _ from rfl,
    Decoder.run_bind_ok _ h, withTrailing]
  split <;> rfl

/-- The flag is set by any first byte but zero. -/
theorem trailingFields_relay (tail : Bytes) :
    (trailingFields tail).1.1 = (tail.headD 0 != 0) := by
  cases tail with
  | nil => rfl
  | cons b bs =>
    rw [trailingFields]
    split <;> rfl

/-- An id is found if the bytes behind the flag begin with it, and no bytes are mistaken for one. -/
theorem trailingFields_id : (trailingFields tail).1.2 = some id ↔ Leads id tail.tail := by
  cases hrun : decodeBlob.run tail.tail with
  | ok p =>
    rw [← eq_some_iff_leads hrun]
    cases tail with
    | nil => cases hrun
    | cons b bs =>
      rw [List.tail_cons] at hrun
      rw [trailingFields, hrun]
  | error e =>
    have hnone : (trailingFields tail).1.2 = none := by
      cases tail with
      | nil => rfl
      | cons b bs =>
        rw [List.tail_cons] at hrun
        rw [trailingFields, hrun]
        cases e <;> rfl
    have hnot : ¬Leads id tail.tail := by
      rw [leads_iff, hrun]
      rintro ⟨rest, hrest⟩
      cases hrest
    rw [hnone]
    exact iff_of_false (Option.some_ne_none id).symm hnot

theorem mandatory_withTrailing (m : VersionMessage) (tail : Bytes) :
    (m.withTrailing tail).mandatory = m.mandatory := by
  rw [withTrailing]
  split <;> rfl

/-- Without a tail there is no flag and no id. -/
theorem withTrailing_nil (m : VersionMessage) : m.mandatory.withTrailing [] = m.mandatory := by
  rw [withTrailing]
  split <;> rfl

/-! ### Both -/

/-- **Any tail**: a version message is read from its mandatory fields, whatever follows them. They keep
their values, and what follows is the flag and the id if the version has them and counts for nothing
otherwise. Without the end of the mandatory fields the message is cut short. -/
theorem decode_any_tail {v : VersionMessage} (hv : v.Fits) :
    Codec.encode v = v.encodeMandatory ++ (if relayVersion ≤ v.version then
      Encode.bool v.relay ++ AssociationId.encodeOptional v.associationId else []) ∧
    Codec.decode.front v.encodeMandatory = .ok v.canon.mandatory ∧
    (∀ tail, ∃ read : VersionMessage,
      Codec.decode.front (v.encodeMandatory ++ tail) = .ok read ∧
      read.mandatory = v.canon.mandatory ∧
      (v.version < relayVersion → read = v.canon.mandatory) ∧
      (relayVersion ≤ v.version →
        read.relay = (tail.headD 0 != 0) ∧
        ∀ id, read.associationId = some id ↔ id.Leads tail.tail)) ∧
    ∀ part, part <+: v.encodeMandatory → part ≠ v.encodeMandatory →
      ∃ n, (Codec.decode : Decoder VersionMessage).front part = .error (.truncated n) := by
  have hreads := reads_mandatory hv
  have hgate : relayVersion ≤ v.canon.mandatory.version ↔ relayVersion ≤ v.version :=
    relayVersion_le_meaning v.version
  refine ⟨rfl, ?_, ?_, ?_⟩
  · have hfront := front_ok hreads.run_eq
    rwa [withTrailing_nil] at hfront
  · intro tail
    refine ⟨_, front_ok (hreads tail), mandatory_withTrailing _ tail, ?_, ?_⟩
    · intro hbefore
      exact if_neg (mt hgate.mp (Int32.not_le.mpr hbefore))
    · intro hrelay
      rw [withTrailing, if_pos (hgate.mpr hrelay)]
      exact ⟨trailingFields_relay tail, fun id => trailingFields_id⟩
  · intro part hpart hne
    obtain ⟨n, hcut⟩ := streams_mandatory.truncated hreads.run_eq hpart hne
    exact ⟨n, front_error hcut⟩

/-- A message with a flag and an id behind a length in a longer form, the same message cut short within
its version, and a message of an earlier version with the same tail. -/
theorem decode_any_tail_padded :
    let current : VersionMessage :=
      { version := 70015, services := ⟨0⟩, time := 0, receiver := {} }
    let old : VersionMessage := { current with version := 60000 }
    let tail : Bytes := [2, 0xfd, 17, 0] ++ Bytes.zeros 17
    current.Fits ∧ old.Fits ∧
    (∃ read : VersionMessage, Codec.decode.front (current.encodeMandatory ++ tail) = .ok read ∧
      read.startHeight = some (-1) ∧ read.relay = true ∧
      read.associationId = some ⟨Octets.zero 16⟩) ∧
    (∃ n, (Codec.decode : Decoder VersionMessage).front (current.encodeMandatory.take 3) =
      .error (.truncated n)) ∧
    Codec.decode.front (old.encodeMandatory ++ tail) = .ok old.canon.mandatory := by
  intro current old tail
  have hcurrent : current.Fits := fun _ => Nat.zero_le _
  have hold : old.Fits := fun _ => Nat.zero_le _
  obtain ⟨-, -, hread, hcut⟩ := decode_any_tail hcurrent
  obtain ⟨-, -, holdRead, -⟩ := decode_any_tail hold
  refine ⟨hcurrent, hold, ?_, ?_, ?_⟩
  · obtain ⟨read, hfront, hmandatory, -, hfields⟩ := hread tail
    obtain ⟨hrelay, hid⟩ := hfields (by decide)
    have hheight : read.startHeight = some (-1) := congrArg startHeight hmandatory
    have hleads : Leads ⟨Octets.zero 16⟩ tail.tail := leads_iff.mpr ⟨[], by decide⟩
    exact ⟨read, hfront, hheight, hrelay, (hid _).mpr hleads⟩
  · exact hcut _ (List.take_prefix 3 _) (by decide)
  · obtain ⟨read, hfront, -, hignored, -⟩ := holdRead tail
    rw [hfront, hignored (by decide)]

end BitcoinPeer.VersionMessage
