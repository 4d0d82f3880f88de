import BitcoinPeer.Proofs.Codec.Consumption
import BitcoinPeer.Proofs.Peer.Encoding

/-!
# Where an association id stands

An id is read where its bytes stand behind a length of 17, whichever form that has, and behind the type
byte (`AssociationId.decodeBlob_eq_some_iff`). Any other byte string is read as well, and stands for
none; so every reading of an id takes at least one byte, also where none is read, while nothing at all
is written for none.
-/

namespace BitcoinPeer.AssociationId

variable {id : AssociationId} {bs rest blob : Bytes}

/-- The bytes begin with an id: with the length of its blob in any form, the type byte, and the bytes
of the id. -/
def Leads (id : AssociationId) (bs : Bytes) : Prop :=
  ∃ size rest, CompactSize.Form 17 size ∧ bs = size ++ (kind :: id.octets.bytes ++ rest)

/-- An id is read from its own blob and from no other. -/
theorem ofBlob?_eq_some_iff : ofBlob? blob = some id ↔ blob = id.toBlob := by
  refine ⟨fun h => ?_, fun h => h ▸ ofBlob?_toBlob id⟩
  cases blob with
  | nil => cases h
  | cons b octets =>
    rw [ofBlob?] at h
    split at h
    · rename_i hkind
      obtain ⟨octets', hoctets, rfl⟩ := Option.map_eq_some_iff.mp h
      rw [toBlob, hkind, Octets.ofBytes?_eq_some_iff.mp hoctets]
    · cases h

/-- An id is read from bytes that begin with it, and leaves what follows. -/
theorem decodeBlob_eq_some_iff :
    decodeBlob.run bs = .ok (some id, rest) ↔
      ∃ size, CompactSize.Form 17 size ∧ bs = size ++ (id.toBlob ++ rest) := by
  have hlen : id.toBlob.length = 17 := id.length_toBlob
  constructor
  · intro hrun
    obtain ⟨blob, mid, hblob, hid⟩ := Decoder.exists_of_run_bind hrun
    obtain ⟨hsome, rfl⟩ := Prod.mk.inj (Except.ok.inj hid)
    obtain rfl := ofBlob?_eq_some_iff.mp hsome
    obtain ⟨-, size, hform, rfl⟩ := Decoder.run_byteString_eq_ok_iff.mp hblob
    rw [hlen] at hform
    exact ⟨size, hform, rfl⟩
  · rintro ⟨size, hform, rfl⟩
    have hblob : Decoder.byteString.run (size ++ (id.toBlob ++ rest)) = .ok (id.toBlob, rest) := by
      refine Decoder.run_byteString_eq_ok_iff.mpr ⟨?_, size, ?_, rfl⟩
      · rw [hlen]
        decide
      · rw [hlen]
        exact hform
    rw [decodeBlob, Decoder.run_bind_ok _ hblob, ofBlob?_toBlob]
    rfl

theorem leads_iff : id.Leads bs ↔ ∃ rest, decodeBlob.run bs = .ok (some id, rest) := by
  simp only [decodeBlob_eq_some_iff]
  exact exists_comm

/-- What is found at the front of bytes is the id that they begin with, if they begin with one. -/
theorem eq_some_iff_leads {found : Option AssociationId} (h : decodeBlob.run bs = .ok (found, rest)) :
    found = some id ↔ id.Leads bs := by
  rw [leads_iff, h]
  constructor
  · rintro rfl
    exact ⟨rest, rfl⟩
  · rintro ⟨rest', hrun⟩
    exact (Prod.mk.inj (Except.ok.inj hrun)).1

/-- Reading an id takes a length at least. -/
theorem takes_decodeBlob : decodeBlob.Takes fun _ => 1 := by
  refine .ret (Decoder.takes_byteString.mono fun blob => ?_)
  have hpos := CompactSize.encode_pos (UInt64.ofNat blob.length)
  rw [Encode.byteString, List.length_append]
  omega

end BitcoinPeer.AssociationId
