import BitcoinPeer.Message.Alert
import BitcoinPeer.Message.Callback
import BitcoinPeer.Proofs.Codec.Varint
import BitcoinPeer.Proofs.Peer.Encoding

/-!
# Callback descriptors and alerts, written and read back

A descriptor may list addresses of both families, but its version gives all of them one width, so an
address that has another width on the wire comes back changed (`Carries`). Nothing else does: the two
counts in front of the lists, of which one is a compact size and the other a varint, and all that stands
behind an address are read where they were written. What has been read once has addresses of that width
only and comes back as it is. So does an alert that may be written at all.
-/

namespace BitcoinPeer

open Decoder (Reads Yields reads_int32 reads_int64 reads_uint8 reads_octets reads_byteString
  reads_list_same reads_counted reads_replicate yields_byteString yields_length_replicate yields_pure)

namespace Decoder

variable {α : Type} {ns : List UInt64}

/-- The number of elements that are read is a word. -/
theorem yields_length_lt (number : Decoder UInt64) (d : Decoder α) :
    Yields (number >>= fun count => replicate d count.toNat) (·.length < UInt64.size) := by
  refine .seq fun count bs as rest hrun => ?_
  rw [yields_length_replicate d count.toNat hrun]
  exact count.toNat_lt

theorem yields_length_counted (d : Decoder α) : Yields (counted d) (·.length < UInt64.size) :=
  yields_length_lt CompactSize.decode d

theorem yields_length_varints : Yields varints (·.length < UInt64.size) :=
  yields_length_lt Varint.decode Varint.decode

theorem reads_varints (h : ns.length < UInt64.size) : Reads varints (Encode.varints ns) ns := by
  have hread : Reads (replicate Varint.decode ns.length) (ns.flatMap Varint.encode) (ns.map id) :=
    reads_replicate fun n _ => Varint.reads_decode n
  rw [List.map_id] at hread
  refine .bind (Varint.reads_decode _) ?_
  rwa [UInt64.toNat_ofNat_of_lt' h]

end Decoder

/-! ### Callback descriptors -/

theorem IpAddress.ofMapped?_eq_some_iff {octets : Octets 16} {octets' : Octets 4} :
    ofMapped? octets = some octets' ↔ toMapped octets' = octets := by
  constructor
  · intro h
    obtain ⟨bytes, hlength⟩ := octets
    rw [ofMapped?] at h
    split_ifs at h with hlead
    have hrest : octets'.bytes = bytes.drop 12 := Octets.ofBytes?_eq_some_iff.mp h
    simp only [toMapped, ← hlead, hrest, List.take_append_drop]
  · rintro rfl
    exact ofMapped?_toMapped octets'

namespace CallbackDescriptor

variable {version : UInt8} {c : CallbackDescriptor}

/-- What an address comes back as from a descriptor of a version. -/
inductive Carries (version : UInt8) : IpAddress → IpAddress → Prop
  | widened (octets : Octets 4) (h : version = wideVersion) :
      Carries version (.v4 octets) (.v6 (IpAddress.toMapped octets))
  | wide (octets : Octets 16) (h : version = wideVersion) : Carries version (.v6 octets) (.v6 octets)
  | narrow (octets : Octets 4) (h : version ≠ wideVersion) : Carries version (.v4 octets) (.v4 octets)
  | mapped (octets : Octets 4) (h : version ≠ wideVersion) :
      Carries version (.v6 (IpAddress.toMapped octets)) (.v4 octets)
  /-- The address maps none of the older family, and all zero is written in its place. -/
  | unmapped (octets : Octets 16) (h : version ≠ wideVersion)
      (hother : ∀ octets', IpAddress.toMapped octets' ≠ octets) :
      Carries version (.v6 octets) (.v4 (Octets.zero 4))

/-- The address that comes back. -/
def carried (version : UInt8) : IpAddress → IpAddress
  | .v4 octets => if version = wideVersion then .v6 (IpAddress.toMapped octets) else .v4 octets
  | .v6 octets =>
    if version = wideVersion then .v6 octets
    else .v4 ((IpAddress.ofMapped? octets).getD (Octets.zero 4))

theorem carries_carried (version : UInt8) (ip : IpAddress) :
    Carries version ip (carried version ip) := by
  cases ip with
  | v4 octets =>
    rw [carried]
    split_ifs with h
    · exact .widened octets h
    · exact .narrow octets h
  | v6 octets =>
    rw [carried]
    split_ifs with h
    · exact .wide octets h
    · cases hmapped : IpAddress.ofMapped? octets with
      | some octets' =>
        obtain rfl := IpAddress.ofMapped?_eq_some_iff.mp hmapped
        exact .mapped octets' h
      | none =>
        refine .unmapped octets h fun octets' heq => ?_
        rw [IpAddress.ofMapped?_eq_some_iff.mpr heq] at hmapped
        cases hmapped

theorem reads_address (version : UInt8) (ip : IpAddress) :
    Reads (decodeAddress version) (addressBytes version ip) (carried version ip) := by
  cases ip with
  | v4 octets =>
    rw [decodeAddress, addressBytes, carried]
    split_ifs
    · exact .ret (reads_octets (IpAddress.toMapped octets))
    · exact .ret (reads_octets octets)
  | v6 octets =>
    rw [decodeAddress, addressBytes, carried]
    split_ifs
    · exact .ret (reads_octets octets)
    · exact .ret (reads_octets ((IpAddress.ofMapped? octets).getD (Octets.zero 4)))

/-- All addresses that are read have the width of the version, so they come back as they are. -/
theorem yields_address (version : UInt8) :
    Yields (decodeAddress version) fun ip => carried version ip = ip := by
  by_cases h : version = wideVersion
  · rw [decodeAddress, if_pos h]
    exact .seq fun octets => yields_pure (by rw [carried, if_pos h])
  · rw [decodeAddress, if_neg h]
    exact .seq fun octets => yields_pure (by rw [carried, if_neg h])

/-- The descriptor that comes back. -/
def canon (c : CallbackDescriptor) : CallbackDescriptor :=
  { c with addresses := c.addresses.map (carried c.version) }

/-- The numbers of elements are words, as they are of any list in memory. -/
structure Fits (c : CallbackDescriptor) : Prop where
  addresses : c.addresses.length < UInt64.size
  inputs : c.inputs.length < UInt64.size

theorem reads (h : c.Fits) : Reads Codec.decode (Codec.encode c) c.canon := by
  refine .of_eq (.bind (reads_uint8 c.version) <|
    .bind (reads_counted h.addresses fun ip _ => reads_address c.version ip) <|
    .ret (Decoder.reads_varints h.inputs)) ?_
  simp only [Codec.encode, List.append_assoc]

theorem yields : Yields (Codec.decode : Decoder CallbackDescriptor) fun c =>
    c.Fits ∧ c.canon = c := by
  refine .seq fun version => .bind ((yields_address version).counted.and
    (Decoder.yields_length_counted _)) fun addresses haddresses =>
      Decoder.yields_length_varints.bind fun inputs hinputs => yields_pure ?_
  refine ⟨⟨haddresses.2, hinputs⟩, ?_⟩
  rw [canon, List.map_congr_left haddresses.1, List.map_id']

end CallbackDescriptor

/-! ### Alerts -/

namespace UnsignedAlert

/-- No list and no byte string is longer than a length may say. -/
structure Fits (a : UnsignedAlert) : Prop where
  setCancel : a.setCancel.length ≤ maxLength.toNat
  setSubVersion : AllFit (fun v : VarBytes => v.bytes.length ≤ maxLength.toNat) a.setSubVersion
  comment : a.comment.length ≤ maxLength.toNat
  statusBar : a.statusBar.length ≤ maxLength.toNat
  reserved : a.reserved.length ≤ maxLength.toNat

variable {a : UnsignedAlert}

theorem reads (h : a.Fits) : Reads Codec.decode (Codec.encode a) a := by
  refine .of_eq (.bind (reads_int32 a.version) <| .bind (reads_int64 a.relayUntil) <|
    .bind (reads_int64 a.expiration) <| .bind (reads_int32 a.id) <| .bind (reads_int32 a.cancel) <|
    .bind (reads_list_same (.of_true h.setCancel) fun n _ => reads_int32 n) <|
    .bind (reads_int32 a.minVersion) <| .bind (reads_int32 a.maxVersion) <|
    .bind (reads_list_same h.setSubVersion fun v hv => .ret (reads_byteString hv)) <|
    .bind (reads_int32 a.priority) <| .bind (reads_byteString h.comment) <|
    .bind (reads_byteString h.statusBar) <| .ret (reads_byteString h.reserved)) ?_
  simp only [Codec.encode, List.append_assoc]

theorem yields_fits : Yields (Codec.decode : Decoder UnsignedAlert) Fits := by
  have hany : Yields Decoder.int32 fun _ => True := fun _ _ _ _ => trivial
  have hbytes : Yields (Codec.decode : Decoder VarBytes) (·.bytes.length ≤ maxLength.toNat) :=
    yields_byteString.bind fun _ hbs => yields_pure hbs
  exact .seq fun _ => .seq fun _ => .seq fun _ => .seq fun _ => .seq fun _ => hany.allFit.bind
    fun _ hcancel => .seq fun _ => .seq fun _ => hbytes.allFit.bind fun _ hsub => .seq fun _ =>
    yields_byteString.bind fun _ hcomment => yields_byteString.bind fun _ hstatus =>
    yields_byteString.bind fun _ hreserved =>
    yields_pure ⟨hcancel.length, hsub, hcomment, hstatus, hreserved⟩

end UnsignedAlert

/-! ### Both of them -/

/-- **Written and read back**: of a callback descriptor, version and inputs come back as they are and
each address in the width of the version, with nothing of what follows read; an alert comes back as it
is; and whatever was read of either comes back as it is. -/
theorem descriptors_readBack (bs rest : Bytes) :
    (∀ c : CallbackDescriptor, c.Fits →
      ∃ c' : CallbackDescriptor, Codec.decode.run (Codec.encode c ++ rest) = .ok (c', rest) ∧
        c'.version = c.version ∧ c'.inputs = c.inputs ∧
        List.Forall₂ (CallbackDescriptor.Carries c.version) c.addresses c'.addresses) ∧
    (∀ (c : CallbackDescriptor) (unread : Bytes), Codec.decode.run bs = .ok (c, unread) →
      Codec.decode.run (Codec.encode c ++ rest) = .ok (c, rest)) ∧
    (∀ a : UnsignedAlert, a.Fits → Codec.decode.run (Codec.encode a ++ rest) = .ok (a, rest)) ∧
    ∀ (a : UnsignedAlert) (unread : Bytes), Codec.decode.run bs = .ok (a, unread) →
      Codec.decode.run (Codec.encode a ++ rest) = .ok (a, rest) := by
  refine ⟨?_, ?_, ?_, ?_⟩
  · intro c hfits
    refine ⟨c.canon, CallbackDescriptor.reads hfits rest, rfl, rfl, ?_⟩
    rw [CallbackDescriptor.canon, List.forall₂_map_right_iff, List.forall₂_same]
    exact fun ip _ => CallbackDescriptor.carries_carried c.version ip
  · intro c unread hrun
    obtain ⟨hfits, hcanon⟩ := CallbackDescriptor.yields hrun
    have hread := CallbackDescriptor.reads hfits rest
    rwa [hcanon] at hread
  · exact fun a hfits => UnsignedAlert.reads hfits rest
  · exact fun a unread hrun => UnsignedAlert.reads (UnsignedAlert.yields_fits hrun) rest

/-- Addresses of both families in one descriptor, and an alert with two numbers in a list. -/
theorem descriptors_readBack_mixed :
    let c : CallbackDescriptor := {
      version := 129
      addresses := [.v4 ⟨[127, 0, 0, 1], rfl⟩, .v6 (Octets.zero 16)]
      inputs := [300] }
    let a : UnsignedAlert := { setCancel := [1, 2], comment := [3] }
    let stored : CallbackDescriptor × UnsignedAlert := ({}, { version := 0 })
    let rest : Bytes := [7]
    c.Fits ∧
      (∃ c' : CallbackDescriptor, Codec.decode.run (Codec.encode c ++ rest) = .ok (c', rest) ∧
        c'.version = 129 ∧ c'.inputs = [300] ∧
        List.Forall₂ (CallbackDescriptor.Carries 129) c.addresses c'.addresses) ∧
      Codec.decode.run [1, 1, 127, 0, 0, 1, 1, 0, 9] = .ok (stored.1, [9]) ∧
      Codec.decode.run (Codec.encode stored.1 ++ rest) = .ok (stored.1, rest) ∧
      a.Fits ∧ Codec.decode.run (Codec.encode a ++ rest) = .ok (a, rest) ∧
      Codec.decode.run (Bytes.zeros 45) = .ok (stored.2, []) ∧
      Codec.decode.run (Codec.encode stored.2 ++ rest) = .ok (stored.2, rest) := by
  intro c a stored rest
  have hc : c.Fits := ⟨by decide, by decide⟩
  have ha : a.Fits := ⟨by decide, ⟨by decide, nofun⟩, by decide, by decide, by decide⟩
  have hread : Codec.decode.run [1, 1, 127, 0, 0, 1, 1, 0, 9] = .ok (stored.1, [9]) := by decide
  have hzeros : Codec.decode.run (Bytes.zeros 45) = .ok (stored.2, []) := by decide +kernel
  obtain ⟨hdescriptor, hagain, halert, -⟩ := descriptors_readBack [1, 1, 127, 0, 0, 1, 1, 0, 9] rest
  obtain ⟨-, -, -, halertAgain⟩ := descriptors_readBack (Bytes.zeros 45) rest
  exact ⟨hc, hdescriptor c hc, hread, hagain stored.1 [9] hread, ha, halert a ha, hzeros,
    halertAgain stored.2 [] hzeros⟩

end BitcoinPeer
