import BitcoinPeer.Peer.Address
import BitcoinPeer.Peer.Association
import BitcoinPeer.Proofs.Codec.Reading

/-!
# Addresses and associations, written and read back

An address comes back in its canonical form, in which one of the newer family that maps one of the
older is that one. An association id comes back as it is.
-/

namespace BitcoinPeer

open Decoder (Reads Yields reads_octets reads_uint16BE reads_uint32 reads_uint64 reads_byteString)

/-! ### Addresses -/

namespace IpAddress

/-- A mapped address is one of the older family. -/
def canon : IpAddress → IpAddress
  | v4 octets => v4 octets
  | v6 octets => ofOctets16 octets

theorem ofMapped?_toMapped (octets : Octets 4) : ofMapped? (toMapped octets) = some octets := by
  have htake : (toMapped octets).bytes.take 12 = mappedLead :=
    List.take_left' (by rw [mappedLead, List.length_append, Bytes.length_zeros]; rfl)
  have hdrop : (toMapped octets).bytes.drop 12 = octets.bytes :=
    List.drop_left' (by rw [mappedLead, List.length_append, Bytes.length_zeros]; rfl)
  rw [ofMapped?, if_pos htake, hdrop, Octets.ofBytes?_bytes]

theorem ofOctets16_toOctets16 (ip : IpAddress) : ofOctets16 ip.toOctets16 = ip.canon := by
  cases ip with
  | v4 octets => rw [toOctets16, ofOctets16, ofMapped?_toMapped, canon]
  | v6 octets => rfl

theorem canon_ofOctets16 (octets : Octets 16) : (ofOctets16 octets).canon = ofOctets16 octets := by
  cases h : ofMapped? octets with
  | none =>
    have hv6 : ofOctets16 octets = v6 octets := by rw [ofOctets16, h]
    rw [hv6, canon, hv6]
  | some mapped => simp only [ofOctets16, h, canon]

theorem canon_canon (ip : IpAddress) : ip.canon.canon = ip.canon := by
  rw [← ofOctets16_toOctets16 ip, canon_ofOctets16]

theorem reads (ip : IpAddress) : Reads Codec.decode (Codec.encode ip) ip.canon := by
  rw [← ofOctets16_toOctets16]
  exact .ret (reads_octets ip.toOctets16)

theorem yields : Yields (Codec.decode : Decoder IpAddress) fun ip => ip.canon = ip :=
  .seq fun octets => Decoder.yields_pure (canon_ofOctets16 octets)

end IpAddress

theorem Services.reads (s : Services) : Reads Codec.decode (Codec.encode s) s :=
  .ret (reads_uint64 s.bits)

@[simp] theorem Services.length_encode (s : Services) : (Codec.encode s).length = 8 :=
  Encode.length_uint64 s.bits

namespace PeerAddress

def canon (a : PeerAddress) : PeerAddress :=
  { a with ip := a.ip.canon }

theorem canon_canon (a : PeerAddress) : a.canon.canon = a.canon := by
  rw [canon, canon, IpAddress.canon_canon]

theorem reads (a : PeerAddress) : Reads Codec.decode (Codec.encode a) a.canon :=
  .of_eq (.bind a.services.reads <| .bind a.ip.reads <| .ret (reads_uint16BE a.port))
    (List.append_assoc _ _ _)

theorem yields : Yields (Codec.decode : Decoder PeerAddress) fun a => a.canon = a :=
  .seq fun services => .bind IpAddress.yields fun ip hip => .seq fun port =>
    Decoder.yields_pure (by rw [canon, hip])

@[simp] theorem length_encode (a : PeerAddress) : (Codec.encode a).length = 26 := by
  simp [Codec.encode, Octets.length_bytes, Encode.uint16BE]

end PeerAddress

namespace SeenAddress

def canon (a : SeenAddress) : SeenAddress :=
  { a with address := a.address.canon }

theorem canon_canon (a : SeenAddress) : a.canon.canon = a.canon := by
  rw [canon, canon, PeerAddress.canon_canon]

theorem reads (a : SeenAddress) : Reads Codec.decode (Codec.encode a) a.canon :=
  .bind (reads_uint32 a.time) <| .ret a.address.reads

theorem yields : Yields (Codec.decode : Decoder SeenAddress) fun a => a.canon = a :=
  .seq fun time => .bind PeerAddress.yields fun address haddress =>
    Decoder.yields_pure (by rw [canon, haddress])

theorem encode_pos (a : SeenAddress) : 0 < (Codec.encode a).length := by
  have hlen : (Codec.encode a).length = 4 + 26 := by
    rw [← Encode.length_uint32 a.time, ← a.address.length_encode]
    exact List.length_append
  omega

end SeenAddress

/-! ### Associations -/

namespace AssociationId

theorem ofBlob?_toBlob (id : AssociationId) : ofBlob? id.toBlob = some id := by
  rw [toBlob, ofBlob?, if_pos rfl, Octets.ofBytes?_bytes, Option.map_some]

theorem length_toBlob (id : AssociationId) : id.toBlob.length = 17 := by
  rw [toBlob, List.length_cons, id.octets.length_bytes]

theorem reads_decodeBlob (id : AssociationId) :
    Reads decodeBlob (encodeOptional (some id)) (some id) := by
  have hlen : id.toBlob.length ≤ maxLength.toNat := by
    rw [length_toBlob]
    decide
  have hread : Reads decodeBlob (encodeOptional (some id)) (ofBlob? id.toBlob) :=
    .ret (reads_byteString hlen)
  rwa [ofBlob?_toBlob] at hread

end AssociationId

end BitcoinPeer
