import BitcoinPeer.Chain.CompactBlock
import BitcoinPeer.Chain.Inventory
import BitcoinPeer.Chain.MerkleBlock
import BitcoinPeer.Proofs.Codec.Reading

/-!
# Transactions and blocks, written and read back

All objects of the chain come back as they are, if no byte string and no list in them is too long,
but for two canonical forms: a kind of object that is given by its number though it has a name comes
back by its name, and of a short id the low 48 bits come back.
-/

namespace BitcoinPeer

open Decoder (Reads Yields reads_int32 reads_int64 reads_uint32 reads_uint64 reads_natLE
  reads_compactSize reads_byteString reads_list reads_list_same reads_counted yields_pure)

theorem Hash256.reads (h : Hash256) : Reads Codec.decode (Codec.encode h) h :=
  .ret (Decoder.reads_octets h.octets)

theorem Hash256.reads_list {hs : List Hash256} (h : hs.length ≤ maxLength.toNat) :
    Reads Codec.decode (Codec.encode hs) hs :=
  reads_list_same (.of_true h) fun a _ => a.reads

theorem Hash256.length_le_list (hs : List Hash256) :
    hs.length ≤ (Encode.list Codec.encode hs).length :=
  Encode.length_le_list (fun a => by simp [Codec.encode]) hs

/-! ### Transactions -/

theorem OutPoint.reads (p : OutPoint) : Reads Codec.decode (Codec.encode p) p :=
  .bind p.hash.reads <| .ret (reads_uint32 p.n)

namespace TxIn

def Fits (i : TxIn) : Prop :=
  i.scriptSig.length ≤ maxLength.toNat

theorem reads {i : TxIn} (h : i.Fits) : Reads Codec.decode (Codec.encode i) i :=
  .of_eq (.bind i.prevout.reads <| .bind (reads_byteString h) <| .ret (reads_uint32 i.sequence))
    (List.append_assoc _ _ _)

theorem encode_pos (i : TxIn) : 0 < (Codec.encode i).length := by
  simp only [Codec.encode, List.length_append, Hash256.length_bytes]
  omega

theorem fits_of_length (i : TxIn) (h : (Codec.encode i).length ≤ maxLength.toNat) : i.Fits := by
  have hle := Encode.length_le_byteString i.scriptSig
  simp only [Codec.encode, List.length_append] at h
  unfold Fits
  omega

end TxIn

namespace TxOut

def Fits (o : TxOut) : Prop :=
  o.scriptPubKey.length ≤ maxLength.toNat

theorem reads {o : TxOut} (h : o.Fits) : Reads Codec.decode (Codec.encode o) o :=
  .bind (reads_int64 o.value) <| .ret (reads_byteString h)

theorem encode_pos (o : TxOut) : 0 < (Codec.encode o).length := by
  simp only [Codec.encode, List.length_append, Encode.length_int64]
  omega

theorem fits_of_length (o : TxOut) (h : (Codec.encode o).length ≤ maxLength.toNat) : o.Fits := by
  have hle := Encode.length_le_byteString o.scriptPubKey
  simp only [Codec.encode, List.length_append] at h
  unfold Fits
  omega

end TxOut

namespace Transaction

structure Fits (t : Transaction) : Prop where
  inputs : AllFit TxIn.Fits t.inputs
  outputs : AllFit TxOut.Fits t.outputs

theorem reads {t : Transaction} (h : t.Fits) : Reads Codec.decode (Codec.encode t) t := by
  refine .of_eq (.bind (reads_int32 t.version) <|
    .bind (reads_list_same h.inputs fun _ => TxIn.reads) <|
    .bind (reads_list_same h.outputs fun _ => TxOut.reads) <| .ret (reads_uint32 t.lockTime)) ?_
  simp only [Codec.encode, List.append_assoc]

theorem encode_pos (t : Transaction) : 0 < (Codec.encode t).length := by
  simp only [Codec.encode, List.length_append, Encode.length_int32]
  omega

theorem fits_of_length (t : Transaction) (h : (Codec.encode t).length ≤ maxLength.toNat) :
    t.Fits := by
  have hlen : (Codec.encode t).length = 4 + (Encode.list Codec.encode t.inputs).length +
      (Encode.list Codec.encode t.outputs).length + 4 := by
    simp only [Codec.encode, List.length_append, Encode.length_int32, Encode.length_uint32]
  exact ⟨.of_length TxIn.encode_pos TxIn.fits_of_length (by omega),
    .of_length TxOut.encode_pos TxOut.fits_of_length (by omega)⟩

end Transaction

/-! ### Blocks -/

theorem BlockHeader.reads (h : BlockHeader) : Reads Codec.decode (Codec.encode h) h := by
  refine .of_eq (.bind (reads_int32 h.version) <| .bind h.prevBlock.reads <|
    .bind h.merkleRoot.reads <| .bind (reads_uint32 h.time) <| .bind (reads_uint32 h.bits) <|
    .ret (reads_uint32 h.nonce)) ?_
  simp only [Codec.encode, List.append_assoc]

namespace Block

def Fits (b : Block) : Prop :=
  AllFit Transaction.Fits b.txs

theorem reads {b : Block} (h : b.Fits) : Reads Codec.decode (Codec.encode b) b :=
  .bind b.header.reads <| .ret (reads_list_same h fun _ => Transaction.reads)

theorem encode_pos (b : Block) : 0 < (Codec.encode b).length := by
  simp only [Codec.encode, List.length_append, Encode.length_int32]
  omega

theorem fits_of_length (b : Block) (h : (Codec.encode b).length ≤ maxLength.toNat) : b.Fits := by
  have hlen : (Codec.encode b).length = (Codec.encode b.header).length +
      (Encode.list Codec.encode b.txs).length := List.length_append
  exact AllFit.of_length Transaction.encode_pos Transaction.fits_of_length (by omega)

end Block

namespace BlockLocator

def Fits (l : BlockLocator) : Prop :=
  l.known.length ≤ maxLength.toNat

theorem reads {l : BlockLocator} (h : l.Fits) : Reads Codec.decode (Codec.encode l) l :=
  .bind (reads_int32 l.version) <| .ret (Hash256.reads_list h)

theorem fits_of_length (l : BlockLocator) (h : (Codec.encode l).length ≤ maxLength.toNat) :
    l.Fits := by
  have hlen : (Codec.encode l).length = (Encode.int32 l.version).length +
      (Encode.list Codec.encode l.known).length := List.length_append
  have hle := Hash256.length_le_list l.known
  unfold Fits
  omega

end BlockLocator

/-! ### Compact blocks -/

namespace PrefilledTransaction

def Fits (p : PrefilledTransaction) : Prop :=
  p.tx.Fits

theorem reads {p : PrefilledTransaction} (h : p.Fits) : Reads Codec.decode (Codec.encode p) p :=
  .bind (reads_compactSize p.index) <| .ret (Transaction.reads h)

theorem encode_pos (p : PrefilledTransaction) : 0 < (Codec.encode p).length := by
  have hpos := p.tx.encode_pos
  have hlen : (Codec.encode p).length = (CompactSize.encode p.index).length +
      (Codec.encode p.tx).length := List.length_append
  omega

theorem fits_of_length (p : PrefilledTransaction)
    (h : (Codec.encode p).length ≤ maxLength.toNat) : p.Fits := by
  have hlen : (Codec.encode p).length = (CompactSize.encode p.index).length +
      (Codec.encode p.tx).length := List.length_append
  exact p.tx.fits_of_length (by omega)

end PrefilledTransaction

/-- The low 48 bits of a number. -/
def low48 (n : UInt64) : UInt64 :=
  n &&& 0xffffffffffff

theorem low48_eq (n : UInt64) : low48 n = UInt64.ofNat (n.toNat % Bytes.bound 6) := by
  have hlt : n.toNat % Bytes.bound 6 < UInt64.size :=
    Nat.lt_trans (Nat.mod_lt _ (by decide)) (by decide : Bytes.bound 6 < UInt64.size)
  apply UInt64.toNat_inj.mp
  rw [low48, UInt64.toNat_and, UInt64.toNat_ofNat_of_lt' hlt]
  exact Nat.and_two_pow_sub_one_eq_mod n.toNat 48

theorem low48_low48 (n : UInt64) : low48 (low48 n) = low48 n := by
  rw [low48, low48, UInt64.and_assoc, UInt64.and_self]

namespace CompactBlock

structure Fits (c : CompactBlock) : Prop where
  shortIds : c.shortIds.length ≤ maxLength.toNat
  prefilled : AllFit PrefilledTransaction.Fits c.prefilled

/-- Only the low 48 bits of a short id are kept. -/
def canon (c : CompactBlock) : CompactBlock :=
  { c with shortIds := c.shortIds.map low48 }

theorem canon_canon (c : CompactBlock) : c.canon.canon = c.canon := by
  simp only [canon, List.map_map, Function.comp_def, low48_low48]

theorem reads_shortId (id : UInt64) : Reads Decoder.shortId (Encode.shortId id) (low48 id) := by
  have hbytes : Encode.shortId id = Bytes.ofNatLE 6 (id.toNat % Bytes.bound 6) := by
    rw [Encode.shortId, ← Bytes.toNatLE_ofNatLE, ← Bytes.length_ofNatLE 6 id.toNat]
    exact (Bytes.ofNatLE_toNatLE _).symm
  rw [low48_eq, hbytes]
  exact .ret (reads_natLE (Nat.mod_lt _ (by decide)))

theorem yields_shortId : Yields Decoder.shortId fun id => low48 id = id := by
  refine .bind (Decoder.yields_natLE 6) fun value hvalue => yields_pure ?_
  have hlt : value < UInt64.size := Nat.lt_trans hvalue (by decide)
  rw [low48_eq, UInt64.toNat_ofNat_of_lt' hlt, Nat.mod_eq_of_lt hvalue]

/-- The number of short ids is not limited. -/
theorem reads_of_lt {c : CompactBlock} (hids : c.shortIds.length < UInt64.size)
    (hprefilled : AllFit PrefilledTransaction.Fits c.prefilled) :
    Reads Codec.decode (Codec.encode c) c.canon := by
  refine .of_eq (.bind c.header.reads <| .bind (reads_uint64 c.nonce) <|
    .bind (reads_counted hids fun id _ => reads_shortId id) <|
    .ret (reads_list_same hprefilled fun _ => PrefilledTransaction.reads)) ?_
  simp only [Codec.encode, List.append_assoc]

theorem reads {c : CompactBlock} (h : c.Fits) : Reads Codec.decode (Codec.encode c) c.canon :=
  reads_of_lt (Nat.lt_of_le_of_lt h.shortIds maxLength.toNat_lt) h.prefilled

theorem yields : Yields (Codec.decode : Decoder CompactBlock) fun c => c.canon = c :=
  .seq fun header => .seq fun nonce => .bind (.counted yields_shortId) fun shortIds hids =>
    .seq fun prefilled => yields_pure (by
      rw [canon, List.map_congr_left hids, List.map_id'])

theorem fits_of_length (c : CompactBlock) (h : (Codec.encode c).length ≤ maxLength.toNat) :
    c.Fits := by
  have hlen : (Codec.encode c).length = (Codec.encode c.header).length + 8 +
      (Encode.list Encode.shortId c.shortIds).length +
      (Encode.list Codec.encode c.prefilled).length := by
    simp only [Codec.encode, List.length_append, Encode.length_uint64]
  have hle : c.shortIds.length ≤ (Encode.list Encode.shortId c.shortIds).length :=
    Encode.length_le_list (fun id => by simp [Encode.shortId]) c.shortIds
  exact ⟨by omega, .of_length PrefilledTransaction.encode_pos PrefilledTransaction.fits_of_length
    (by omega)⟩

end CompactBlock

namespace BlockTransactionsRequest

def Fits (r : BlockTransactionsRequest) : Prop :=
  r.indexes.length ≤ maxLength.toNat

/-- The number of indexes is not limited. -/
theorem reads_of_lt {r : BlockTransactionsRequest} (h : r.indexes.length < UInt64.size) :
    Reads Codec.decode (Codec.encode r) r := by
  have hindexes : Reads (Decoder.counted CompactSize.decode)
      (Encode.list CompactSize.encode r.indexes) (r.indexes.map id) :=
    reads_counted h fun n _ => reads_compactSize n
  rw [List.map_id] at hindexes
  exact .bind r.blockHash.reads <| .ret hindexes

theorem reads {r : BlockTransactionsRequest} (h : r.Fits) : Reads Codec.decode (Codec.encode r) r :=
  reads_of_lt (Nat.lt_of_le_of_lt h maxLength.toNat_lt)

theorem fits_of_length (r : BlockTransactionsRequest)
    (h : (Codec.encode r).length ≤ maxLength.toNat) : r.Fits := by
  have hlen : (Codec.encode r).length = (Codec.encode r.blockHash).length +
      (Encode.list CompactSize.encode r.indexes).length := List.length_append
  have hle : r.indexes.length ≤ (Encode.list CompactSize.encode r.indexes).length :=
    Encode.length_le_list CompactSize.encode_pos r.indexes
  unfold Fits
  omega

end BlockTransactionsRequest

namespace BlockTransactions

def Fits (b : BlockTransactions) : Prop :=
  AllFit Transaction.Fits b.transactions

theorem reads {b : BlockTransactions} (h : b.Fits) : Reads Codec.decode (Codec.encode b) b :=
  .bind b.blockHash.reads <| .ret (reads_list_same h fun _ => Transaction.reads)

theorem fits_of_length (b : BlockTransactions) (h : (Codec.encode b).length ≤ maxLength.toNat) :
    b.Fits := by
  have hlen : (Codec.encode b).length = (Codec.encode b.blockHash).length +
      (Encode.list Codec.encode b.transactions).length := List.length_append
  exact AllFit.of_length Transaction.encode_pos Transaction.fits_of_length (by omega)

end BlockTransactions

/-! ### Filtered blocks -/

namespace MerkleBlock

structure Fits (m : MerkleBlock) : Prop where
  hashes : m.hashes.length ≤ maxLength.toNat
  flags : m.flags.length ≤ maxLength.toNat

theorem reads {m : MerkleBlock} (h : m.Fits) : Reads Codec.decode (Codec.encode m) m := by
  refine .of_eq (.bind m.header.reads <| .bind (reads_uint32 m.totalTransactions) <|
    .bind (Hash256.reads_list h.hashes) <| .ret (reads_byteString h.flags)) ?_
  simp only [Codec.encode, List.append_assoc]

theorem fits_of_length (m : MerkleBlock) (h : (Codec.encode m).length ≤ maxLength.toNat) :
    m.Fits := by
  have hlen : (Codec.encode m).length = (Codec.encode m.header).length + 4 +
      (Encode.list Codec.encode m.hashes).length + (Encode.byteString m.flags).length := by
    simp only [Codec.encode, List.length_append, Encode.length_uint32]
  have hhashes := Hash256.length_le_list m.hashes
  have hflags := Encode.length_le_byteString m.flags
  exact ⟨by omega, by omega⟩

end MerkleBlock

/-! ### Inventories -/

namespace InvType

/-- A number that has a name is the kind of that name. -/
def canon : InvType → InvType
  | other value => ofInt32 value
  | kind => kind

theorem ofInt32_toInt32 (t : InvType) : ofInt32 t.toInt32 = t.canon := by
  cases t <;> rfl

theorem canon_ofInt32 (value : Int32) : (ofInt32 value).canon = ofInt32 value := by
  unfold ofInt32
  split_ifs <;> simp_all [canon, ofInt32]

end InvType

namespace Inventory

def canon (i : Inventory) : Inventory :=
  { i with invType := i.invType.canon }

theorem canon_canon (i : Inventory) : i.canon.canon = i.canon := by
  simp only [canon, ← InvType.ofInt32_toInt32 i.invType, InvType.canon_ofInt32]

theorem reads (i : Inventory) : Reads Codec.decode (Codec.encode i) i.canon := by
  rw [canon, ← InvType.ofInt32_toInt32]
  exact .bind (reads_int32 i.invType.toInt32) <| .ret i.hash.reads

theorem yields : Yields (Codec.decode : Decoder Inventory) fun i => i.canon = i :=
  .seq fun value => .seq fun hash => yields_pure (by rw [canon, InvType.canon_ofInt32])

@[simp] theorem length_encode (i : Inventory) : (Codec.encode i).length = size := by
  simp [Codec.encode, size]

theorem length_encode_list (entries : List Inventory) :
    (Codec.encode entries).length =
      (CompactSize.encode (UInt64.ofNat entries.length)).length + entries.length * size := by
  show (Encode.list Codec.encode entries).length = _
  simp [Encode.list, List.length_flatMap]

/-- Fewer entries take no more bytes. -/
theorem length_encode_list_le {first second : List Inventory} (h : first.length ≤ second.length)
    (hsecond : second.length < UInt64.size) :
    (Codec.encode first).length ≤ (Codec.encode second).length := by
  have hsize : (UInt64.ofNat first.length).toNat ≤ (UInt64.ofNat second.length).toNat := by
    rw [UInt64.toNat_ofNat_of_lt' hsecond, UInt64.toNat_ofNat_of_lt' (by omega)]
    exact h
  have hcount := CompactSize.length_encode_le hsize
  have hentries := Nat.mul_le_mul_right size h
  rw [length_encode_list, length_encode_list]
  omega

end Inventory

end BitcoinPeer
