import BitcoinPeer.Proofs.Codec.Tally
import BitcoinPeer.Proofs.Message.Streaming
import BitcoinPeer.Proofs.Peer.Association

/-!
# How many elements a payload has

Numbers of elements are believed until the input ends. No element of any list is empty (`WireType.least`
and `WireList.least` say how many bytes each takes at least), so a number that claims more than there is
fails before long, and no payload has more elements than bytes, those of inner lists included
(`decode_elements_le`). The tallies of this module read the same fields as the decoders of the types.
-/

namespace BitcoinPeer

open Decoder (least_pure least_octets least_natLE least_uint8 least_uint16BE least_uint32 least_int32
  least_uint64 least_int64 least_compactSize least_varint least_byteString least_text)

open Tally (counts_plain)

/-! ### Types without lists -/

theorem Hash256.least : (Codec.decode : Decoder Hash256).Least 32 :=
  (least_octets 32).ret

theorem OutPoint.least : (Codec.decode : Decoder OutPoint).Least 36 :=
  Hash256.least.bind fun _ => least_uint32.ret

theorem TxIn.least : (Codec.decode : Decoder TxIn).Least 41 :=
  OutPoint.least.bind fun _ => least_byteString.bind fun _ => least_uint32.ret

theorem TxOut.least : (Codec.decode : Decoder TxOut).Least 9 :=
  least_int64.bind fun _ => least_byteString.ret

theorem BlockHeader.least : (Codec.decode : Decoder BlockHeader).Least 80 :=
  least_int32.bind fun _ => Hash256.least.bind fun _ => Hash256.least.bind fun _ =>
    least_uint32.bind fun _ => least_uint32.bind fun _ => least_uint32.ret

theorem Inventory.least : (Codec.decode : Decoder Inventory).Least 36 :=
  least_int32.bind fun _ => Hash256.least.ret

theorem PeerAddress.least : (Codec.decode : Decoder PeerAddress).Least 26 :=
  least_uint64.ret.bind fun _ => (least_octets 16).ret.bind fun _ => least_uint16BE.ret

theorem SeenAddress.least : (Codec.decode : Decoder SeenAddress).Least 30 :=
  least_uint32.bind fun _ => PeerAddress.least.ret

theorem VarBytes.least : (Codec.decode : Decoder VarBytes).Least 1 :=
  least_byteString.ret

theorem Protoconf.least : (Codec.decode : Decoder Protoconf).Least 5 :=
  least_compactSize.bind fun _ => least_uint32.bind (l := 0) fun _ =>
    .ite (least_byteString.ret.mono (Nat.zero_le 1)) (least_pure _).ret

theorem Alert.least : (Codec.decode : Decoder Alert).Least 2 :=
  least_byteString.bind fun _ => least_byteString.ret

theorem CreateStream.least : (Codec.decode : Decoder CreateStream).Least 3 :=
  AssociationId.takes_decodeBlob.bind fun _ => least_uint8.bind fun _ => least_byteString.ret

theorem StreamAck.least : (Codec.decode : Decoder StreamAck).Least 2 :=
  AssociationId.takes_decodeBlob.bind fun _ => least_uint8.ret

theorem Reject.least : (Codec.decode : Decoder Reject).Least 3 :=
  least_text.bind fun _ => least_uint8.bind fun _ => least_text.bind (l := 0) fun _ =>
    .ite (Hash256.least.ret.mono (Nat.zero_le 32)) (least_pure _).ret

/-! ### Types with lists -/

namespace Transaction

def tally : Tally Transaction := do
  let version ← .plain Decoder.int32
  let inputs ← .list (.plain Codec.decode)
  let outputs ← .list (.plain Codec.decode)
  let lockTime ← .plain Decoder.uint32
  return { version, inputs, outputs, lockTime }

theorem counts : tally.Counts Codec.decode 10 :=
  (counts_plain least_int32).bind fun _ =>
    ((counts_plain TxIn.least).list (by decide)).bind fun _ =>
    ((counts_plain TxOut.least).list (by decide)).bind fun _ =>
    (counts_plain least_uint32).ret

end Transaction

namespace Block

def tally : Tally Block := do
  let header ← .plain Codec.decode
  let txs ← .list Transaction.tally
  return { header, txs }

theorem counts : tally.Counts Codec.decode 81 :=
  (counts_plain BlockHeader.least).bind fun _ => (Transaction.counts.list (by decide)).ret

end Block

namespace BlockLocator

def tally : Tally BlockLocator := do
  let version ← .plain Decoder.int32
  let known ← .list (.plain Codec.decode)
  return { version, known }

theorem counts : tally.Counts Codec.decode 5 :=
  (counts_plain least_int32).bind fun _ => ((counts_plain Hash256.least).list (by decide)).ret

end BlockLocator

namespace LocatorRequest

def tally : Tally LocatorRequest := do
  let locator ← BlockLocator.tally
  let hashStop ← .plain Codec.decode
  return { locator, hashStop }

theorem counts : tally.Counts Codec.decode 37 :=
  BlockLocator.counts.bind fun _ => (counts_plain Hash256.least).ret

end LocatorRequest

namespace MerkleBlock

def tally : Tally MerkleBlock := do
  let header ← .plain Codec.decode
  let totalTransactions ← .plain Decoder.uint32
  let hashes ← .list (.plain Codec.decode)
  let flags ← .plain Decoder.byteString
  return { header, totalTransactions, hashes, flags }

theorem counts : tally.Counts Codec.decode 86 :=
  (counts_plain BlockHeader.least).bind fun _ => (counts_plain least_uint32).bind fun _ =>
    ((counts_plain Hash256.least).list (by decide)).bind fun _ =>
    (counts_plain least_byteString).ret

end MerkleBlock

namespace PrefilledTransaction

def tally : Tally PrefilledTransaction := do
  let index ← .plain CompactSize.decode
  let tx ← Transaction.tally
  return { index, tx }

theorem counts : tally.Counts Codec.decode 11 :=
  (counts_plain least_compactSize).bind fun _ => Transaction.counts.ret

end PrefilledTransaction

namespace CompactBlock

def tally : Tally CompactBlock := do
  let header ← .plain Codec.decode
  let nonce ← .plain Decoder.uint64
  let shortIds ← .counted (.plain Decoder.shortId)
  let prefilled ← .list PrefilledTransaction.tally
  return { header, nonce, shortIds, prefilled }

theorem least_shortId : Decoder.shortId.Least 6 :=
  (least_natLE 6).ret

theorem counts : tally.Counts Codec.decode 90 :=
  (counts_plain BlockHeader.least).bind fun _ => (counts_plain least_uint64).bind fun _ =>
    ((counts_plain least_shortId).counted (by decide)).bind fun _ =>
    (PrefilledTransaction.counts.list (by decide)).ret

end CompactBlock

namespace BlockTransactionsRequest

def tally : Tally BlockTransactionsRequest := do
  let blockHash ← .plain Codec.decode
  let indexes ← .counted (.plain CompactSize.decode)
  return { blockHash, indexes }

theorem counts : tally.Counts Codec.decode 33 :=
  (counts_plain Hash256.least).bind fun _ =>
    ((counts_plain least_compactSize).counted Nat.one_pos).ret

end BlockTransactionsRequest

namespace BlockTransactions

def tally : Tally BlockTransactions := do
  let blockHash ← .plain Codec.decode
  let transactions ← .list Transaction.tally
  return { blockHash, transactions }

theorem counts : tally.Counts Codec.decode 33 :=
  (counts_plain Hash256.least).bind fun _ => (Transaction.counts.list (by decide)).ret

end BlockTransactions

namespace UnsignedAlert

def tally : Tally UnsignedAlert := do
  let version ← .plain Decoder.int32
  let relayUntil ← .plain Decoder.int64
  let expiration ← .plain Decoder.int64
  let id ← .plain Decoder.int32
  let cancel ← .plain Decoder.int32
  let setCancel ← .list (.plain Codec.decode)
  let minVersion ← .plain Decoder.int32
  let maxVersion ← .plain Decoder.int32
  let setSubVersion ← .list (.plain Codec.decode)
  let priority ← .plain Decoder.int32
  let comment ← .plain Decoder.byteString
  let statusBar ← .plain Decoder.byteString
  let reserved ← .plain Decoder.byteString
  return {
    version, relayUntil, expiration, id, cancel, setCancel, minVersion, maxVersion,
    setSubVersion, priority, comment, statusBar, reserved }

theorem counts : tally.Counts Codec.decode 45 :=
  have hint32 := counts_plain least_int32
  have hint64 := counts_plain least_int64
  have hbytes := counts_plain least_byteString
  hint32.bind fun _ => hint64.bind fun _ => hint64.bind fun _ => hint32.bind fun _ =>
    hint32.bind fun _ => (hint32.list (by decide)).bind fun _ => hint32.bind fun _ =>
    hint32.bind fun _ => ((counts_plain VarBytes.least).list Nat.one_pos).bind fun _ =>
    hint32.bind fun _ => hbytes.bind fun _ => hbytes.bind fun _ => hbytes.ret

end UnsignedAlert

namespace CallbackDescriptor

def tally : Tally CallbackDescriptor := do
  let version ← .plain Decoder.uint8
  let addresses ← .counted (.plain (decodeAddress version))
  let inputs ← .varints
  return { version, addresses, inputs }

/-- How many bytes all addresses take. -/
def addressWidth (version : UInt8) : Nat :=
  if version = wideVersion then 16 else 4

theorem addressWidth_pos (version : UInt8) : 0 < addressWidth version := by
  unfold addressWidth
  split <;> decide

theorem least_decodeAddress (version : UInt8) :
    (decodeAddress version).Least (addressWidth version) := by
  unfold decodeAddress addressWidth
  split
  · exact (least_octets 16).ret
  · exact (least_octets 4).ret

theorem counts : tally.Counts Codec.decode 3 :=
  (counts_plain least_uint8).bind fun version =>
    ((counts_plain (least_decodeAddress version)).counted (addressWidth_pos version)).bind fun _ =>
    Tally.counts_varints.ret

end CallbackDescriptor

/-! ### All types -/

namespace WireType

/-- The bytes that a value takes at the least. -/
def least : WireType → Nat
  | int32 => 4
  | varBytes => 1
  | hash => 32
  | outPoint => 36
  | txIn => 41
  | txOut => 9
  | transaction => 10
  | header => 80
  | block => 81
  | locator => 5
  | merkleBlock => 86
  | prefilled => 11
  | compactBlock => 90
  | blockTransactionsRequest => 33
  | blockTransactions => 33
  | inventory => 36
  | peerAddress => 26
  | seenAddress => 30
  | protoconf => 5
  | alert => 2
  | unsignedAlert => 45
  | createStream => 3
  | streamAck => 2
  | locatorRequest => 37
  | reject => 3
  | callback => 3
  | list _ => 1

theorem least_pos (t : WireType) : 0 < t.least := by
  cases t <;> exact Nat.succ_pos _

def tally : (t : WireType) → Tally t.Value
  | transaction => Transaction.tally
  | block => Block.tally
  | locator => BlockLocator.tally
  | merkleBlock => MerkleBlock.tally
  | prefilled => PrefilledTransaction.tally
  | compactBlock => CompactBlock.tally
  | blockTransactionsRequest => BlockTransactionsRequest.tally
  | blockTransactions => BlockTransactions.tally
  | unsignedAlert => UnsignedAlert.tally
  | locatorRequest => LocatorRequest.tally
  | callback => CallbackDescriptor.tally
  | list element => .list element.tally
  | t => .plain t.codec.decode

theorem counts (t : WireType) : t.tally.Counts Codec.decode t.least := by
  induction t with
  | int32 => exact counts_plain least_int32
  | varBytes => exact counts_plain VarBytes.least
  | hash => exact counts_plain Hash256.least
  | outPoint => exact counts_plain OutPoint.least
  | txIn => exact counts_plain TxIn.least
  | txOut => exact counts_plain TxOut.least
  | transaction => exact Transaction.counts
  | header => exact counts_plain BlockHeader.least
  | block => exact Block.counts
  | locator => exact BlockLocator.counts
  | merkleBlock => exact MerkleBlock.counts
  | prefilled => exact PrefilledTransaction.counts
  | compactBlock => exact CompactBlock.counts
  | blockTransactionsRequest => exact BlockTransactionsRequest.counts
  | blockTransactions => exact BlockTransactions.counts
  | inventory => exact counts_plain Inventory.least
  | peerAddress => exact counts_plain PeerAddress.least
  | seenAddress => exact counts_plain SeenAddress.least
  | protoconf => exact counts_plain Protoconf.least
  | alert => exact counts_plain Alert.least
  | unsignedAlert => exact UnsignedAlert.counts
  | createStream => exact counts_plain CreateStream.least
  | streamAck => exact counts_plain StreamAck.least
  | locatorRequest => exact LocatorRequest.counts
  | reject => exact counts_plain Reject.least
  | callback => exact CallbackDescriptor.counts
  | list element ih => exact ih.list element.least_pos

end WireType

/-! ### All lists -/

/-- The lists in what is sent: those of the types, and those with a reader of their own. -/
inductive WireList where
  | list (element : WireType)
  /-- The short ids of a compact block. -/
  | shortIds
  /-- The gaps in a request for transactions. -/
  | indexes
  /-- The addresses of a callback descriptor of this version. -/
  | addresses (version : UInt8)
  /-- The inputs of a callback descriptor. -/
  | inputs

namespace WireList

def Element : WireList → Type
  | list element => element.Value
  | shortIds | indexes | inputs => UInt64
  | addresses _ => IpAddress

/-- Reads the number of elements. -/
def number : WireList → Decoder UInt64
  | inputs => Varint.decode
  | list _ | shortIds | indexes | addresses _ => CompactSize.decode

/-- What the number may not exceed, if anything. -/
def limit : WireList → Option UInt64
  | list _ => some maxLength
  | shortIds | indexes | addresses _ | inputs => none

def element : (s : WireList) → Decoder s.Element
  | list element => element.codec.decode
  | shortIds => Decoder.shortId
  | indexes => CompactSize.decode
  | addresses version => CallbackDescriptor.decodeAddress version
  | inputs => Varint.decode

/-- Reads the list. -/
def decode : (s : WireList) → Decoder (List s.Element)
  | list element => (WireType.list element).codec.decode
  | shortIds => Decoder.counted Decoder.shortId
  | indexes => Decoder.counted CompactSize.decode
  | addresses version => Decoder.counted (CallbackDescriptor.decodeAddress version)
  | inputs => Decoder.varints

/-- The bytes that an element takes at the least. -/
def least : WireList → Nat
  | list element => element.least
  | shortIds => 6
  | indexes => 1
  | addresses version => CallbackDescriptor.addressWidth version
  | inputs => 1

def elementTally : (s : WireList) → Tally s.Element
  | list element => element.tally
  | s => .plain s.element

def tally (s : WireList) : Tally (List s.Element) :=
  .sequence s.number s.limit s.elementTally

theorem least_pos (s : WireList) : 0 < s.least := by
  cases s with
  | list element => exact element.least_pos
  | shortIds => exact Nat.succ_pos 5
  | indexes => exact Nat.one_pos
  | addresses version => exact CallbackDescriptor.addressWidth_pos version
  | inputs => exact Nat.one_pos

theorem number_least (s : WireList) : s.number.Least 1 := by
  cases s with
  | inputs => exact least_varint
  | list | shortIds | indexes | addresses => exact least_compactSize

theorem elementCounts (s : WireList) : s.elementTally.Counts s.element s.least := by
  cases s with
  | list element => exact element.counts
  | shortIds => exact counts_plain CompactBlock.least_shortId
  | indexes => exact counts_plain least_compactSize
  | addresses version => exact counts_plain (CallbackDescriptor.least_decodeAddress version)
  | inputs => exact counts_plain least_varint

theorem decode_eq (s : WireList) : s.decode = .sequence s.number s.limit s.element := by
  cases s with
  | list element => exact Decoder.list_eq_sequence element.codec.decode
  | shortIds | indexes | addresses | inputs => rfl

theorem counts (s : WireList) : s.tally.Counts s.decode 1 := by
  rw [decode_eq]
  exact s.elementCounts.sequence s.number_least s.least_pos

/-- A list that is read has as many elements as claimed, which have all taken their bytes. -/
theorem exists_of_run_decode {s : WireList} {bs rest : Bytes} {as : List s.Element}
    (h : s.decode.run bs = .ok (as, rest)) :
    ∃ count mid, s.number.run bs = .ok (count, mid) ∧ as.length = count.toNat ∧
      count.toNat * s.least + rest.length ≤ mid.length ∧ mid.length < bs.length := by
  rw [decode_eq] at h
  obtain ⟨count, mid, hcount, helements⟩ := Decoder.exists_of_run_bind h
  obtain ⟨hlength, hle⟩ := s.elementCounts.least.of_run_elements helements
  have hnumber : 1 + mid.length ≤ bs.length := s.number_least hcount
  exact ⟨count, mid, hcount, hlength, hle, by omega⟩

end WireList

/-! ### All messages -/

namespace Message

/-- Reads the payload of a command; what has no lists in it is read without a tally. -/
def tally (legacyPing : Bool) (command : String) : Option (Tally Message) :=
  match command with
  | "addr" => some (addr <$> (WireType.list .seenAddress).tally)
  | "inv" => some (inv <$> (WireType.list .inventory).tally)
  | "getdata" => some (getData <$> (WireType.list .inventory).tally)
  | "notfound" => some (notFound <$> (WireType.list .inventory).tally)
  | "getblocks" => some (getBlocks <$> LocatorRequest.tally)
  | "getheaders" => some (getHeaders <$> LocatorRequest.tally)
  | "tx" => some (tx <$> Transaction.tally)
  | "block" => some (block <$> Block.tally)
  | "headers" => some ((fun bs : List Block => headers (bs.map Block.header)) <$>
      (WireType.list .block).tally)
  | "cmpctblock" => some (compactBlock <$> CompactBlock.tally)
  | "getblocktxn" => some (getBlockTxn <$> BlockTransactionsRequest.tally)
  | "blocktxn" => some (blockTxn <$> BlockTransactions.tally)
  | "merkleblock" => some (merkleBlock <$> MerkleBlock.tally)
  | other => (decoder legacyPing other).map .plain

/-- What counts for the decoder of a command is bounded. -/
theorem bounded_of_counts {d : Tally Message} {p : Decoder Message} {k : Nat} (h : d.Counts p k) :
    (some d).map Tally.erase = some p ∧ ∀ d' ∈ some d, ∀ bs, (d'.run bs).2 ≤ bs.length := by
  refine ⟨congrArg some h.erase, fun d' hd' bs => ?_⟩
  obtain rfl := Option.mem_some_iff.mp hd'
  exact h.le bs

theorem tally_bounded (legacyPing : Bool) (command : String) :
    (tally legacyPing command).map Tally.erase = decoder legacyPing command ∧
      ∀ d ∈ tally legacyPing command, ∀ bs, (d.run bs).2 ≤ bs.length := by
  have hinventory := (WireType.list .inventory).counts
  unfold tally
  split
  · exact bounded_of_counts (WireType.list .seenAddress).counts.map
  · exact bounded_of_counts hinventory.map
  · exact bounded_of_counts hinventory.map
  · exact bounded_of_counts hinventory.map
  · exact bounded_of_counts LocatorRequest.counts.map
  · exact bounded_of_counts LocatorRequest.counts.map
  · exact bounded_of_counts Transaction.counts.map
  · exact bounded_of_counts Block.counts.map
  · exact bounded_of_counts (WireType.list .block).counts.map
  · exact bounded_of_counts CompactBlock.counts.map
  · exact bounded_of_counts BlockTransactionsRequest.counts.map
  · exact bounded_of_counts BlockTransactions.counts.map
  · exact bounded_of_counts MerkleBlock.counts.map
  · -- the other payloads, and commands that are not known, have no lists to count
    refine ⟨?_, fun d hd bs => ?_⟩
    · rw [Option.map_map]
      exact Option.map_id'
    · obtain ⟨p, -, rfl⟩ := Option.map_eq_some_iff.mp hd
      exact Nat.zero_le _

end Message

/-- **No more elements than bytes**: whatever a number of elements claims, every element takes bytes;
what is read has as many elements as claimed; a claim that exceeds the bytes behind it fails, after no
more elements than there are bytes; and however it ends, no more elements of any type or message are
read than the input has bytes. -/
theorem decode_elements_le (bs : Bytes) :
    (∀ s : WireList, 0 < s.least ∧ s.element.Least s.least ∧ s.tally.erase = s.decode ∧
      (∀ as rest, s.decode.run bs = .ok (as, rest) →
        ∃ count mid, s.number.run bs = .ok (count, mid) ∧ as.length = count.toNat ∧
          count.toNat * s.least + rest.length ≤ mid.length ∧ mid.length < bs.length) ∧
      (∀ count mid, s.number.run bs = .ok (count, mid) → mid.length < count.toNat →
        ∃ e n, s.tally.run bs = (.error e, n) ∧ n ≤ mid.length) ∧
      (s.tally.run bs).2 ≤ bs.length) ∧
    (∀ t : WireType, t.tally.erase = Codec.decode ∧ (t.tally.run bs).2 ≤ bs.length) ∧
    ∀ legacyPing command,
      (Message.tally legacyPing command).map Tally.erase = Message.decoder legacyPing command ∧
        ∀ d ∈ Message.tally legacyPing command, (d.run bs).2 ≤ bs.length := by
  refine ⟨fun s => ?_, fun t => ⟨t.counts.erase, t.counts.le bs⟩, fun legacyPing command => ?_⟩
  · have helement := s.elementCounts
    refine ⟨s.least_pos, helement.least, s.counts.erase, ?_, ?_, s.counts.le bs⟩
    · intro as rest hrun
      exact WireList.exists_of_run_decode hrun
    · intro count mid hcount hlt
      exact helement.exists_error_of_exceeds s.least_pos hcount hlt
  · obtain ⟨herase, hle⟩ := Message.tally_bounded legacyPing command
    exact ⟨herase, fun d hd => hle d hd bs⟩

/-- Inputs of a callback descriptor: the greatest number, with two inputs behind it, and a true one. -/
theorem decode_elements_le_inputs :
    let claimed : Bytes := [0x80, 0xfe, 0xfe, 0xfe, 0xfe, 0xfe, 0xfe, 0xfe, 0xfe, 0x7f, 5, 6]
    Varint.decode.run claimed = .ok (0xffffffffffffffff, [5, 6]) ∧
      (∃ e n, WireList.inputs.tally.run claimed = (.error e, n) ∧ n ≤ 2) ∧
      Decoder.varints.run [2, 5, 6] = .ok ([5, 6], []) ∧
      ∃ count mid, Varint.decode.run [2, 5, 6] = .ok (count, mid) ∧ 2 = count.toNat ∧
        count.toNat * 1 + 0 ≤ mid.length ∧ mid.length < 3 := by
  intro claimed
  have hcount : Varint.decode.run claimed = .ok (0xffffffffffffffff, [5, 6]) := rfl
  have hread : Decoder.varints.run [2, 5, 6] = .ok ([5, 6], []) := rfl
  obtain ⟨-, -, -, -, herror, -⟩ := (decode_elements_le claimed).1 .inputs
  obtain ⟨-, -, -, hok, -, -⟩ := (decode_elements_le [2, 5, 6]).1 .inputs
  exact ⟨hcount, herror _ _ hcount (by decide), hread, hok _ _ hread⟩

end BitcoinPeer
