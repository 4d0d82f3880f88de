import BitcoinPeer.Message.Callback
import BitcoinPeer.Message.Catalog
import BitcoinPeer.Proofs.Codec.Streaming

/-!
# What is on the wire, read as it arrives

Everything that peers send can be read from what has arrived so far. The exception is the version
message, whose last fields are optional, so that its bytes are complete at several places
(`VersionMessage.not_streams`). `WireType` names the other types, lists of them included, and
`WireType.decode_incremental` says what all of their decoders have in common.
-/

namespace BitcoinPeer

open Decoder (Streams streams_pure streams_uint8 streams_uint16BE streams_uint32 streams_int32
  streams_uint64 streams_int64 streams_natLE streams_octets streams_compactSize streams_byteString
  streams_text streams_varints)

/-! ### Transactions and blocks -/

theorem Hash256.streams : Streams (Codec.decode : Decoder Hash256) :=
  (streams_octets 32).ret

theorem OutPoint.streams : Streams (Codec.decode : Decoder OutPoint) :=
  Hash256.streams.bind fun _ => streams_uint32.ret

theorem TxIn.streams : Streams (Codec.decode : Decoder TxIn) :=
  OutPoint.streams.bind fun _ => streams_byteString.bind fun _ => streams_uint32.ret

theorem TxOut.streams : Streams (Codec.decode : Decoder TxOut) :=
  streams_int64.bind fun _ => streams_byteString.ret

theorem Transaction.streams : Streams (Codec.decode : Decoder Transaction) :=
  streams_int32.bind fun _ => TxIn.streams.list.bind fun _ => TxOut.streams.list.bind fun _ =>
    streams_uint32.ret

theorem BlockHeader.streams : Streams (Codec.decode : Decoder BlockHeader) :=
  streams_int32.bind fun _ => Hash256.streams.bind fun _ => Hash256.streams.bind fun _ =>
    streams_uint32.bind fun _ => streams_uint32.bind fun _ => streams_uint32.ret

theorem Block.streams : Streams (Codec.decode : Decoder Block) :=
  BlockHeader.streams.bind fun _ => Transaction.streams.list.ret

theorem BlockLocator.streams : Streams (Codec.decode : Decoder BlockLocator) :=
  streams_int32.bind fun _ => Hash256.streams.list.ret

theorem MerkleBlock.streams : Streams (Codec.decode : Decoder MerkleBlock) :=
  BlockHeader.streams.bind fun _ => streams_uint32.bind fun _ => Hash256.streams.list.bind fun _ =>
    streams_byteString.ret

theorem PrefilledTransaction.streams : Streams (Codec.decode : Decoder PrefilledTransaction) :=
  streams_compactSize.bind fun _ => Transaction.streams.ret

theorem CompactBlock.streams : Streams (Codec.decode : Decoder CompactBlock) :=
  BlockHeader.streams.bind fun _ => streams_uint64.bind fun _ =>
    (streams_natLE 6).ret.counted.bind fun _ => PrefilledTransaction.streams.list.ret

theorem BlockTransactionsRequest.streams :
    Streams (Codec.decode : Decoder BlockTransactionsRequest) :=
  Hash256.streams.bind fun _ => streams_compactSize.counted.ret

theorem BlockTransactions.streams : Streams (Codec.decode : Decoder BlockTransactions) :=
  Hash256.streams.bind fun _ => Transaction.streams.list.ret

theorem Inventory.streams : Streams (Codec.decode : Decoder Inventory) :=
  streams_int32.bind fun _ => Hash256.streams.ret

/-! ### Addresses -/

theorem IpAddress.streams : Streams (Codec.decode : Decoder IpAddress) :=
  (streams_octets 16).ret

theorem Services.streams : Streams (Codec.decode : Decoder Services) :=
  streams_uint64.ret

theorem PeerAddress.streams : Streams (Codec.decode : Decoder PeerAddress) :=
  Services.streams.bind fun _ => IpAddress.streams.bind fun _ => streams_uint16BE.ret

theorem SeenAddress.streams : Streams (Codec.decode : Decoder SeenAddress) :=
  streams_uint32.bind fun _ => PeerAddress.streams.ret

/-! ### Other payloads -/

theorem VarBytes.streams : Streams (Codec.decode : Decoder VarBytes) :=
  streams_byteString.ret

/-- The policies are read only if there is more than one field. -/
theorem Protoconf.streams : Streams (Codec.decode : Decoder Protoconf) :=
  streams_compactSize.bind fun _ => streams_uint32.bind fun _ =>
    .ite streams_byteString.ret (streams_pure _).ret

theorem Alert.streams : Streams (Codec.decode : Decoder Alert) :=
  streams_byteString.bind fun _ => streams_byteString.ret

theorem UnsignedAlert.streams : Streams (Codec.decode : Decoder UnsignedAlert) :=
  streams_int32.bind fun _ => streams_int64.bind fun _ => streams_int64.bind fun _ =>
    streams_int32.bind fun _ => streams_int32.bind fun _ => streams_int32.list.bind fun _ =>
    streams_int32.bind fun _ => streams_int32.bind fun _ => VarBytes.streams.list.bind fun _ =>
    streams_int32.bind fun _ => streams_byteString.bind fun _ => streams_byteString.bind fun _ =>
    streams_byteString.ret

theorem AssociationId.streams_decodeBlob : AssociationId.decodeBlob.Streams :=
  streams_byteString.ret

theorem CreateStream.streams : Streams (Codec.decode : Decoder CreateStream) :=
  AssociationId.streams_decodeBlob.bind fun _ => streams_uint8.bind fun _ => streams_byteString.ret

theorem StreamAck.streams : Streams (Codec.decode : Decoder StreamAck) :=
  AssociationId.streams_decodeBlob.bind fun _ => streams_uint8.ret

theorem LocatorRequest.streams : Streams (Codec.decode : Decoder LocatorRequest) :=
  BlockLocator.streams.bind fun _ => Hash256.streams.ret

/-- The hash is read only where one is carried, which the fields before it decide. -/
theorem Reject.streams : Streams (Codec.decode : Decoder Reject) :=
  streams_text.bind fun _ => streams_uint8.bind fun _ => streams_text.bind fun _ =>
    .ite Hash256.streams.ret (streams_pure _).ret

/-- The version decides how wide the addresses are. -/
theorem CallbackDescriptor.streams : Streams (Codec.decode : Decoder CallbackDescriptor) :=
  streams_uint8.bind fun _ =>
    ((streams_octets 16).ret.ite (streams_octets 4).ret).counted.bind fun _ => streams_varints.ret

/-- A version message is complete without its last fields, and is read on when they follow. -/
theorem VersionMessage.not_streams : ¬ Streams (Codec.decode : Decoder VersionMessage) := by
  intro h
  have hshort : ((Codec.decode : Decoder VersionMessage).run
      (Encode.int32 70015 ++ Bytes.zeros 81)).map Prod.snd = .ok [] := by
    decide +kernel
  have hlong : ((Codec.decode : Decoder VersionMessage).run
      (Encode.int32 70015 ++ Bytes.zeros 81 ++ [1])).map Prod.snd = .ok [] := by
    decide +kernel
  cases hrun : (Codec.decode : Decoder VersionMessage).run
      (Encode.int32 70015 ++ Bytes.zeros 81) with
  | error e =>
    rw [hrun] at hshort
    cases hshort
  | ok p =>
    -- the flag that follows would have to be left unread
    rw [h.run_append hrun [1]] at hlong
    have hrest : p.2 ++ [1] = [] := Except.ok.inj hlong
    simp at hrest

/-! ### All of them -/

/-- The types of what is sent, but for the version message. -/
inductive WireType where
  | int32
  | varBytes
  | hash
  | outPoint
  | txIn
  | txOut
  | transaction
  | header
  | block
  | locator
  | merkleBlock
  | prefilled
  | compactBlock
  | blockTransactionsRequest
  | blockTransactions
  | inventory
  | peerAddress
  | seenAddress
  | protoconf
  | alert
  | unsignedAlert
  | createStream
  | streamAck
  | locatorRequest
  | reject
  | callback
  | list (element : WireType)

namespace WireType

def Value : WireType → Type
  | int32 => Int32
  | varBytes => VarBytes
  | hash => Hash256
  | outPoint => OutPoint
  | txIn => TxIn
  | txOut => TxOut
  | transaction => Transaction
  | header => BlockHeader
  | block => Block
  | locator => BlockLocator
  | merkleBlock => MerkleBlock
  | prefilled => PrefilledTransaction
  | compactBlock => CompactBlock
  | blockTransactionsRequest => BlockTransactionsRequest
  | blockTransactions => BlockTransactions
  | inventory => Inventory
  | peerAddress => PeerAddress
  | seenAddress => SeenAddress
  | protoconf => Protoconf
  | alert => Alert
  | unsignedAlert => UnsignedAlert
  | createStream => CreateStream
  | streamAck => StreamAck
  | locatorRequest => LocatorRequest
  | reject => Reject
  | callback => CallbackDescriptor
  | list element => List element.Value

instance codec : (t : WireType) → Codec t.Value
  | int32 => inferInstanceAs (Codec Int32)
  | varBytes => inferInstanceAs (Codec VarBytes)
  | hash => inferInstanceAs (Codec Hash256)
  | outPoint => inferInstanceAs (Codec OutPoint)
  | txIn => inferInstanceAs (Codec TxIn)
  | txOut => inferInstanceAs (Codec TxOut)
  | transaction => inferInstanceAs (Codec Transaction)
  | header => inferInstanceAs (Codec BlockHeader)
  | block => inferInstanceAs (Codec Block)
  | locator => inferInstanceAs (Codec BlockLocator)
  | merkleBlock => inferInstanceAs (Codec MerkleBlock)
  | prefilled => inferInstanceAs (Codec PrefilledTransaction)
  | compactBlock => inferInstanceAs (Codec CompactBlock)
  | blockTransactionsRequest => inferInstanceAs (Codec BlockTransactionsRequest)
  | blockTransactions => inferInstanceAs (Codec BlockTransactions)
  | inventory => inferInstanceAs (Codec Inventory)
  | peerAddress => inferInstanceAs (Codec PeerAddress)
  | seenAddress => inferInstanceAs (Codec SeenAddress)
  | protoconf => inferInstanceAs (Codec Protoconf)
  | alert => inferInstanceAs (Codec Alert)
  | unsignedAlert => inferInstanceAs (Codec UnsignedAlert)
  | createStream => inferInstanceAs (Codec CreateStream)
  | streamAck => inferInstanceAs (Codec StreamAck)
  | locatorRequest => inferInstanceAs (Codec LocatorRequest)
  | reject => inferInstanceAs (Codec Reject)
  | callback => inferInstanceAs (Codec CallbackDescriptor)
  | list element =>
    have := codec element
    inferInstanceAs (Codec (List element.Value))

theorem streams (t : WireType) : Streams (Codec.decode : Decoder t.Value) := by
  induction t with
  | int32 => exact streams_int32
  | varBytes => exact VarBytes.streams
  | hash => exact Hash256.streams
  | outPoint => exact OutPoint.streams
  | txIn => exact TxIn.streams
  | txOut => exact TxOut.streams
  | transaction => exact Transaction.streams
  | header => exact BlockHeader.streams
  | block => exact Block.streams
  | locator => exact BlockLocator.streams
  | merkleBlock => exact MerkleBlock.streams
  | prefilled => exact PrefilledTransaction.streams
  | compactBlock => exact CompactBlock.streams
  | blockTransactionsRequest => exact BlockTransactionsRequest.streams
  | blockTransactions => exact BlockTransactions.streams
  | inventory => exact Inventory.streams
  | peerAddress => exact PeerAddress.streams
  | seenAddress => exact SeenAddress.streams
  | protoconf => exact Protoconf.streams
  | alert => exact Alert.streams
  | unsignedAlert => exact UnsignedAlert.streams
  | createStream => exact CreateStream.streams
  | streamAck => exact StreamAck.streams
  | locatorRequest => exact LocatorRequest.streams
  | reject => exact Reject.streams
  | callback => exact CallbackDescriptor.streams
  | list element ih => exact ih.list

/-- **Reading as it arrives**: what is read stays as it is when more bytes follow, which are left unread;
a failure stays unless the input ended too early; and of an encoding that is read back, every strict
prefix ends too early. -/
theorem decode_incremental (t : WireType) (bs more : Bytes) :
    (∀ (a : t.Value) (rest : Bytes), Codec.decode.run bs = .ok (a, rest) →
      rest <:+ bs ∧ Codec.decode.run (bs ++ more) = .ok (a, rest ++ more)) ∧
    (∀ e, (Codec.decode : Decoder t.Value).run bs = .error e → e.isTruncated = false →
      (Codec.decode : Decoder t.Value).run (bs ++ more) = .error e) ∧
    ∀ a : t.Value, Codec.decode.run (Codec.encode a) = .ok (a, []) →
      ∀ part, part <+: Codec.encode a → part ≠ Codec.encode a →
        ∃ n, (Codec.decode : Decoder t.Value).run part = .error (.truncated n) := by
  refine ⟨?_, ?_, ?_⟩
  · intro a rest hrun
    exact ⟨t.streams.suffix hrun, t.streams.run_append hrun more⟩
  · intro e hrun htruncated
    exact t.streams.error_append hrun htruncated more
  · intro a hrun part hpart hne
    exact t.streams.truncated hrun hpart hne

/-- Two numbers, of which the second one is cut short. -/
theorem decode_incremental_list :
    (Codec.decode : Decoder (List Int32)).run [2, 1, 0, 0, 0, 2, 0, 0, 0] = .ok ([1, 2], []) ∧
      ∃ n, (Codec.decode : Decoder (List Int32)).run [2, 1, 0, 0, 0, 2] = .error (.truncated n) := by
  obtain ⟨-, -, htruncated⟩ := decode_incremental (.list .int32) [] []
  have hrun : (Codec.decode : Decoder (List Int32)).run [2, 1, 0, 0, 0, 2, 0, 0, 0] =
      .ok ([1, 2], []) := by decide
  have hcut : [2, 1, 0, 0, 0, 2] <+: Codec.encode (show List Int32 from [1, 2]) := by decide
  exact ⟨hrun, htruncated (show List Int32 from [1, 2]) hrun _ hcut (by decide)⟩

end WireType

end BitcoinPeer
