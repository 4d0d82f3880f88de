import BitcoinPeer.Message.Catalog
import BitcoinPeer.Text.Inspect

/-!
# Messages as text

The one-line form in which messages are logged. Handshakes, inventories, pings and rejections have
a form of their own; all others show their structure. No message remembers a hash, so the hash of a
transaction or header is always shown as missing.
-/

namespace BitcoinPeer

namespace Inspect

/-- Items in brackets, each in its own form. -/
def listOf {α : Type} (show_ : α → String) (items : List α) : String :=
  list (items.map show_)

def int32 (n : Int32) : String := toString n.toInt

def associationId (id : Option AssociationId) : String :=
  optional AssociationId.inspect id

def seenAddress (a : SeenAddress) : String :=
  record "Address"
    [("time", toString a.time), ("services", a.address.services.inspect),
      ("ip", a.address.ip.toText), ("port", toString a.address.port)]

def outPoint (p : OutPoint) : String :=
  record "OutPoint" [("hash", p.hash.inspect), ("n", toString p.n)]

def txIn (i : TxIn) : String :=
  record "TxIn"
    [("prevout", outPoint i.prevout), ("script_sig", bytes i.scriptSig),
      ("sequence", toString i.sequence)]

def txOut (o : TxOut) : String :=
  record "TxOut"
    [("value", toString o.value.toInt), ("script_pubkey", bytes o.scriptPubKey)]

def transaction (t : Transaction) : String :=
  record "Transaction"
    [("version", int32 t.version), ("inputs", listOf txIn t.inputs),
      ("outputs", listOf txOut t.outputs), ("lock_time", toString t.lockTime), ("hash", "None")]

def blockHeader (h : BlockHeader) : String :=
  record "BlockHeader"
    [("version", int32 h.version), ("prev_block", h.prevBlock.inspect),
      ("merkle_root", h.merkleRoot.inspect), ("time", toString h.time), ("bits", toString h.bits),
      ("nonce", toString h.nonce), ("hash", "None")]

def block (b : Block) : String :=
  record "Block" [("header", blockHeader b.header), ("txs", listOf transaction b.txs)]

def locatorRequest (r : LocatorRequest) : String :=
  record "LocatorRequest"
    [("locator", record "BlockLocator"
        [("version", int32 r.locator.version), ("have", listOf Hash256.inspect r.locator.known)]),
      ("hash_stop", r.hashStop.inspect)]

def protoconf (p : Protoconf) : String :=
  record "Protoconf"
    [("number_of_fields", toString p.numberOfFields),
      ("max_recv_payload_length", toString p.maxReceivedPayload),
      ("stream_policies", bytes p.streamPolicies)]

def createStream (c : CreateStream) : String :=
  record "CreateStream"
    [("association_id", associationId c.associationId), ("stream_type", toString c.streamType),
      ("stream_policy", bytes c.streamPolicy)]

def streamAck (a : StreamAck) : String :=
  record "StreamAck"
    [("association_id", associationId a.associationId), ("stream_type", toString a.streamType)]

def alert (a : Alert) : String :=
  record "Alert" [("message", bytes a.message), ("signature", bytes a.signature)]

def prefilled (p : PrefilledTransaction) : String :=
  record "PrefilledTransaction" [("index", toString p.index), ("tx", transaction p.tx)]

def compactBlock (c : CompactBlock) : String :=
  record "P2PHeaderAndShortIds"
    [("header", blockHeader c.header), ("nonce", toString c.nonce),
      ("shortids", listOf toString c.shortIds), ("prefilled_txn", listOf prefilled c.prefilled)]

def blockTransactionsRequest (r : BlockTransactionsRequest) : String :=
  record "BlockTransactionsRequest"
    [("block_hash", r.blockHash.inspect), ("indexes", listOf toString r.indexes)]

def blockTransactions (b : BlockTransactions) : String :=
  record "BlockTransactions"
    [("block_hash", b.blockHash.inspect), ("transactions", listOf transaction b.transactions)]

def merkleBlock (m : MerkleBlock) : String :=
  record "MerkleBlock"
    [("header", blockHeader m.header), ("total_transactions", toString m.totalTransactions),
      ("hashes", listOf Hash256.inspect m.hashes), ("flags", bytes m.flags)]

end Inspect

namespace Message

/-- The form of a message that has none of its own, by its structure. -/
def structured (m : Message) (structure_ : String) : String :=
  Inspect.wrapped ("msg_" ++ m.command) structure_

/-- The form of a message that carries an inventory. -/
def inventoryText (m : Message) (entries : List Inventory) : String :=
  "msg_" ++ m.command ++ "(inv=" ++ Inspect.listOf Inventory.toText entries ++ ")"

/-- The form in which a message is logged. -/
def toText (m : Message) : String :=
  match m with
  | version v => v.toText
  | inv entries | getData entries | notFound entries => m.inventoryText entries
  | ping (some nonce) => "msg_ping(nonce=" ++ Hex.ofNat 16 nonce.toNat ++ ")"
  | ping none => "msg_ping() (pre-bip31)"
  | pong nonce => "msg_pong(nonce=" ++ Hex.ofNat 16 nonce.toNat ++ ")"
  | reject r => r.toText
  | verack => m.structured "Verack"
  | protoconf p => m.structured (Inspect.wrapped "Protoconf" (Inspect.protoconf p))
  | createStream c => m.structured (Inspect.wrapped "CreateStream" (Inspect.createStream c))
  | streamAck a => m.structured (Inspect.wrapped "StreamAck" (Inspect.streamAck a))
  | addr addresses =>
    m.structured (Inspect.wrapped "Addr" (Inspect.listOf Inspect.seenAddress addresses))
  | alert a => m.structured (Inspect.wrapped "Alert" (Inspect.alert a))
  | getBlocks r => m.structured (Inspect.wrapped "GetBlocks" (Inspect.locatorRequest r))
  | getHeaders r => m.structured (Inspect.wrapped "GetHeaders" (Inspect.locatorRequest r))
  | tx t => m.structured (Inspect.wrapped "Tx" (Inspect.transaction t))
  | block b => m.structured (Inspect.wrapped "Block" (Inspect.block b))
  | headers hs => m.structured (Inspect.wrapped "Headers" (Inspect.listOf Inspect.blockHeader hs))
  | getAddr => m.structured "GetAddr"
  | mempool => m.structured "Mempool"
  | feeFilter rate => m.structured (Inspect.wrapped "FeeFilter" (toString rate))
  | sendHeaders => m.structured "SendHeaders"
  | sendCompact announce scheme =>
    m.structured (Inspect.record "SendCmpct"
      [("announce", toString announce), ("version", toString scheme)])
  | compactBlock c => m.structured (Inspect.wrapped "CmpctBlock" (Inspect.compactBlock c))
  | getBlockTxn r =>
    m.structured (Inspect.wrapped "GetBlockTxn" (Inspect.blockTransactionsRequest r))
  | blockTxn b => m.structured (Inspect.wrapped "BlockTxn" (Inspect.blockTransactions b))
  | merkleBlock b => m.structured (Inspect.wrapped "MerkleBlock" (Inspect.merkleBlock b))

end Message

end BitcoinPeer
