import BitcoinPeer.Chain.Validity
import BitcoinPeer.Merkle.Inclusion
import BitcoinPeer.Text.Timestamp

/-!
# Summaries of transactions and blocks

The JSON form in which transactions, headers and blocks are shown. A remembered hash is shown as
it is; one that is not remembered is computed.
-/

namespace BitcoinPeer

/-- A word in eight hexadecimal digits. -/
def word32Text (n : UInt32) : Json :=
  .str (Hex.ofNat 8 n.toNat)

def OutPoint.toJson (p : OutPoint) : Json :=
  .obj [("hash", p.hash.toJson), ("n", .int p.n.toNat)]

def TxIn.summary (i : TxIn) : Json :=
  .obj [("prevout", i.prevout.toJson), ("scriptSig", .str (Hex.encode i.scriptSig)),
    ("sequence", .str (Hex.ofNat 4 i.sequence.toNat))]

def TxOut.summary (o : TxOut) : Json :=
  .obj [("value", .int o.value.toInt), ("scriptPubKey", .str (Hex.encode o.scriptPubKey))]

def Hashed.txSummary (t : Hashed Transaction) : Json :=
  .obj [("hash", t.peek.toJson), ("version", .int t.contents.version.toInt),
    ("vin", .arr (t.contents.inputs.map TxIn.summary)),
    ("vout", .arr (t.contents.outputs.map TxOut.summary)),
    ("locktime", .int t.contents.lockTime.toNat)]

def Hashed.headerSummary (h : Hashed BlockHeader) : Json :=
  .obj [("hash", h.peek.toJson), ("version", word32Text h.contents.version.toUInt32),
    ("hashPrevBlock", h.contents.prevBlock.toJson),
    ("hashMerkleRoot", h.contents.merkleRoot.toJson),
    ("nTime", .str (Text.timestamp h.contents.time.toNat)),
    ("nBits", word32Text h.contents.bits), ("nNonce", word32Text h.contents.nonce)]

namespace HashedBlock

/-- The header and the hashes of the transactions. -/
def summary (b : HashedBlock) : Json :=
  .obj [("header", b.header.headerSummary),
    ("transactions", .arr (b.txs.map fun t => t.peek.toJson))]

/-- Every transaction in full. -/
def txSummaries (b : HashedBlock) : Json :=
  .arr (b.txs.map Hashed.txSummary)

/-- The header, whether it states the right Merkle root, and every transaction in full. -/
def report (b : HashedBlock) : Json :=
  let (root, b) := b.merkleRoot
  .obj [("header", b.header.headerSummary),
    ("merkle_root_valid", .bool (root == b.header.contents.merkleRoot)),
    ("transactions", b.txSummaries)]

end HashedBlock

end BitcoinPeer
