import BitcoinPeer.Chain.Hashed
import BitcoinPeer.Chain.Target
import BitcoinPeer.Merkle.Tree

/-!
# Validity of blocks

The checks that need nothing but the block: proof of work, amounts, Merkle root. They go by the
remembered hashes, and remember those they need.
-/

namespace BitcoinPeer

/-- Every output's amount is possible. The hash is computed on the way. -/
def Hashed.isValid (t : Hashed Transaction) : Bool × Hashed Transaction :=
  (t.contents.outputs.all TxOut.isValid, t.hash.2)

/-- The hash is no greater than the target, if there is a target. -/
def Hashed.meetsTarget (h : Hashed BlockHeader) : Bool × Hashed BlockHeader :=
  match targetOfBits h.contents.bits with
  | some target =>
    let (hash, h) := h.hash
    (decide (hash ≤ target), h)
  | none => (false, h)

/-- Checks transactions up to the first that is not valid. -/
def checkTransactions : List (Hashed Transaction) → Bool × List (Hashed Transaction)
  | [] => (true, [])
  | t :: ts =>
    match t.isValid with
    | (false, t) => (false, t :: ts)
    | (true, t) =>
      let (valid, ts) := checkTransactions ts
      (valid, t :: ts)

namespace HashedBlock

/-- The Merkle root of the transactions' hashes. -/
def merkleRoot (b : HashedBlock) : Hash256 × HashedBlock :=
  let (hashes, b) := b.txHashes
  (Merkle.root hashes, b)

/-- Stores the Merkle root of the transactions in the header. -/
def fixMerkleRoot (b : HashedBlock) : Hash256 × HashedBlock :=
  let (root, b) := b.merkleRoot
  (root, b.editHeader fun h => { h with merkleRoot := root })

/-- The header's proof of work is right. -/
def meetsTarget (b : HashedBlock) : Bool × HashedBlock :=
  let (meets, header) := b.header.meetsTarget
  (meets, { b with header })

/-- Proof of work, every transaction and the Merkle root are right; a check is made only if those
before it succeed. -/
def isValid (b : HashedBlock) : Bool × HashedBlock :=
  match b.header.meetsTarget with
  | (false, header) => (false, { b with header })
  | (true, header) =>
    match checkTransactions b.txs with
    | (false, txs) => (false, { header, txs })
    | (true, txs) =>
      let (root, b) := merkleRoot { header, txs }
      (root == b.header.contents.merkleRoot, b)

end HashedBlock

end BitcoinPeer
