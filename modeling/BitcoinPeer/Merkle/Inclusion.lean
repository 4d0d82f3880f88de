import BitcoinPeer.Merkle.Branch
import BitcoinPeer.Text.Json.Reader

/-!
# Inclusion proofs

A branch together with the hashes it connects, and its JSON form.
-/

namespace BitcoinPeer

/-- A hash in JSON is its hexadecimal text. -/
def Hash256.toJson (h : Hash256) : Json :=
  .str h.toHex

def Hash256.ofJson? (j : Json) : Option Hash256 := do
  match Hash256.ofHex (← j.text?) with
  | .ok h => return h
  | .error _ => none

namespace Merkle

/-- The letter of a side. -/
def Side.letter : Side → String
  | .left => "L"
  | .right => "R"

def Side.ofLetter? (letter : String) : Option Side :=
  if letter = "L" then some .left else if letter = "R" then some .right else none

def BranchEntry.toJson (entry : BranchEntry) : Json :=
  .obj [("hash", entry.hash.toJson), ("pos", .str entry.side.letter)]

def BranchEntry.ofJson? (j : Json) : Option BranchEntry := do
  match ← j.fields? ["hash", "pos"] with
  | [some hash, some pos] =>
    return { hash := ← Hash256.ofJson? hash, side := ← Side.ofLetter? (← pos.tag?) }
  | _ => none

/-- A proof that a transaction is in a block. -/
structure InclusionProof where
  blockHash : Hash256
  merkleRoot : Hash256
  txHash : Hash256
  branch : List BranchEntry
deriving DecidableEq

namespace InclusionProof

/-- The proof for `txHash` among the transactions of a block, in their order. -/
def build (blockHash txHash : Hash256) (txs : List Hash256) : Except ProofError InclusionProof := do
  let branch ← createBranch txHash txs
  return { blockHash, merkleRoot := root txs, txHash, branch }

/-- Whether the branch leads from the transaction to the stated root. -/
def verify (p : InclusionProof) : Bool :=
  verifyBranch p.txHash p.branch p.merkleRoot

def toJson (p : InclusionProof) : Json :=
  .obj [("block_hash", p.blockHash.toJson), ("merkle_root", p.merkleRoot.toJson),
    ("tx_hash", p.txHash.toJson), ("branches", .arr (p.branch.map BranchEntry.toJson))]

def ofJson? (j : Json) : Option InclusionProof := do
  match ← j.fields? ["block_hash", "merkle_root", "tx_hash", "branches"] with
  | [some blockHash, some merkleRoot, some txHash, some branches] =>
    return {
      blockHash := ← Hash256.ofJson? blockHash
      merkleRoot := ← Hash256.ofJson? merkleRoot
      txHash := ← Hash256.ofJson? txHash
      branch := ← (← branches.array?).mapM BranchEntry.ofJson? }
  | _ => none

/-- Reads the text of a proof. -/
def parse? (text : String) : Option InclusionProof := do
  ofJson? (← Json.parse? text)

end InclusionProof

end Merkle

end BitcoinPeer
