import BitcoinPeer.Chain.Hashed
import BitcoinPeer.Merkle.Partial

/-!
# Filtered blocks

A header with a partial Merkle tree that proves some of the block's transactions.
-/

namespace BitcoinPeer

open Merkle (ProofError Tree Matches)

structure MerkleBlock where
  header : BlockHeader := {}
  totalTransactions : UInt32 := 0
  /-- The hashes of the partial tree. -/
  hashes : List Hash256 := []
  /-- The flags of the partial tree, packed. -/
  flags : Bytes := []
deriving DecidableEq

instance : Codec MerkleBlock where
  encode m := Codec.encode m.header ++ Encode.uint32 m.totalTransactions ++ Codec.encode m.hashes
    ++ Encode.byteString m.flags
  decode := do
    let header ← Codec.decode
    let totalTransactions ← Decoder.uint32
    let hashes ← Codec.decode
    let flags ← Decoder.byteString
    return { header, totalTransactions, hashes, flags }

/-- The most transactions that a filtered block may claim: as many of the least size, 60 bytes, as
go into the largest payload, of two mebibytes. -/
def maxMerkleBlockTransactions : UInt32 := 2 * 1024 * 1024 / 60

namespace MerkleBlock

/-- Proves those transactions of a block whose hashes are wanted. -/
def ofBlock (b : HashedBlock) (wanted : List Hash256) :
    Except ProofError MerkleBlock × HashedBlock :=
  let (leaves, b) := b.txHashes
  let result := do
    let tree ← Tree.ofLeaves leaves
    let (flags, hashes) := tree.partialTree (leaves.map wanted.contains)
    return {
      header := b.header.contents
      totalTransactions := UInt32.ofNat leaves.length
      hashes
      flags := Merkle.packFlags flags }
  (result, b)

/-- Refuses numbers that no partial tree has, before there is a tree. -/
def checkBounds (m : MerkleBlock) : Except ProofError Unit :=
  if m.totalTransactions = 0 then .error .emptyTree
  else if maxMerkleBlockTransactions < m.totalTransactions then
    .error (.tooManyTransactions m.totalTransactions)
  else if m.totalTransactions.toNat < m.hashes.length then
    .error (.tooManyHashes m.hashes.length m.totalTransactions)
  else if m.flags.length * 8 < m.hashes.length then .error .flagsExhausted
  else .ok ()

/-- Reads the partial tree. -/
def extractMatches (m : MerkleBlock) : Except ProofError Matches := do
  m.checkBounds
  let tree ← Tree.new m.totalTransactions.toNat
  (tree.populateFromBytes m.flags m.hashes).2

/-- Whether the partial tree has the root that the header states. -/
def verify (m : MerkleBlock) : Bool :=
  match m.extractMatches with
  | .ok found => found.root == m.header.merkleRoot
  | .error _ => false

end MerkleBlock

end BitcoinPeer
