import BitcoinPeer.Hash256
import BitcoinPeer.Digest.Sha256
import BitcoinPeer.Digest.Ripemd160

/-!
# Digests that name things

Objects are named by SHA-256 applied twice to their encoding; the same digest of two hashes joined
is the step from two nodes of a Merkle tree to their parent, and its first bytes guard a frame.
-/

namespace BitcoinPeer.Digest

def sha256 (bs : Bytes) : Bytes :=
  (Sha256.hash bs).bytes

/-- SHA-256 of SHA-256. -/
def doubleSha256 (bs : Bytes) : Hash256 :=
  ⟨Sha256.hash (sha256 bs)⟩

/-- The digest of two hashes, one after the other. -/
def hashPair (left right : Hash256) : Hash256 :=
  doubleSha256 (left.bytes ++ right.bytes)

/-- The first four bytes of the double digest. -/
def checksum (payload : Bytes) : Bytes :=
  (doubleSha256 payload).bytes.take 4

/-- RIPEMD-160 of SHA-256. -/
def hash160 (bs : Bytes) : Bytes :=
  (Ripemd160.hash (sha256 bs)).bytes

end BitcoinPeer.Digest
