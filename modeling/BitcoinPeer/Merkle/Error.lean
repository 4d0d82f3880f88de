/-!
# Failures of Merkle proofs
-/

namespace BitcoinPeer.Merkle

/-- Why a proof cannot be built or read. -/
inductive ProofError where
  | txNotFound
  | emptyTree
  | tooManyTransactions (total : UInt32)
  | tooManyHashes (hashes : Nat) (total : UInt32)
  | hashesExhausted
  | flagsExhausted
  | unconsumedHashes (count : Nat)
  | unconsumedFlags (count : Nat)
  | invalidHex
deriving DecidableEq, Inhabited

/-- The wording of a failure. -/
def ProofError.message : ProofError → String
  | .txNotFound => "Transaction not found among the block's leaves"
  | .emptyTree => "Merkle tree has no leaves"
  | .tooManyTransactions total => s!"Partial tree claims {total} transactions, more than allowed"
  | .tooManyHashes hashes total =>
    s!"Partial tree carries {hashes} hashes for {total} transactions"
  | .hashesExhausted => "Ran out of hashes while populating partial tree"
  | .flagsExhausted => "Ran out of flag bits while populating partial tree"
  | .unconsumedHashes count => s!"{count} hashes left unconsumed"
  | .unconsumedFlags count => s!"{count} flag bits left unconsumed"
  | .invalidHex => "Invalid hash hex"

end BitcoinPeer.Merkle
