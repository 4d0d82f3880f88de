import BitcoinPeer.Merkle.Tree

/-!
# Branches

A branch leads from a leaf to the root: one entry for each level, that of the leaves first, with
the hash to join and the side on which it stands.
-/

namespace BitcoinPeer.Merkle

open Digest (hashPair)

/-- The side on which the hash of a branch entry stands. -/
inductive Side where
  | left
  | right
deriving DecidableEq

structure BranchEntry where
  hash : Hash256
  side : Side
deriving DecidableEq

/-- An entry for a slot, which has to be known. -/
def BranchEntry.ofSlot (slot : Option Hash256) (side : Side) : Except ProofError BranchEntry :=
  match slot with
  | some hash => .ok ⟨hash, side⟩
  | none => .error .emptyTree

/-- The entry for the step to a node from its left child, or else from its right one. A node without
a right child repeats its left one, so its entry is that child itself, on the left. The left child
has to be known in any case. -/
def Walk.entry (w : Walk) (fromLeft : Bool) : Option (Except ProofError BranchEntry) := do
  match BranchEntry.ofSlot (← w.leftSlot) .left with
  | .error e => return .error e
  | .ok entry =>
    if (← w.hasRight) && fromLeft then return BranchEntry.ofSlot (← w.rightSlot) .right
    else return .ok entry

/-- The entries on the way up from a slot to the root. -/
def Walk.entries (maxDepth : Nat) (rows : Rows) :
    (depth index : Nat) → Option (Except ProofError (List BranchEntry))
  | 0, 0 => some (.ok [])
  | 0, _ + 1 => none
  | depth + 1, index => do
    let parent : Walk := { maxDepth, rows, depth, index := index / 2 }
    match ← parent.entry (index % 2 == 0) with
    | .error e => return .error e
    | .ok entry => return (← entries maxDepth rows depth (index / 2)).map (entry :: ·)

/-- The branch of the leaf at a position. -/
def Tree.branch? (t : Tree) (position : Nat) : Option (Except ProofError (List BranchEntry)) :=
  if t.total ≤ position then some (.error .txNotFound)
  else Walk.entries t.maxDepth t.rows t.maxDepth position

def Tree.branch (t : Tree) (position : Nat) : Except ProofError (List BranchEntry) :=
  (t.branch? position).get!

/-- The branch of the first leaf that equals `tx`. -/
def createBranch (tx : Hash256) (txs : List Hash256) : Except ProofError (List BranchEntry) :=
  match txs.findIdx? (· == tx) with
  | none => .error .txNotFound
  | some position =>
    if txs.length = 1 then .ok []
    else do
      let t ← Tree.ofLeaves txs
      t.branch position

/-- Joins the next entry to the hash so far. -/
def BranchEntry.join (running : Hash256) (entry : BranchEntry) : Hash256 :=
  match entry.side with
  | .right => hashPair running entry.hash
  | .left => hashPair entry.hash running

/-- The root to which a branch leads from `tx`. -/
def branchRoot (tx : Hash256) (branch : List BranchEntry) : Hash256 :=
  branch.foldl BranchEntry.join tx

/-- Whether a branch leads from `tx` to the given root. -/
def verifyBranch (tx : Hash256) (branch : List BranchEntry) (root : Hash256) : Bool :=
  branchRoot tx branch == root

end BitcoinPeer.Merkle
