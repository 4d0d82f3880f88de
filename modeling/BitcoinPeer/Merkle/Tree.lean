import BitcoinPeer.Merkle.Error
import BitcoinPeer.Merkle.Walk

/-!
# Merkle trees

A tree over a list of leaves, in rows of slots of which some may still be empty. A function whose
walk over the rows has a result for every tree (`computed?` and its like) is given by that result;
`get!` stands where there is always one.
-/

namespace BitcoinPeer.Merkle

/-- A tree over `total` leaves. -/
structure Tree where
  total : Nat
  rows : Rows
deriving Inhabited

namespace Tree

/-- The number of levels above the leaves. -/
def maxDepth (t : Tree) : Nat :=
  depthFor t.total

/-- The tree over so many leaves with nothing known. -/
def new (total : Nat) : Except ProofError Tree :=
  if total = 0 then .error .emptyTree else .ok ⟨total, Rows.empty total⟩

/-- A walk that starts at the root. -/
def walk (t : Tree) : Walk :=
  { maxDepth := t.maxDepth, rows := t.rows, depth := 0, index := 0 }

/-- The tree with the hash of every node, from those of the leaves. -/
def computed? (t : Tree) (leaves : List Hash256) : Option Tree := do
  let rows ← t.rows.replaceRow t.maxDepth (leaves.map some).toArray
  let rows ← repeatM Walk.computeStep { t with rows }.walk
  return { t with rows }

/-- The tree over the given leaves with every hash known. -/
def ofLeaves (leaves : List Hash256) : Except ProofError Tree := do
  let t ← Tree.new leaves.length
  return (t.computed? leaves).get!

/-- What the slot at a depth (the root's is zero) and an index holds; nothing outside the tree. -/
def node? (t : Tree) (depth index : Nat) : Option Hash256 :=
  (t.rows.slot? depth index).join

/-- The hash of the root, if it is known. -/
def rootHash (t : Tree) : Option Hash256 :=
  t.node? 0 0

/-- The rows of slots, the root's first and the leaves' last. -/
def levels (t : Tree) : List (List (Option Hash256)) :=
  t.rows.toList.map Array.toList

end Tree

/-- The Merkle root of a list of leaves, and zero for none. -/
def root (leaves : List Hash256) : Hash256 :=
  match Tree.ofLeaves leaves with
  | .ok t => t.rootHash.getD Hash256.zero
  | .error _ => Hash256.zero

end BitcoinPeer.Merkle
