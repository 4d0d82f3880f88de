import BitcoinPeer.Digest.Identity
import BitcoinPeer.Merkle.Rows

/-!
# Walks over a tree

All hashes of a tree are computed, read and proved by a cursor that goes from slot to slot. Every
move is partial: it has no result if it leaves the tree or looks at a slot that does not exist. The
loops repeat one step (`repeatM`) until the step gives a result, and stop if it has none.
-/

namespace BitcoinPeer.Merkle

open Digest (hashPair)

/-- The rows of a tree with a cursor at the slot of some depth and index. -/
structure Walk where
  /-- The depth of the leaves. -/
  maxDepth : Nat
  rows : Rows
  depth : Nat
  index : Nat
deriving Inhabited

namespace Walk

/-- The hash of the root, as far as it is known. -/
def root (w : Walk) : Option (Option Hash256) :=
  w.rows.slot? 0 0

def isLeaf (w : Walk) : Bool :=
  w.depth == w.maxDepth

def atRoot (w : Walk) : Bool :=
  w.depth == 0 && w.index == 0

/-! ### Looking below the cursor -/

def leftSlot (w : Walk) : Option (Option Hash256) :=
  w.rows.slot? (w.depth + 1) (2 * w.index)

def rightSlot (w : Walk) : Option (Option Hash256) :=
  w.rows.slot? (w.depth + 1) (2 * w.index + 1)

/-- Whether the node has a right child. -/
def hasRight (w : Walk) : Option Bool :=
  (w.rows.size? (w.depth + 1)).map fun size => decide (2 * w.index + 1 < size)

/-! ### Moves -/

def up (w : Walk) : Option Walk :=
  match w.depth with
  | 0 => none
  | depth + 1 => some { w with depth, index := w.index / 2 }

def left (w : Walk) : Walk :=
  { w with depth := w.depth + 1, index := 2 * w.index }

def right (w : Walk) : Walk :=
  { w with depth := w.depth + 1, index := 2 * w.index + 1 }

/-- Fills the slot under the cursor and goes up, unless this is the root. -/
def settle (w : Walk) (a : Hash256) : Option Walk := do
  let rows ← w.rows.fill w.depth w.index a
  let w := { w with rows }
  if w.atRoot then return w else w.up

/-- Goes on from a node whose left child is known: to the right child while that is unknown, and
else up, with the hash of both. A node without a right child takes its left child twice. -/
def join (w : Walk) (left : Hash256) : Option Walk := do
  if ← w.hasRight then
    match ← w.rightSlot with
    | none => return w.right
    | some right => w.settle (hashPair left right)
  else w.settle (hashPair left left)

/-- One step on the way to the root's hash. The walk is over when that is known. -/
def computeStep (w : Walk) : Option (Walk ⊕ Rows) := do
  match ← w.root with
  | some _ => return .inr w.rows
  | none =>
    if w.isLeaf then return .inl (← w.up)
    else
      match ← w.leftSlot with
      | none => return .inl w.left
      | some a => return .inl (← w.join a)

end Walk

end BitcoinPeer.Merkle
