import BitcoinPeer.Merkle.Tree
import BitcoinPeer.Merkle.Flags

/-!
# Partial trees

A partial tree proves that some leaves are in a tree. It is written depth first: a flag for every
node that is visited, and a hash for every visited leaf and for every node whose flag is off, below
which nothing is visited. Reading it fills the slots of an empty tree. A reading that fails leaves
behind what it filled in, and a later one goes on from there: nodes that are known are passed over,
and no flag is read for a node whose left child is known.
-/

namespace BitcoinPeer.Merkle

/-- What is still to be read of a partial tree. -/
structure Feed where
  flags : List Bool
  hashes : List Hash256
deriving DecidableEq, Inhabited

namespace Feed

def nextFlag (feed : Feed) : Except ProofError (Bool × Feed) :=
  match feed.flags with
  | [] => .error .flagsExhausted
  | flag :: flags => .ok (flag, { feed with flags })

def nextHash (feed : Feed) : Except ProofError (Hash256 × Feed) :=
  match feed.hashes with
  | [] => .error .hashesExhausted
  | hash :: hashes => .ok (hash, { feed with hashes })

end Feed

/-! ### Reading -/

/-- A walk that reads a partial tree, with the leaves matched so far and what is left to read. -/
structure Reader extends Walk where
  matched : Array (Nat × Hash256)
  feed : Feed
deriving Inhabited

namespace Reader

/-- Takes the next hash of the feed into the slot under the cursor. The hash of a leaf whose flag is
on is a match. -/
def take (r : Reader) (isMatch : Bool) (feed : Feed) : Option (Except ProofError Reader) := do
  match feed.nextHash with
  | .error e => return .error e
  | .ok (a, feed) =>
    let walk ← r.toWalk.settle a
    let matched := if isMatch then r.matched.push (r.index, a) else r.matched
    return .ok { walk with matched, feed }

/-- One step of the reading while the root is not known. -/
def advance (r : Reader) : Option (Except ProofError Reader) := do
  if r.isLeaf then
    match r.feed.nextFlag with
    | .error e => return .error e
    | .ok (flag, feed) => r.take flag feed
  else
    match ← r.leftSlot with
    | some a => return .ok { r with toWalk := ← r.join a }
    | none =>
      match r.feed.nextFlag with
      | .error e => return .error e
      | .ok (true, feed) => return .ok { r with toWalk := r.left, feed }
      | .ok (false, feed) => r.take false feed

/-- One step of the reading. It is over when the root's hash is known or something is missing. -/
def step (r : Reader) : Option (Reader ⊕ Reader × Except ProofError Unit) := do
  match ← r.root with
  | some _ => return .inr (r, .ok ())
  | none =>
    match ← r.advance with
    | .ok r => return .inl r
    | .error e => return .inr (r, .error e)

end Reader

/-- The root of a partial tree and the leaves it proves, by position. -/
structure Matches where
  root : Hash256
  matched : List (Nat × Hash256)
deriving DecidableEq

/-- What a reading came to that ended at a known root. Every hash must be used, and flags that are
left over are judged by `tail`. -/
def Reader.found (tail : List Bool → Except ProofError Unit) (r : Reader) :
    Except ProofError Matches :=
  if r.feed.hashes.length ≠ 0 then .error (.unconsumedHashes r.feed.hashes.length)
  else
    match tail r.feed.flags, r.root.join with
    | .error e, _ => .error e
    | .ok (), none => .error .emptyTree
    | .ok (), some root => .ok ⟨root, r.matched.toList⟩

namespace Tree

/-- A reader of a partial tree that starts at the root. -/
def reader (t : Tree) (flags : List Bool) (hashes : List Hash256) : Reader :=
  { t.walk with matched := #[], feed := ⟨flags, hashes⟩ }

/-- Fills the tree from a partial tree, whose flags that are left over are judged by `tail`. -/
def populated? (tail : List Bool → Except ProofError Unit) (t : Tree) (flags : List Bool)
    (hashes : List Hash256) : Option (Tree × Except ProofError Matches) := do
  let (r, outcome) ← repeatM Reader.step (t.reader flags hashes)
  return ({ t with rows := r.rows }, outcome.bind fun _ => r.found tail)

/-- No flag may be left over. -/
def noTail (rest : List Bool) : Except ProofError Unit :=
  if rest.length ≠ 0 then .error (.unconsumedFlags rest.length) else .ok ()

/-- Fewer than eight flags may be left over, and all of them off: they fill up the last byte. -/
def paddingTail (rest : List Bool) : Except ProofError Unit :=
  if 8 ≤ rest.length ∨ rest.any id then .error (.unconsumedFlags rest.length) else .ok ()

/-- Fills the tree from exactly the flags and hashes of a partial tree. -/
def populate (t : Tree) (flags : List Bool) (hashes : List Hash256) :
    Tree × Except ProofError Matches :=
  (t.populated? noTail flags hashes).get!

/-- Fills the tree from flags that are packed into bytes. -/
def populateFromBytes (t : Tree) (flags : Bytes) (hashes : List Hash256) :
    Tree × Except ProofError Matches :=
  (t.populated? paddingTail (unpackFlags flags) hashes).get!

/-! ### Writing -/

/-- Whether a leaf below the node with this index, so many levels above the leaves, is marked. -/
def anyMarked (t : Tree) (marks : Array Bool) (height index : Nat) : Bool :=
  let first := index <<< height
  let last := min ((index + 1) <<< height) t.total
  (List.range' first (last - first)).any fun i => marks[i]?.getD false

/-- The flags and hashes for the node with this index, so many levels above the leaves. -/
def proof? (t : Tree) (marks : Array Bool) :
    (height index : Nat) → Option (List Bool × List Hash256)
  | 0, index => some ([t.anyMarked marks 0 index], (t.node? t.maxDepth index).toList)
  | height + 1, index =>
    let depth := t.maxDepth - (height + 1)
    if t.anyMarked marks (height + 1) index then do
      let l ← t.proof? marks height (2 * index)
      if 2 * index + 1 < (← t.rows.size? (depth + 1)) then
        let r ← t.proof? marks height (2 * index + 1)
        return (true :: l.1 ++ r.1, l.2 ++ r.2)
      else return (true :: l.1, l.2)
    else some ([false], (t.node? depth index).toList)

/-- The partial tree that proves the marked leaves. A missing mark is off, and marks beyond the last
leaf count for nothing. -/
def partialTree (t : Tree) (marks : List Bool) : List Bool × List Hash256 :=
  (t.proof? marks.toArray t.maxDepth 0).get!

end Tree

end BitcoinPeer.Merkle
