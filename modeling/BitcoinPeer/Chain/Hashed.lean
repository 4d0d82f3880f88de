import BitcoinPeer.Digest.Identity
import BitcoinPeer.Chain.Block

/-!
# Remembered hashes

The hash that names an object is computed when it is first asked for and remembered from then on.
Editing the contents leaves the remembered hash as it is, so it goes stale; only `rehash` brings it
up to date.
-/

namespace BitcoinPeer

/-- The hash that names an object: the double digest of its encoding. -/
def identity {α : Type} [Codec α] (a : α) : Hash256 :=
  Digest.doubleSha256 (Codec.encode a)

/-- An object with its remembered hash. -/
structure Hashed (α : Type) where
  contents : α
  remembered : Option Hash256 := none
deriving Inhabited

/-- Objects are compared by their contents. -/
instance {α : Type} [BEq α] : BEq (Hashed α) where
  beq x y := x.contents == y.contents

/-- Only the contents are written; what is read remembers nothing. -/
instance {α : Type} [Codec α] : Codec (Hashed α) where
  encode x := Codec.encode x.contents
  decode := do return { contents := ← Codec.decode }

namespace Hashed

variable {α : Type} [Codec α]

/-- The remembered hash, or else the hash of the contents, which is remembered. -/
def hash (x : Hashed α) : Hash256 × Hashed α :=
  match x.remembered with
  | some h => (h, x)
  | none =>
    let h := identity x.contents
    (h, { x with remembered := some h })

/-- Forgets the remembered hash and computes it again. -/
def rehash (x : Hashed α) : Hash256 × Hashed α :=
  hash { x with remembered := none }

/-- The hash that would be answered, without remembering it. -/
def peek (x : Hashed α) : Hash256 :=
  x.remembered.getD (identity x.contents)

/-- Changes the contents and leaves the remembered hash alone. -/
def edit (f : α → α) (x : Hashed α) : Hashed α :=
  { x with contents := f x.contents }

/-! ## Editing transactions -/

def pushInput (i : TxIn) (t : Hashed Transaction) : Hashed Transaction :=
  t.edit fun c => { c with inputs := c.inputs ++ [i] }

def pushOutput (o : TxOut) (t : Hashed Transaction) : Hashed Transaction :=
  t.edit fun c => { c with outputs := c.outputs ++ [o] }

/-- Takes away the last input, if there is one. -/
def popInput (t : Hashed Transaction) : Option TxIn × Hashed Transaction :=
  (t.contents.inputs.getLast?, t.edit fun c => { c with inputs := c.inputs.dropLast })

/-- Takes away the last output, if there is one. -/
def popOutput (t : Hashed Transaction) : Option TxOut × Hashed Transaction :=
  (t.contents.outputs.getLast?, t.edit fun c => { c with outputs := c.outputs.dropLast })

end Hashed

/-- A block whose header and transactions remember their hashes. -/
structure HashedBlock where
  header : Hashed BlockHeader
  txs : List (Hashed Transaction)
deriving Inhabited

instance : BEq HashedBlock where
  beq a b := a.header == b.header && a.txs == b.txs

instance : Codec HashedBlock where
  encode b := Codec.encode b.header ++ Codec.encode b.txs
  decode := do
    let header ← Codec.decode
    let txs ← Codec.decode
    return { header, txs }

namespace HashedBlock

/-- A block of which no hash is remembered yet. -/
def ofBlock (b : Block) : HashedBlock :=
  { header := { contents := b.header }, txs := b.txs.map fun t => { contents := t } }

/-- The block without the remembered hashes. -/
def toBlock (b : HashedBlock) : Block :=
  { header := b.header.contents, txs := b.txs.map Hashed.contents }

/-- The hash of the header. -/
def hash (b : HashedBlock) : Hash256 × HashedBlock :=
  let (h, header) := b.header.hash
  (h, { b with header })

/-- Computes every hash again. -/
def rehash (b : HashedBlock) : Hash256 × HashedBlock :=
  let (h, header) := b.header.rehash
  (h, { header, txs := b.txs.map fun t => t.rehash.2 })

/-- Forgets the header's hash and computes it again. -/
def rehashHeader (b : HashedBlock) : Hash256 × HashedBlock :=
  let (h, header) := b.header.rehash
  (h, { b with header })

/-- Changes the header and leaves every remembered hash alone. -/
def editHeader (f : BlockHeader → BlockHeader) (b : HashedBlock) : HashedBlock :=
  { b with header := b.header.edit f }

/-- Adds a transaction of which no hash is remembered. -/
def pushTx (t : Transaction) (b : HashedBlock) : HashedBlock :=
  { b with txs := b.txs ++ [{ contents := t }] }

/-- Takes away the last transaction, if there is one. -/
def popTx (b : HashedBlock) : Option Transaction × HashedBlock :=
  (b.txs.getLast?.map Hashed.contents, { b with txs := b.txs.dropLast })

/-- The hashes of the transactions in order. -/
def txHashes (b : HashedBlock) : List Hash256 × HashedBlock :=
  (b.txs.map fun t => t.hash.1, { b with txs := b.txs.map fun t => t.hash.2 })

end HashedBlock

end BitcoinPeer
