import BitcoinPeer.Chain.Hashed
import BitcoinPeer.Digest.SipHash

/-!
# Compact blocks

A compact block names most transactions of a block by short ids and ships the others in full, with
their positions. On the wire every position is the gap to the one before it; `absolutePositions`
and `gaps` lead from one form to the other.
-/

namespace BitcoinPeer

/-! ## Positions and gaps -/

/-- The gaps of positions of which the first may be `next` at the least. -/
def gapsFrom (next : Nat) : List UInt64 → Except DecodeError (List UInt64)
  | [] => .ok []
  | position :: rest =>
    if position.toNat < next then .error (.indexOutOfOrder position)
    else if position.toNat + 1 = UInt64.size then .error .indexOverflow
    else do
      let more ← gapsFrom (position.toNat + 1) rest
      return UInt64.ofNat (position.toNat - next) :: more

/-- The gaps between positions, which have to increase. -/
def gaps (positions : List UInt64) : Except DecodeError (List UInt64) :=
  gapsFrom 0 positions

/-- The positions whose gaps these are, where a gap of zero leads to `next`. -/
def positionsFrom (next : Nat) : List UInt64 → Except DecodeError (List UInt64)
  | [] => .ok []
  | gap :: rest =>
    if UInt64.size ≤ next + gap.toNat + 1 then .error .indexOverflow
    else do
      let more ← positionsFrom (next + gap.toNat + 1) rest
      return UInt64.ofNat (next + gap.toNat) :: more

/-- The positions between which there are these gaps. -/
def absolutePositions (gaps : List UInt64) : Except DecodeError (List UInt64) :=
  positionsFrom 0 gaps

/-! ## Compact blocks -/

/-- A transaction in full, with an index: its gap on the wire, its position otherwise. -/
structure PrefilledTransaction where
  index : UInt64
  tx : Transaction
deriving DecidableEq

instance : Codec PrefilledTransaction where
  encode p := CompactSize.encode p.index ++ Codec.encode p.tx
  decode := do
    let index ← CompactSize.decode
    let tx ← Codec.decode
    return { index, tx }

/-- A compact block; whether the indices are gaps or positions depends on where it stands. -/
structure CompactBlock where
  header : BlockHeader := {}
  nonce : UInt64 := 0
  shortIds : List UInt64 := []
  prefilled : List PrefilledTransaction := []
deriving DecidableEq

/-- The six low bytes of a short id. -/
def Encode.shortId (id : UInt64) : Bytes :=
  Bytes.ofNatLE 6 id.toNat

def Decoder.shortId : Decoder UInt64 := do
  return UInt64.ofNat (← Decoder.natLE 6)

instance : Codec CompactBlock where
  encode c := Codec.encode c.header ++ Encode.uint64 c.nonce
    ++ Encode.list Encode.shortId c.shortIds ++ Codec.encode c.prefilled
  decode := do
    let header ← Codec.decode
    let nonce ← Decoder.uint64
    let shortIds ← Decoder.counted Decoder.shortId
    let prefilled ← Codec.decode
    return { header, nonce, shortIds, prefilled }

namespace CompactBlock

/-- Replaces the indices of the transactions that are shipped in full. -/
def reindex (f : List UInt64 → Except DecodeError (List UInt64)) (c : CompactBlock) :
    Except DecodeError CompactBlock := do
  let indices ← f (c.prefilled.map PrefilledTransaction.index)
  return { c with prefilled := List.zipWith (fun p index => { p with index }) c.prefilled indices }

/-- The same compact block with positions in place of gaps. -/
def ofWire (c : CompactBlock) : Except DecodeError CompactBlock :=
  c.reindex absolutePositions

/-- The same compact block with gaps in place of positions. -/
def toWire (c : CompactBlock) : Except DecodeError CompactBlock :=
  c.reindex gaps

/-- The keys of the short ids: the first two words of the digest of header and nonce. -/
def keys (c : CompactBlock) : UInt64 × UInt64 :=
  let digest : Hash256 := ⟨Sha256.hash (Codec.encode c.header ++ Encode.uint64 c.nonce)⟩
  (digest.word 0, digest.word 1)

/-- The short id of a transaction: the low 48 bits of its keyed hash. -/
def shortId (keys : UInt64 × UInt64) (tx : Hash256) : UInt64 :=
  SipHash.hash keys.1 keys.2 tx &&& 0xffffffffffff

/-- The positions that are asked for, without those beyond the last transaction, in order and each one
once. -/
def shippedPositions (count : Nat) (inFull : List Nat) : Array Nat :=
  (inFull.filter (· < count)).mergeSort.eraseReps.toArray

/-- Takes the transactions from a position on, those at the given positions, which are in order, in
full and the others by short ids, for which their hashes are remembered. -/
def collect (keys : UInt64 × UInt64) (positions : Array Nat) :
    Nat → List (Hashed Transaction) →
      List UInt64 × List PrefilledTransaction × List (Hashed Transaction)
  | _, [] => ([], [], [])
  | position, t :: ts =>
    let (ids, prefilled, after) := collect keys positions (position + 1) ts
    if positions.binSearchContains position (· < ·) then
      (ids, { index := UInt64.ofNat position, tx := t.contents } :: prefilled, t :: after)
    else
      let (hash, t) := t.hash
      (shortId keys hash :: ids, prefilled, t :: after)

/-- The compact block of a block, with positions for indices. Positions beyond the last transaction
are passed over. -/
def ofBlock (b : HashedBlock) (nonce : UInt64) (inFull : List Nat) : CompactBlock × HashedBlock :=
  let c : CompactBlock := { header := b.header.contents, nonce }
  let (shortIds, prefilled, txs) := collect c.keys (shippedPositions b.txs.length inFull) 0 b.txs
  ({ c with shortIds, prefilled }, { b with txs })

end CompactBlock

/-! ## Asking for transactions -/

/-- Asks for transactions of a block, by the gaps between their positions. -/
structure BlockTransactionsRequest where
  blockHash : Hash256
  indexes : List UInt64
deriving DecidableEq

instance : Codec BlockTransactionsRequest where
  encode r := Codec.encode r.blockHash ++ Encode.list CompactSize.encode r.indexes
  decode := do
    let blockHash ← Codec.decode
    let indexes ← Decoder.counted CompactSize.decode
    return { blockHash, indexes }

namespace BlockTransactionsRequest

/-- Asks for the transactions at increasing positions. -/
def ofAbsolute (blockHash : Hash256) (positions : List UInt64) :
    Except DecodeError BlockTransactionsRequest := do
  return { blockHash, indexes := ← gaps positions }

/-- The positions that are asked for. -/
def toAbsolute (r : BlockTransactionsRequest) : Except DecodeError (List UInt64) :=
  absolutePositions r.indexes

end BlockTransactionsRequest

/-- Transactions of a block that were asked for. -/
structure BlockTransactions where
  blockHash : Hash256
  transactions : List Transaction
deriving DecidableEq

instance : Codec BlockTransactions where
  encode b := Codec.encode b.blockHash ++ Codec.encode b.transactions
  decode := do
    let blockHash ← Codec.decode
    let transactions ← Codec.decode
    return { blockHash, transactions }

end BitcoinPeer
