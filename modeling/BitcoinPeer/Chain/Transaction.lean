import BitcoinPeer.Hash256
import BitcoinPeer.Codec.CompactSize

/-!
# Transactions

Transactions and their parts, with their encodings. Scripts are byte strings that nobody looks into.
-/

namespace BitcoinPeer

instance : Codec Hash256 where
  encode h := h.bytes
  decode := do return ⟨← Decoder.octets 32⟩

/-- An output of an earlier transaction. -/
structure OutPoint where
  hash : Hash256
  n : UInt32
deriving DecidableEq, Inhabited

namespace OutPoint

def toText (p : OutPoint) : String :=
  p.hash.toHex ++ ":" ++ toString p.n

instance : Codec OutPoint where
  encode p := Codec.encode p.hash ++ Encode.uint32 p.n
  decode := do
    let hash ← Codec.decode
    let n ← Decoder.uint32
    return { hash, n }

end OutPoint

structure TxIn where
  prevout : OutPoint
  /-- The script that unlocks the output. -/
  scriptSig : Bytes
  sequence : UInt32
deriving DecidableEq

instance : Codec TxIn where
  encode i := Codec.encode i.prevout ++ Encode.byteString i.scriptSig ++ Encode.uint32 i.sequence
  decode := do
    let prevout ← Codec.decode
    let scriptSig ← Decoder.byteString
    let sequence ← Decoder.uint32
    return { prevout, scriptSig, sequence }

structure TxOut where
  /-- An amount in the smallest unit. -/
  value : Int64
  /-- The script that locks the output. -/
  scriptPubKey : Bytes
deriving DecidableEq

instance : Codec TxOut where
  encode o := Encode.int64 o.value ++ Encode.byteString o.scriptPubKey
  decode := do
    let value ← Decoder.int64
    let scriptPubKey ← Decoder.byteString
    return { value, scriptPubKey }

/-- The greatest amount that can exist: 21 million coins of 10⁸ units. -/
def maxMoney : Int := 21000000 * 100000000

/-- The amount is possible. -/
def TxOut.isValid (o : TxOut) : Bool :=
  0 ≤ o.value.toInt && o.value.toInt ≤ maxMoney

structure Transaction where
  version : Int32 := 1
  inputs : List TxIn := []
  outputs : List TxOut := []
  lockTime : UInt32 := 0
deriving DecidableEq, Inhabited

instance : Codec Transaction where
  encode t := Encode.int32 t.version ++ Codec.encode t.inputs ++ Codec.encode t.outputs
    ++ Encode.uint32 t.lockTime
  decode := do
    let version ← Decoder.int32
    let inputs ← Codec.decode
    let outputs ← Codec.decode
    let lockTime ← Decoder.uint32
    return { version, inputs, outputs, lockTime }

end BitcoinPeer
