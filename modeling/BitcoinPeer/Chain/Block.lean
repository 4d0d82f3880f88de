import BitcoinPeer.Chain.Transaction

/-!
# Blocks

Block headers, blocks and block locators, with their encodings.
-/

namespace BitcoinPeer

structure BlockHeader where
  version : Int32 := 1
  prevBlock : Hash256 := Hash256.zero
  merkleRoot : Hash256 := Hash256.zero
  /-- Seconds since the start of 1970. -/
  time : UInt32 := 0
  /-- The proof-of-work target in its compact form. -/
  bits : UInt32 := 0
  nonce : UInt32 := 0
deriving DecidableEq, Inhabited

instance : Codec BlockHeader where
  encode h := Encode.int32 h.version ++ Codec.encode h.prevBlock ++ Codec.encode h.merkleRoot
    ++ Encode.uint32 h.time ++ Encode.uint32 h.bits ++ Encode.uint32 h.nonce
  decode := do
    let version ← Decoder.int32
    let prevBlock ← Codec.decode
    let merkleRoot ← Codec.decode
    let time ← Decoder.uint32
    let bits ← Decoder.uint32
    let nonce ← Decoder.uint32
    return { version, prevBlock, merkleRoot, time, bits, nonce }

/-- A header and its transactions in order. -/
structure Block where
  header : BlockHeader := {}
  txs : List Transaction := []
deriving DecidableEq, Inhabited

instance : Codec Block where
  encode b := Codec.encode b.header ++ Codec.encode b.txs
  decode := do
    let header ← Codec.decode
    let txs ← Codec.decode
    return { header, txs }

/-- The protocol version that is announced. -/
def protocolVersion : Int32 := 70015

/-- A sparse list of known block hashes, the newest first. -/
structure BlockLocator where
  version : Int32 := protocolVersion
  known : List Hash256 := []
deriving DecidableEq, Inhabited

instance : Codec BlockLocator where
  encode l := Encode.int32 l.version ++ Codec.encode l.known
  decode := do
    let version ← Decoder.int32
    let known ← Codec.decode
    return { version, known }

end BitcoinPeer
