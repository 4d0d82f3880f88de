import BitcoinPeer.Chain.CompactBlock
import BitcoinPeer.Chain.Inventory
import BitcoinPeer.Chain.MerkleBlock
import BitcoinPeer.Message.Alert
import BitcoinPeer.Message.Protoconf
import BitcoinPeer.Message.Reject
import BitcoinPeer.Message.Stream
import BitcoinPeer.Message.Version

/-!
# Messages

Everything that peers say to each other. Each message has a command, by which it is named on the
wire, and a payload; `Message.decodePayload` reads a payload by its command.
-/

namespace BitcoinPeer

/-- Asks for blocks or headers after the last known one. -/
structure LocatorRequest where
  locator : BlockLocator := {}
  /-- Where to stop; zero asks for as many as there are. -/
  hashStop : Hash256 := Hash256.zero
deriving DecidableEq

instance : Codec LocatorRequest where
  encode r := Codec.encode r.locator ++ Codec.encode r.hashStop
  decode := do
    let locator ← Codec.decode
    let hashStop ← Codec.decode
    return { locator, hashStop }

inductive Message where
  | version (m : VersionMessage)
  | verack
  | protoconf (p : Protoconf)
  | createStream (c : CreateStream)
  | streamAck (a : StreamAck)
  | addr (addresses : List SeenAddress)
  | alert (a : Alert)
  | inv (entries : List Inventory)
  | getData (entries : List Inventory)
  | notFound (entries : List Inventory)
  | getBlocks (r : LocatorRequest)
  | getHeaders (r : LocatorRequest)
  | tx (t : Transaction)
  | block (b : Block)
  | headers (hs : List BlockHeader)
  | getAddr
  | mempool
  /-- Without a nonce for peers that know none. -/
  | ping (nonce : Option UInt64)
  | pong (nonce : UInt64)
  | reject (r : Reject)
  | feeFilter (rate : UInt64)
  | sendHeaders
  | sendCompact (announce : Bool) (scheme : UInt64)
  | compactBlock (c : CompactBlock)
  | getBlockTxn (r : BlockTransactionsRequest)
  | blockTxn (b : BlockTransactions)
  | merkleBlock (m : MerkleBlock)
deriving DecidableEq

namespace Message

/-- Every command that is known. -/
def commands : List String :=
  ["version", "verack", "protoconf", "createstrm", "streamack", "addr", "alert", "inv", "getdata",
    "notfound", "getblocks", "getheaders", "tx", "block", "headers", "getaddr", "mempool", "ping",
    "pong", "reject", "feefilter", "sendheaders", "sendcmpct", "cmpctblock", "getblocktxn",
    "blocktxn", "merkleblock"]

/-- The command of a message. -/
def command : Message → String
  | version _ => "version"
  | verack => "verack"
  | protoconf _ => "protoconf"
  | createStream _ => "createstrm"
  | streamAck _ => "streamack"
  | addr _ => "addr"
  | alert _ => "alert"
  | inv _ => "inv"
  | getData _ => "getdata"
  | notFound _ => "notfound"
  | getBlocks _ => "getblocks"
  | getHeaders _ => "getheaders"
  | tx _ => "tx"
  | block _ => "block"
  | headers _ => "headers"
  | getAddr => "getaddr"
  | mempool => "mempool"
  | ping _ => "ping"
  | pong _ => "pong"
  | reject _ => "reject"
  | feeFilter _ => "feefilter"
  | sendHeaders => "sendheaders"
  | sendCompact _ _ => "sendcmpct"
  | compactBlock _ => "cmpctblock"
  | getBlockTxn _ => "getblocktxn"
  | blockTxn _ => "blocktxn"
  | merkleBlock _ => "merkleblock"

def isKnownCommand (command : String) : Bool :=
  commands.contains command

/-- The payload of a message. A header travels as a block without transactions. -/
def encodePayload : Message → Bytes
  | version m => Codec.encode m
  | protoconf p => Codec.encode p
  | createStream c => Codec.encode c
  | streamAck a => Codec.encode a
  | addr addresses => Codec.encode addresses
  | alert a => Codec.encode a
  | inv entries | getData entries | notFound entries => Codec.encode entries
  | getBlocks r | getHeaders r => Codec.encode r
  | tx t => Codec.encode t
  | block b => Codec.encode b
  | headers hs => Codec.encode (hs.map fun header => { header : Block })
  | ping nonce => nonce.elim [] Encode.uint64
  | pong nonce => Encode.uint64 nonce
  | reject r => Codec.encode r
  | feeFilter rate => Encode.uint64 rate
  | sendCompact announce scheme => Encode.bool announce ++ Encode.uint64 scheme
  | compactBlock c => Codec.encode c
  | getBlockTxn r => Codec.encode r
  | blockTxn b => Codec.encode b
  | merkleBlock m => Codec.encode m
  | verack | getAddr | mempool | sendHeaders => []

/-- Reads the payload of a command; `none` for a command that is not known. A ping has no nonce if
`legacyPing` is set. -/
def decoder (legacyPing : Bool) (command : String) : Option (Decoder Message) :=
  match command with
  | "version" => some (version <$> Codec.decode)
  | "verack" => some (pure verack)
  | "protoconf" => some (protoconf <$> Codec.decode)
  | "createstrm" => some (createStream <$> Codec.decode)
  | "streamack" => some (streamAck <$> Codec.decode)
  | "addr" => some (addr <$> Codec.decode)
  | "alert" => some (alert <$> Codec.decode)
  | "inv" => some (inv <$> Codec.decode)
  | "getdata" => some (getData <$> Codec.decode)
  | "notfound" => some (notFound <$> Codec.decode)
  | "getblocks" => some (getBlocks <$> Codec.decode)
  | "getheaders" => some (getHeaders <$> Codec.decode)
  | "tx" => some (tx <$> Codec.decode)
  | "block" => some (block <$> Codec.decode)
  | "headers" => some ((fun bs : List Block => headers (bs.map Block.header)) <$> Codec.decode)
  | "getaddr" => some (pure getAddr)
  | "mempool" => some (pure mempool)
  | "ping" => some (if legacyPing then pure (ping none) else (ping ∘ some) <$> Decoder.uint64)
  | "pong" => some (pong <$> Decoder.uint64)
  | "reject" => some (reject <$> Codec.decode)
  | "feefilter" => some (feeFilter <$> Decoder.uint64)
  | "sendheaders" => some (pure sendHeaders)
  | "sendcmpct" => some do
    let announce ← Decoder.bool
    let scheme ← Decoder.uint64
    return sendCompact announce scheme
  | "cmpctblock" => some (compactBlock <$> Codec.decode)
  | "getblocktxn" => some (getBlockTxn <$> Codec.decode)
  | "blocktxn" => some (blockTxn <$> Codec.decode)
  | "merkleblock" => some (merkleBlock <$> Codec.decode)
  | _ => none

/-- Reads a payload by its command; `none` for a command that is not known. Bytes that are left
over do not matter. -/
def decodePayload (legacyPing : Bool) (command : String) (payload : Bytes) :
    Except DecodeError (Option Message) :=
  match decoder legacyPing command with
  | none => .ok none
  | some d => (d.front payload).map some

end Message

end BitcoinPeer
