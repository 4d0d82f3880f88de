import BitcoinPeer.Chain.Summary
import BitcoinPeer.Net.Registry
import BitcoinPeer.Storage.BlockFile

/-!
# Commands

What the commands of the program do and print: building and checking inclusion proofs, showing a
block of a block file, and shaking hands with a peer.
-/

namespace BitcoinPeer.Command

open Merkle (InclusionProof ProofError)

/-- Why a command fails. -/
inductive Failure where
  | proof (e : ProofError)
  | storage (e : StorageError)
  | connection (e : ConnectionError)
  /-- The text is not the JSON form of a proof. -/
  | unreadable
  /-- The proof is readable but does not hold. -/
  | refuted
deriving DecidableEq

/-- The wording of a failure. -/
def Failure.message : Failure → String
  | proof e => e.message
  | storage e => e.message
  | connection e => e.message
  | unreadable => "not an inclusion proof in JSON"
  | refuted => "proof does not reach the stated merkle root"

/-- What a command printed, and how it ended. -/
structure Outcome where
  printed : String
  result : Except Failure Unit

def Outcome.success (lines : List String) : Outcome :=
  { printed := String.join (lines.map (· ++ "\n")), result := .ok () }

def Outcome.failure (f : Failure) : Outcome :=
  { printed := "", result := .error f }

/-! ## Proofs -/

def parseHash (text : String) : Except ProofError Hash256 :=
  match Hash256.ofHex text with
  | .ok h => .ok h
  | .error _ => .error .invalidHex

/-- Builds the proof for `tx` among the transactions of a block, all given by their texts. Without a
block its hash is zero. -/
def buildProof (block : Option String) (tx : String) (txs : List String) :
    Except ProofError InclusionProof := do
  let blockHash ← block.elim (.ok Hash256.zero) parseHash
  let txHash ← parseHash tx
  let hashes ← txs.mapM parseHash
  InclusionProof.build blockHash txHash hashes

def proof (block : Option String) (tx : String) (txs : List String) : Outcome :=
  match buildProof block tx txs with
  | .ok p => .success [p.toJson.pretty]
  | .error e => .failure (.proof e)

/-- Whether the proof with this text holds. -/
def verifyProofText (text : String) : Except Failure Bool :=
  match InclusionProof.parse? text with
  | some p => .ok p.verify
  | none => .error .unreadable

def verifyProof (text : String) : Outcome :=
  match verifyProofText text with
  | .ok true => .success ["✅ Proof is valid"]
  | .ok false => .failure .refuted
  | .error e => .failure e

/-! ## Blocks -/

/-- The report on the block at an offset, its members in the order of their names. -/
def blockReport (file : BlockFile) (offset : Nat) : Except StorageError Json :=
  (file.load offset).map fun b => b.report.sorted

def loadBlock (file : BlockFile) (offset : Nat) : Outcome :=
  match blockReport file offset with
  | .ok report => .success [report.pretty]
  | .error e => .failure (.storage e)

/-! ## Peers -/

/-- The address of a peer; without a port it is the network's. -/
def resolvePeer (host : String) (port : Option UInt16) (network : Network) :
    Option SocketAddress :=
  (IpAddress.ofText? host).map fun ip => { ip, port := port.getD network.defaultPort }

/-- What is shown of a peer's version message. -/
def versionLines (v : VersionMessage) : List String :=
  ["   ├─ Version: " ++ toString v.version.toInt,
    "   ├─ Services: " ++ v.services.inspect,
    "   ├─ User agent: " ++ v.userAgent.getD "-",
    "   ├─ Start height: " ++ v.startHeight.elim "-" fun h => toString h.toInt,
    "   └─ Relay: " ++ toString v.relay]

/-- What is shown of a peer after the handshake. -/
def peerLines (peer : String) (network : Network) (s : Session) : List String :=
  let announced :=
    match s.tracker.latest? "version" with
    | some (.version v) => versionLines v
    | _ => []
  ("🤝 Connected to " ++ peer ++ " (" ++ network.name ++ ")") :: announced
    ++ ["   Negotiated wire version: send " ++ toString s.conn.codec.sendVersion.toInt
        ++ " / recv " ++ toString s.conn.codec.recvVersion.toInt]

/-- Shakes hands with a peer, shows what it announced and hangs up. `reached` says whether the
transport got through to it; `wait` runs the loop until what is awaited has come or the time is up,
and says what has become of the registry. -/
def connect {m : Type → Type} [Monad m] (reached : Except String Unit) (peer : SocketAddress)
    (network : Network) (fresh : Freshness) (now : Instant)
    (wait : Nat → Session.Awaited → Registry → m Registry) : m Outcome := do
  match Registry.connect reached peer (.forNetwork network) .usual fresh now {} with
  | .error e => return .failure (.connection e)
  | .ok (id, r) =>
    let r ← wait id .verack r
    match r.check id .verack with
    | .error e => return .failure (.connection e)
    | .ok () =>
      let handle : SessionHandle := { id }
      match r.act id (Session.sendPing now handle) with
      | (.error e, _) => return .failure (.connection e)
      | (.ok (), r) =>
        let r ← wait id (.pong handle.pingCounter) r
        match r.check id (.pong handle.pingCounter) with
        | .error e => return .failure (.connection e)
        | .ok () =>
          let shown := (r.session? id).elim [] (peerLines peer.toText network)
          let r ← wait id .disconnect (r.update id Session.disconnect)
          return {
            printed := String.join (shown.map (· ++ "\n"))
            result := (r.check id .disconnect).mapError .connection }

end BitcoinPeer.Command
