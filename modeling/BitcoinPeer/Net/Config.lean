import BitcoinPeer.Net.Network
import BitcoinPeer.Peer.Association
import BitcoinPeer.Peer.Services

/-!
# Settings of a connection

How a connection to a peer is opened, with its JSON form, in which every setting may be left out.
-/

namespace BitcoinPeer

structure ConnectionConfig where
  network : Network := .regtest
  /-- The services that are announced. -/
  services : Services := Services.network
  /-- Whether to open with a version message. -/
  sendVersion : Bool := true
  /-- Takes the place of the usual user agent. -/
  userAgent : Option String := none
  /-- An association to join; no version message is sent then. -/
  associationId : Option AssociationId := none
  /-- Whether to announce no association id. -/
  nullAssociationId : Bool := false
  startHeight : Int32 := -1
deriving DecidableEq, Inhabited

namespace ConnectionConfig

/-- The usual settings on a network. -/
def forNetwork (network : Network) : ConnectionConfig :=
  { network }

def toJson (c : ConnectionConfig) : Json :=
  .obj [("network", c.network.toJson), ("services", c.services.toJson),
    ("send_version", .bool c.sendVersion), ("user_agent", c.userAgent.elim .null .str),
    ("association_id", c.associationId.elim .null AssociationId.toJson),
    ("null_association_id", .bool c.nullAssociationId), ("start_height", .int c.startHeight.toInt)]

/-- Reads a setting, which has its usual value if it is left out. -/
def setting {α : Type} (usual : α) (read : Json → Option α) : Option Json → Option α
  | none => some usual
  | some j => read j

def ofJson? (j : Json) : Option ConnectionConfig := do
  let names := ["network", "services", "send_version", "user_agent", "association_id",
    "null_association_id", "start_height"]
  match ← j.fields? names with
  | [network, services, sendVersion, userAgent, associationId, nullAssociationId, startHeight] =>
    return {
      network := ← setting .regtest Network.ofJson? network
      services := ← setting Services.network Services.ofJson? services
      sendVersion := ← setting true Json.bool? sendVersion
      userAgent := ← setting none (Json.optional? Json.text?) userAgent
      associationId := ← setting none (Json.optional? AssociationId.ofJson?) associationId
      nullAssociationId := ← setting false Json.bool? nullAssociationId
      startHeight :=
        ← setting (-1) (fun j => (j.intWithin? (-2147483648) 2147483647).map Int32.ofInt)
          startHeight }
  | _ => none

/-- Reads the text of settings. -/
def parse? (text : String) : Option ConnectionConfig := do
  ofJson? (← Json.parse? text)

end ConnectionConfig

end BitcoinPeer
