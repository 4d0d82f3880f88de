import BitcoinPeer.Text.Json.Reader
import BitcoinPeer.Bytes

/-!
# Networks

The networks that nodes form, each with the bytes that open its frames and the port its nodes use.
-/

namespace BitcoinPeer

inductive Network where
  | mainnet
  | testnet3
  | stn
  | regtest
deriving DecidableEq, Inhabited

namespace Network

def all : List Network := [mainnet, testnet3, stn, regtest]

/-- The four bytes in front of every frame. -/
def magic : Network → Bytes
  | mainnet => [0xe3, 0xe1, 0xf3, 0xe8]
  | testnet3 => [0xf4, 0xe5, 0xf3, 0xf4]
  | stn => [0xfb, 0xce, 0xc4, 0xf9]
  | regtest => [0xda, 0xb5, 0xbf, 0xfa]

def defaultPort : Network → UInt16
  | mainnet => 8333
  | testnet3 => 18333
  | stn => 9333
  | regtest => 18444

def name : Network → String
  | mainnet => "mainnet"
  | testnet3 => "testnet3"
  | stn => "stn"
  | regtest => "regtest"

/-- The letters A to Z in lower case, everything else as it is. -/
def lowerCase (text : String) : String :=
  String.ofList (text.toList.map Char.toLower)

/-- Reads a name in any case; the two public networks have a short name besides. The text of an
error is its wording. -/
def ofText (text : String) : Except String Network :=
  let lower := lowerCase text
  if lower = "main" then .ok mainnet
  else if lower = "testnet" then .ok testnet3
  else
    match all.find? fun n => n.name == lower with
    | some n => .ok n
    | none => .error ("Unknown network: " ++ lower)

def toJson (n : Network) : Json :=
  .str n.name

/-- Reads the full name in lower case. -/
def ofJson? (j : Json) : Option Network := do
  let tag ← j.tag?
  all.find? fun n => n.name == tag

theorem magic_length (n : Network) : n.magic.length = 4 := by
  cases n <;> rfl

end Network

end BitcoinPeer
