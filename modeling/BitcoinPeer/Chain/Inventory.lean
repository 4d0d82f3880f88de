import BitcoinPeer.Chain.Transaction

/-!
# Inventories

Entries by which peers announce and ask for objects: the kind of object and its hash.
-/

namespace BitcoinPeer

/-- The kind of an object. -/
inductive InvType where
  | error
  | tx
  | block
  | compactBlock
  /-- Any other number. -/
  | other (value : Int32)
deriving DecidableEq

namespace InvType

def toInt32 : InvType → Int32
  | error => 0
  | tx => 1
  | block => 2
  | compactBlock => 4
  | other value => value

def ofInt32 (value : Int32) : InvType :=
  if value = 0 then error
  else if value = 1 then tx
  else if value = 2 then block
  else if value = 4 then compactBlock
  else other value

def toText : InvType → String
  | error => "Error"
  | tx => "TX"
  | block => "Block"
  | compactBlock => "CompactBlock"
  | other value => "Unknown(" ++ toString value.toInt ++ ")"

end InvType

/-- One object that is announced or asked for. -/
structure Inventory where
  invType : InvType
  hash : Hash256
deriving DecidableEq

namespace Inventory

def toText (i : Inventory) : String :=
  "Inventory(type=" ++ i.invType.toText ++ " hash=" ++ i.hash.toHex ++ ")"

instance : Codec Inventory where
  encode i := Encode.int32 i.invType.toInt32 ++ Codec.encode i.hash
  decode := do
    let invType ← Decoder.int32
    let hash ← Codec.decode
    return { invType := InvType.ofInt32 invType, hash }

/-- The bytes of one entry. -/
def size : Nat := 36

/-- How many entries fit a payload, with room left for their number. -/
def maxElements (payloadLength : Nat) : Nat :=
  (payloadLength - 8) / size

end Inventory

end BitcoinPeer
