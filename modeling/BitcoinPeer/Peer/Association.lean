import BitcoinPeer.Codec.CompactSize
import BitcoinPeer.Text.Hex
import BitcoinPeer.Text.Json.Reader

/-!
# Associations and streams

Several streams between two peers belong together if they name the same association. On the wire
an association id is a byte string of a type byte and the 16 bytes of the id.
-/

namespace BitcoinPeer

/-- The id of an association. -/
structure AssociationId where
  octets : Octets 16
deriving DecidableEq, Inhabited

namespace AssociationId

/-- The type byte of an id of 16 bytes, the only one there is. -/
def kind : UInt8 := 0

/-- Reads a type byte and an id. -/
def ofBlob? : Bytes → Option AssociationId
  | [] => none
  | b :: rest => if b = kind then (Octets.ofBytes? 16 rest).map AssociationId.mk else none

def toBlob (id : AssociationId) : Bytes :=
  kind :: id.octets.bytes

/-- The byte string of an id, and nothing at all for none. -/
def encodeOptional : Option AssociationId → Bytes
  | none => []
  | some id => Encode.byteString id.toBlob

/-- Reads a byte string; one that is no id stands for none. -/
def decodeBlob : Decoder (Option AssociationId) := do
  return ofBlob? (← Decoder.byteString)

/-- Whether the id has the marks of a random one: the version four and the usual variant. -/
def isRandom (id : AssociationId) : Bool :=
  id.octets.bytes.getD 6 0 >>> 4 == 4 && id.octets.bytes.getD 8 0 >>> 6 == 2

/-- The id of the given bytes with the marks of a random one set. -/
def random (octets : Octets 16) : AssociationId :=
  let mark (i : Nat) (b : UInt8) : UInt8 :=
    if i = 6 then b &&& 0x0f ||| 0x40 else if i = 8 then b &&& 0x3f ||| 0x80 else b
  ⟨⟨octets.bytes.mapIdx mark, by rw [List.length_mapIdx, octets.length_bytes]⟩⟩

/-- Hexadecimal digits in groups of eight, four, four, four and twelve. -/
def toText (id : AssociationId) : String :=
  let h := Hex.encodeChars id.octets.bytes
  let part (start length : Nat) := String.ofList ((h.drop start).take length)
  "-".intercalate [part 0 8, part 8 4, part 12 4, part 16 4, part 20 12]

/-- The form in which an id shows itself as part of a larger value. -/
def inspect (id : AssociationId) : String :=
  "AssociationId(" ++ id.toText ++ ")"

/-- An id in JSON is the list of its bytes. -/
def toJson (id : AssociationId) : Json :=
  .arr (id.octets.bytes.map fun b => .int b.toNat)

def ofJson? (j : Json) : Option AssociationId := do
  let items ← j.array?
  let bs ← items.mapM fun item => (item.intWithin? 0 255).map fun n => UInt8.ofNat n.toNat
  return ⟨← Octets.ofBytes? 16 bs⟩

end AssociationId

/-- The kinds of stream that an association may have. -/
inductive StreamType where
  | unknown
  | general
  | data1
  | data2
  | data3
  | data4
deriving DecidableEq

namespace StreamType

def toUInt8 : StreamType → UInt8
  | unknown => 0
  | general => 1
  | data1 => 2
  | data2 => 3
  | data3 => 4
  | data4 => 5

def ofUInt8? (value : UInt8) : Option StreamType :=
  [unknown, general, data1, data2, data3, data4].find? fun t => t.toUInt8 == value

def name : StreamType → String
  | unknown => "Unknown"
  | general => "General"
  | data1 => "Data1"
  | data2 => "Data2"
  | data3 => "Data3"
  | data4 => "Data4"

end StreamType

end BitcoinPeer
