import BitcoinPeer.Text.Blank
import BitcoinPeer.Text.Hex
import BitcoinPeer.Text.Json.Reader

/-!
# Services

The set of services that a node offers, one bit for each. Bits without a name are kept. As text, a
set is its names and the rest of its bits in hexadecimal, with bars between them.
-/

namespace BitcoinPeer

/-- A set of services, by its bits. -/
structure Services where
  bits : UInt64
deriving DecidableEq, Inhabited

namespace Services

/-- The named services, from the lowest bit on. -/
def names : List (String × UInt64) :=
  [("NETWORK", 1), ("GETUTXO", 2), ("BLOOM", 4), ("WITNESS", 8), ("XTHIN", 16),
    ("BITCOIN_CASH", 32)]

/-- No service at all. -/
def empty : Services := ⟨0⟩

/-- The service of a full node. -/
def network : Services := ⟨1⟩

/-- The named services in the set. -/
def named (s : Services) : List (String × UInt64) :=
  names.filter fun (_, bit) => s.bits &&& bit == bit

/-- The bits of the set that have no name. -/
def unnamed (s : Services) : UInt64 :=
  names.foldl (fun rest (_, bit) => rest &&& ~~~bit) s.bits

/-- The names, and then the unnamed bits if there are any; nothing for the empty set. -/
def toText (s : Services) : String :=
  let rest := if s.unnamed = 0 then [] else ["0x" ++ Hex.ofNat 1 s.unnamed.toNat]
  " | ".intercalate (s.named.map Prod.fst ++ rest)

/-- The form in which a set shows itself as part of a larger value. -/
def inspect (s : Services) : String :=
  "ServiceFlags(" ++ (if s.bits = 0 then "0x0" else s.toText) ++ ")"

/-- The value of hexadecimal digits that fits 64 bits; a plus sign may stand in front. -/
def hexBits? (digits : List Char) : Option UInt64 := do
  let digits :=
    match digits with
    | '+' :: rest => rest
    | _ => digits
  if digits.isEmpty then failure
  let value ← digits.foldlM (fun n c => (Json.hexDigit? c).map (n * 16 + ·)) 0
  if value < UInt64.size then return UInt64.ofNat value else failure

/-- Reads one name, or bits in hexadecimal. -/
def part? (part : List Char) : Option UInt64 :=
  match Text.trim part with
  | '0' :: 'x' :: digits => hexBits? digits
  | name => names.lookup (String.ofList name)

/-- Reads a set from its text. Blanks around the bars do not matter, and neither does a repeated
name. -/
def ofText? (text : String) : Option Services :=
  let cs := text.toList
  if (Text.trim cs).isEmpty then some empty
  else do
    let parts ← (Text.splitAt '|' cs).mapM part?
    return ⟨parts.foldl (· ||| ·) 0⟩

def toJson (s : Services) : Json :=
  .str s.toText

def ofJson? (j : Json) : Option Services := do
  ofText? (← j.text?)

end Services

end BitcoinPeer
