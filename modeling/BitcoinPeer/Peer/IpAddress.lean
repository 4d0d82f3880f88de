import BitcoinPeer.Codec.Decoder
import BitcoinPeer.Text.Blank
import BitcoinPeer.Text.Hex
import BitcoinPeer.Text.Json.Reader

/-!
# IP addresses

Addresses of both families, their text, and their form of 16 bytes on the wire, in which the
addresses of the older family are mapped into the newer one.
-/

namespace BitcoinPeer

inductive IpAddress where
  | v4 (octets : Octets 4)
  | v6 (octets : Octets 16)
deriving DecidableEq

namespace IpAddress

/-- The twelve bytes in front of an address that is mapped into the newer family. -/
def mappedLead : Bytes :=
  Bytes.zeros 10 ++ [0xff, 0xff]

/-- An address of the older family, mapped into the newer one. -/
def toMapped (octets : Octets 4) : Octets 16 :=
  ⟨mappedLead ++ octets.bytes, by simp [mappedLead, octets.length_bytes]⟩

/-- The address that is mapped, if one is. -/
def ofMapped? (octets : Octets 16) : Option (Octets 4) :=
  if octets.bytes.take 12 = mappedLead then Octets.ofBytes? 4 (octets.bytes.drop 12) else none

/-- The 16 bytes of an address. -/
def toOctets16 : IpAddress → Octets 16
  | v4 octets => toMapped octets
  | v6 octets => octets

/-- The address that 16 bytes stand for: a mapped one is of the older family. -/
def ofOctets16 (octets : Octets 16) : IpAddress :=
  match ofMapped? octets with
  | some mapped => v4 mapped
  | none => v6 octets

instance : Codec IpAddress where
  encode ip := ip.toOctets16.bytes
  decode := do return ofOctets16 (← Decoder.octets 16)

/-- Every address. -/
def unspecified : IpAddress := v4 (Octets.zero 4)

/-! ## Text -/

/-- Four numbers between points. -/
def dotted (bs : Bytes) : String :=
  ".".intercalate (bs.map fun b => toString b.toNat)

/-- Numbers of two bytes each. -/
def groups : Bytes → List Nat
  | a :: b :: rest => (a.toNat * 256 + b.toNat) :: groups rest
  | _ => []

/-- The number of zeros in front. -/
def zeroRun (gs : List Nat) : Nat :=
  (gs.takeWhile (· == 0)).length

/-- The start and the length of the longest run of zeros, the first of several. -/
def longestZeroRun (gs : List Nat) : Nat × Nat :=
  (List.range gs.length).foldl
    (fun best start =>
      let run := zeroRun (gs.drop start)
      if best.2 < run then (start, run) else best)
    (0, 0)

def groupText (gs : List Nat) : String :=
  ":".intercalate (gs.map (Hex.ofNat 1))

/-- Groups between colons, the longest run of two or more zero groups left out. -/
def colons (gs : List Nat) : String :=
  let (start, run) := longestZeroRun gs
  if run ≤ 1 then groupText gs
  else groupText (gs.take start) ++ "::" ++ groupText (gs.drop (start + run))

/-- The text of an address; a mapped one ends in the dotted form. -/
def toText : IpAddress → String
  | v4 octets => dotted octets.bytes
  | v6 octets =>
    match ofMapped? octets with
    | some mapped => "::ffff:" ++ dotted mapped.bytes
    | none => colons (groups octets.bytes)

/-- A number between points: up to three digits, no zero in front of others, at most 255. -/
def dottedPart? (part : List Char) : Option UInt8 :=
  if part.isEmpty ∨ 3 < part.length ∨ !part.all Char.isDigit
      ∨ (1 < part.length ∧ part.head? = some '0') then none
  else
    let n := Json.decimal part
    if n < 256 then some (UInt8.ofNat n) else none

def ofDotted? (cs : List Char) : Option (Octets 4) := do
  Octets.ofBytes? 4 (← (Text.splitAt '.' cs).mapM dottedPart?)

/-- A group of one to four hexadecimal digits, as two bytes. -/
def groupPart? (part : List Char) : Option Bytes := do
  if part.isEmpty ∨ 4 < part.length then failure
  let n ← part.foldlM (fun n c => (Json.hexDigit? c).map (n * 16 + ·)) 0
  return Bytes.ofNatBE 2 n

/-- The bytes of groups between colons, of which the last may be in the dotted form. -/
def groupBytes? (parts : List (List Char)) : Option Bytes :=
  match parts with
  | [] => some []
  | [last] =>
    if last.contains '.' then (ofDotted? last).map Octets.bytes else groupPart? last
  | part :: parts => do
    let front ← groupPart? part
    let back ← groupBytes? parts
    return front ++ back

/-- Splits a text at the first two colons that stand side by side. -/
def splitAtGap : List Char → Option (List Char × List Char)
  | ':' :: ':' :: rest => some ([], rest)
  | c :: cs => (splitAtGap cs).map fun (front, back) => (c :: front, back)
  | [] => none

def colonParts (cs : List Char) : List (List Char) :=
  if cs.isEmpty then [] else Text.splitAt ':' cs

def ofColons? (cs : List Char) : Option (Octets 16) := do
  match splitAtGap cs with
  | none => Octets.ofBytes? 16 (← groupBytes? (colonParts cs))
  | some (front, back) =>
    if front.contains '.' then failure
    let front ← groupBytes? (colonParts front)
    let back ← groupBytes? (colonParts back)
    if 14 < front.length + back.length then failure
    Octets.ofBytes? 16 (front ++ Bytes.zeros (16 - front.length - back.length) ++ back)

/-- Reads the text of an address. -/
def ofText? (text : String) : Option IpAddress :=
  match ofDotted? text.toList with
  | some octets => some (v4 octets)
  | none => (ofColons? text.toList).map v6

end IpAddress

/-- An address and a port. -/
structure SocketAddress where
  ip : IpAddress
  port : UInt16
  /-- The interface for which an address of the newer family is meant, zero for any. -/
  scope : UInt32 := 0
deriving DecidableEq

namespace SocketAddress

/-- The address and the port. An address of the newer family stands in brackets, with its scope if
it has one. -/
def toText (a : SocketAddress) : String :=
  match a.ip with
  | .v4 _ => a.ip.toText ++ ":" ++ toString a.port
  | .v6 _ =>
    let scope := if a.scope = 0 then "" else "%" ++ toString a.scope
    "[" ++ a.ip.toText ++ scope ++ "]:" ++ toString a.port

/-- Decimal digits for a number below a bound. -/
def number? (bound : Nat) (cs : List Char) : Option Nat :=
  if cs.isEmpty ∨ !cs.all Char.isDigit then none
  else
    let n := Json.decimal cs
    if n < bound then some n else none

def port? (cs : List Char) : Option UInt16 :=
  (number? UInt16.size cs).map UInt16.ofNat

/-- What stands in brackets: an address, and its scope after a percent sign. -/
def ofBracketed? (cs : List Char) (port : UInt16) : Option SocketAddress := do
  let ip ← IpAddress.ofColons? (cs.takeWhile (· != '%'))
  match cs.dropWhile (· != '%') with
  | [] => return { ip := .v6 ip, port }
  | _ :: scope => return { ip := .v6 ip, port, scope := UInt32.ofNat (← number? UInt32.size scope) }

/-- Reads the text of an address with its port. -/
def ofText? (text : String) : Option SocketAddress := do
  match text.toList with
  | '[' :: cs =>
    match cs.dropWhile (· != ']') with
    | ']' :: ':' :: port => ofBracketed? (cs.takeWhile (· != ']')) (← port? port)
    | _ => failure
  | cs =>
    let ip ← IpAddress.ofDotted? (cs.takeWhile (· != ':'))
    match cs.dropWhile (· != ':') with
    | ':' :: port => return { ip := .v4 ip, port := ← port? port }
    | _ => failure

end SocketAddress

end BitcoinPeer
