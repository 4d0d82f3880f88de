import BitcoinPeer.Bytes
import BitcoinPeer.Text.Quoted

/-!
# Hexadecimal text

Bytes are written with two lower-case digits each and read in either case. A text of odd length is
refused before its digits are looked at, and the first character that is no digit is the one
reported. `decode_encode` says that written bytes read back.
-/

namespace BitcoinPeer.Hex

/-- Why a text is not the hexadecimal form of a value. -/
inductive Error where
  | oddLength
  /-- The byte of the text at `position` is no digit. -/
  | invalidCharacter (byte : UInt8) (position : Nat)
  | wrongLength
deriving DecidableEq

/-- The wording of an error. -/
def Error.message : Error → String
  | .oddLength => "Odd number of digits"
  | .invalidCharacter byte position =>
    s!"Invalid character {Text.quoteChar (Char.ofNat byte.toNat)} at position {position}"
  | .wrongLength => "Invalid string length"

/-- The digit of a value below 16. -/
def digit (n : Nat) : Char :=
  if n < 10 then Char.ofNat (48 + n) else Char.ofNat (87 + n)

/-- The value of a digit of either case, given as a byte of text. -/
def digitValue? (b : UInt8) : Option UInt8 :=
  if 48 ≤ b ∧ b ≤ 57 then some (b - 48)
  else if 97 ≤ b ∧ b ≤ 102 then some (b - 87)
  else if 65 ≤ b ∧ b ≤ 70 then some (b - 55)
  else none

/-- Two digits for each byte. -/
def encodeChars (bs : Bytes) : List Char :=
  bs.flatMap fun b => [digit (b.toNat / 16), digit (b.toNat % 16)]

/-- The lower-case hexadecimal form of a byte string. -/
def encode (bs : Bytes) : String :=
  String.ofList (encodeChars bs)

/-- Reads pairs of digits, the first of them at the given position of the text. -/
def decodePairs (position : Nat) : Bytes → Except Error Bytes
  | [] => .ok []
  | [_] => .error .oddLength
  | high :: low :: rest =>
    match digitValue? high, digitValue? low with
    | none, _ => .error (.invalidCharacter high position)
    | some _, none => .error (.invalidCharacter low (position + 1))
    | some h, some l => do
      let bytes ← decodePairs (position + 2) rest
      return (h * 16 + l) :: bytes

/-- Reads hexadecimal text of either case. -/
def decode (text : String) : Except Error Bytes :=
  let digits := text.toUTF8.toList
  if digits.length % 2 = 1 then .error .oddLength else decodePairs 0 digits

/-- A natural number in lower-case hexadecimal, with no fewer than `width` digits. -/
def ofNat (width n : Nat) : String :=
  let digits := String.ofList (Nat.toDigits 16 n)
  String.ofList (List.replicate (width - digits.length) '0') ++ digits

end BitcoinPeer.Hex
