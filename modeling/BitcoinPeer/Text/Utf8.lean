import BitcoinPeer.Bytes

/-!
# UTF-8 with replacement

`decodeLossy` reads any byte string as text: each longest run of bytes that begins a character but
does not complete it, and each byte that begins none, is read as one replacement character.
-/

namespace BitcoinPeer.Utf8

/-- What stands for bytes that are not UTF-8. -/
def replacement : Char := '\ufffd'

/-- The ranges in which the bytes after a leading byte must lie; `none` for a byte that leads no
character. -/
def followers (lead : UInt8) : Option (List (UInt8 × UInt8)) :=
  if lead < 0x80 then some []
  else if lead < 0xc2 then none
  else if lead < 0xe0 then some [(0x80, 0xbf)]
  else if lead = 0xe0 then some [(0xa0, 0xbf), (0x80, 0xbf)]
  else if lead = 0xed then some [(0x80, 0x9f), (0x80, 0xbf)]
  else if lead < 0xf0 then some [(0x80, 0xbf), (0x80, 0xbf)]
  else if lead = 0xf0 then some [(0x90, 0xbf), (0x80, 0xbf), (0x80, 0xbf)]
  else if lead < 0xf4 then some [(0x80, 0xbf), (0x80, 0xbf), (0x80, 0xbf)]
  else if lead = 0xf4 then some [(0x80, 0x8f), (0x80, 0xbf), (0x80, 0xbf)]
  else none

/-- The longest run at the front whose bytes lie in the given ranges, one after another. -/
def takeWithin : List (UInt8 × UInt8) → Bytes → Bytes
  | (low, high) :: ranges, b :: bs => if low ≤ b ∧ b ≤ high then b :: takeWithin ranges bs else []
  | _, _ => []

/-- The bits of the code point that a leading byte carries, for so many bytes after it. -/
def leadBits (count : Nat) (lead : UInt8) : Nat :=
  if count = 0 then lead.toNat else lead.toNat % (64 >>> count)

/-- Reads any byte string as text. -/
def decodeLossy : Bytes → List Char
  | [] => []
  | lead :: rest =>
    match followers lead with
    | none => replacement :: decodeLossy rest
    | some ranges =>
      let run := takeWithin ranges rest
      let value := run.foldl (fun v b => v * 64 + b.toNat % 64) (leadBits ranges.length lead)
      let c := if run.length = ranges.length then Char.ofNat value else replacement
      c :: decodeLossy (rest.drop run.length)
termination_by bs => bs.length
decreasing_by
  · simp
  · simp only [List.length_drop, List.length_cons]
    omega

end BitcoinPeer.Utf8
