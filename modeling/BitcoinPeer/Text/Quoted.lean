import BitcoinPeer.Text.CharClass

/-!
# Quoted text

Text between quotation marks, with escapes for the characters that cannot be shown: tab, line
feed, carriage return and NUL have short escapes, the mark itself and the backslash are preceded by
a backslash, and every other hidden or extending character is written by its code point.
-/

namespace BitcoinPeer.Text

/-- A code point written by its number, in as few digits as it has. -/
def codePointEscape (c : Char) : List Char :=
  ['\\', 'u', '\x7b'] ++ Nat.toDigits 16 c.toNat ++ ['\x7d']

/-- One character as it stands between two marks of the given kind. -/
def escapeWithin (mark c : Char) : List Char :=
  if c = '\x00' then ['\\', '0']
  else if c = '\t' then ['\\', 't']
  else if c = '\r' then ['\\', 'r']
  else if c = '\n' then ['\\', 'n']
  else if c = '\\' ∨ c = mark then ['\\', c]
  else if isExtending c ∨ ¬isShown c then codePointEscape c
  else [c]

/-- A text between double quotation marks. -/
def quote (text : String) : String :=
  String.ofList ('"' :: text.toList.flatMap (escapeWithin '"') ++ ['"'])

/-- A single character between apostrophes. -/
def quoteChar (c : Char) : String :=
  String.ofList ('\'' :: escapeWithin '\'' c ++ ['\''])

end BitcoinPeer.Text
