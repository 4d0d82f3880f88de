import BitcoinPeer.Text.Json

/-!
# Reading JSON

`Json.parse?` reads one value and refuses anything but blanks after it. Numbers keep the
difference between integers and all others; strings keep the difference between text and
sequences of escapes that are none, because a value of a name nobody asks for may hold either.
-/

namespace BitcoinPeer.Json

/-- The characters allowed between any two parts of a text. -/
def isBlank (c : Char) : Bool :=
  c = ' ' || c = '\n' || c = '\t' || c = '\r'

def skipBlanks (cs : List Char) : List Char :=
  cs.dropWhile isBlank

/-- The value of a hexadecimal digit of either case. -/
def hexDigit? (c : Char) : Option Nat :=
  if '0' ≤ c ∧ c ≤ '9' then some (c.toNat - 48)
  else if 'a' ≤ c ∧ c ≤ 'f' then some (c.toNat - 87)
  else if 'A' ≤ c ∧ c ≤ 'F' then some (c.toNat - 55)
  else none

/-- What a string is written in: characters, and escapes that give a UTF-16 unit. -/
inductive Piece where
  | char (c : Char)
  | unit (value : Nat)

/-- The value of four hexadecimal digits. -/
def unit? (a b c d : Char) : Option Nat := do
  let a ← hexDigit? a
  let b ← hexDigit? b
  let c ← hexDigit? c
  let d ← hexDigit? d
  return ((a * 16 + b) * 16 + c) * 16 + d

/-- The character of a one-letter escape. -/
def shortEscape? (c : Char) : Option Char :=
  if c = '"' ∨ c = '\\' ∨ c = '/' then some c
  else if c = 'b' then some '\x08'
  else if c = 'f' then some '\x0c'
  else if c = 'n' then some '\n'
  else if c = 'r' then some '\r'
  else if c = 't' then some '\t'
  else none

/-- Reads up to the closing quotation mark. -/
def pieces : List Char → Option (List Piece × List Char)
  | [] => none
  | '"' :: rest => some ([], rest)
  | '\\' :: 'u' :: a :: b :: c :: d :: rest => do
    let value ← unit? a b c d
    let (ps, rest) ← pieces rest
    return (.unit value :: ps, rest)
  | '\\' :: e :: rest => do
    let c ← shortEscape? e
    let (ps, rest) ← pieces rest
    return (.char c :: ps, rest)
  | c :: rest =>
    if c.toNat < 32 then none
    else do
      let (ps, rest) ← pieces rest
      return (.char c :: ps, rest)

/-- The text of a string's pieces: two units that form a surrogate pair are one character, and
half of a pair is no text. -/
def pieceText? : List Piece → Option (List Char)
  | [] => some []
  | .char c :: ps => (pieceText? ps).map (c :: ·)
  | .unit high :: ps =>
    if 0xd800 ≤ high ∧ high < 0xdc00 then
      match ps with
      | .unit low :: ps =>
        if 0xdc00 ≤ low ∧ low < 0xe000 then
          (pieceText? ps).map (Char.ofNat (0x10000 + (high - 0xd800) * 0x400 + (low - 0xdc00)) :: ·)
        else none
      | _ => none
    else if 0xdc00 ≤ high ∧ high < 0xe000 then none
    else (pieceText? ps).map (Char.ofNat high :: ·)

/-- Reads a string after its opening quotation mark; `none` in place of a text that is none. -/
def string? (cs : List Char) : Option (Option String × List Char) :=
  (pieces cs).map fun (ps, rest) => ((pieceText? ps).map String.ofList, rest)

/-- The longest run of digits, and what follows it. -/
def digits (cs : List Char) : List Char × List Char :=
  (cs.takeWhile Char.isDigit, cs.dropWhile Char.isDigit)

/-- The part of a number after its point, if it has one. -/
def fraction? : List Char → Option (List Char × List Char)
  | '.' :: cs =>
    let (run, rest) := digits cs
    if run.isEmpty then none else some ('.' :: run, rest)
  | cs => some ([], cs)

/-- The exponent of a number, if it has one. -/
def exponent? : List Char → Option (List Char × List Char)
  | [] => some ([], [])
  | e :: cs =>
    if e = 'e' ∨ e = 'E' then
      let (sign, cs) :=
        match cs with
        | '+' :: cs => (['+'], cs)
        | '-' :: cs => (['-'], cs)
        | cs => ([], cs)
      let (run, rest) := digits cs
      if run.isEmpty then none else some (e :: sign ++ run, rest)
    else some ([], e :: cs)

/-- The value of a run of decimal digits. -/
def decimal (run : List Char) : Nat :=
  run.foldl (fun n c => n * 10 + (c.toNat - 48)) 0

/-- Reads a number. A zero in front stands alone. -/
def number? (cs : List Char) : Option (Json × List Char) := do
  let (negative, body) :=
    match cs with
    | '-' :: cs => (true, cs)
    | cs => (false, cs)
  let (run, rest) := digits body
  if run.isEmpty || (run.head? == some '0' && 1 < run.length) then none
  let (fraction, rest) ← fraction? rest
  let (exponent, rest) ← exponent? rest
  let n := decimal run
  if fraction.isEmpty && exponent.isEmpty && !(negative && n == 0) then
    return (.int (if negative then -(n : Int) else n), rest)
  else
    return (.real ((if negative then ['-'] else []) ++ run ++ fraction ++ exponent), rest)

/-- The object with these members, in which a name that is no text spoils the whole. -/
def ofMembers (members : List (Option String × Json)) : Json :=
  match members.mapM fun (name, j) => name.map (·, j) with
  | some members => .obj members
  | none => .broken

mutual

/-- Reads one value, nested to no more than half of the given depth. -/
def value? : Nat → List Char → Option (Json × List Char)
  | 0, _ => none
  | depth + 1, cs =>
    match skipBlanks cs with
    | 'n' :: 'u' :: 'l' :: 'l' :: rest => some (.null, rest)
    | 't' :: 'r' :: 'u' :: 'e' :: rest => some (.bool true, rest)
    | 'f' :: 'a' :: 'l' :: 's' :: 'e' :: rest => some (.bool false, rest)
    | '"' :: rest => (string? rest).map fun (text, rest) => ((text.map .str).getD .broken, rest)
    | '[' :: rest =>
      match skipBlanks rest with
      | ']' :: rest => some (.arr [], rest)
      | rest => (items? depth rest).map fun (js, rest) => (.arr js, rest)
    | '\x7b' :: rest =>
      match skipBlanks rest with
      | '\x7d' :: rest => some (.obj [], rest)
      | rest => (members? depth rest).map fun (ms, rest) => (ofMembers ms, rest)
    | rest => number? rest

/-- Reads items up to the closing bracket. -/
def items? : Nat → List Char → Option (List Json × List Char)
  | 0, _ => none
  | depth + 1, cs => do
    let (j, rest) ← value? depth cs
    match skipBlanks rest with
    | ',' :: rest =>
      let (js, rest) ← items? depth rest
      return (j :: js, rest)
    | ']' :: rest => return ([j], rest)
    | _ => none

/-- Reads members up to the closing brace. -/
def members? : Nat → List Char → Option (List (Option String × Json) × List Char)
  | 0, _ => none
  | depth + 1, cs =>
    match skipBlanks cs with
    | '"' :: rest => do
      let (name, rest) ← string? rest
      match skipBlanks rest with
      | ':' :: rest =>
        let (j, rest) ← value? depth rest
        match skipBlanks rest with
        | ',' :: rest =>
          let (ms, rest) ← members? depth rest
          return ((name, j) :: ms, rest)
        | '\x7d' :: rest => return ([(name, j)], rest)
        | _ => none
      | _ => none
    | _ => none

end

/-- Reads a text that is one value and nothing else. -/
def parse? (text : String) : Option Json :=
  let cs := text.toList
  match value? (2 * cs.length + 2) cs with
  | some (j, rest) => if (skipBlanks rest).isEmpty then some j else none
  | none => none

/-! ## Typed parts -/

def text? : Json → Option String
  | .str text => some text
  | _ => none

def bool? : Json → Option Bool
  | .bool value => some value
  | _ => none

/-- An integer within the given bounds. -/
def intWithin? (low high : Int) : Json → Option Int
  | .int n => if low ≤ n ∧ n ≤ high then some n else none
  | _ => none

def array? : Json → Option (List Json)
  | .arr items => some items
  | _ => none

/-- Null stands for an absent value. -/
def optional? {α : Type} (read : Json → Option α) : Json → Option (Option α)
  | .null => some none
  | j => (read j).map some

/-- A value without parts, by its name: the string of the name, or an object with that one name and
null under it. -/
def tag? : Json → Option String
  | .str text => some text
  | .obj [(name, .null)] => some name
  | _ => none

/-- The values of a record's fields in their order, `none` for a field that is missing. A record is
an object, in which other names are passed over and none of the fields may come twice, or an array
of the fields in order, of which the last ones may be missing. -/
def fields? (names : List String) : Json → Option (List (Option Json))
  | .obj members =>
    if names.all fun name => (members.filter fun m => m.1 == name).length ≤ 1 then
      some (names.map fun name => members.lookup name)
    else none
  | .arr items =>
    if items.length ≤ names.length then
      some (items.map some ++ List.replicate (names.length - items.length) none)
    else none
  | _ => none

end BitcoinPeer.Json
