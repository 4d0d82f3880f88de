/-!
# JSON values and their text

Values, the compact text without blanks and the text laid out over several lines. Members of an
object keep their order; `sorted` puts them in the order of their names at every level.
-/

namespace BitcoinPeer

inductive Json where
  | null
  | bool (value : Bool)
  | int (value : Int)
  /-- A number written with a fraction or an exponent, or a negative zero, by its literal. -/
  | real (literal : List Char)
  | str (text : String)
  | arr (items : List Json)
  | obj (members : List (String × Json))
  /-- A string with half of a surrogate pair in it, or an object with such a name: the grammar
  allows it, but it is no text. -/
  | broken
deriving Inhabited

namespace Json

/-- A character as it stands between quotation marks. -/
def escape (c : Char) : List Char :=
  if c = '"' then ['\\', '"']
  else if c = '\\' then ['\\', '\\']
  else if c = '\x08' then ['\\', 'b']
  else if c = '\x0c' then ['\\', 'f']
  else if c = '\n' then ['\\', 'n']
  else if c = '\r' then ['\\', 'r']
  else if c = '\t' then ['\\', 't']
  else if c.toNat < 32 then
    ['\\', 'u', '0', '0', Nat.digitChar (c.toNat / 16), Nat.digitChar (c.toNat % 16)]
  else [c]

/-- A text in quotation marks. -/
def quoted (text : String) : List Char :=
  '"' :: text.toList.flatMap escape ++ ['"']

/-- The texts, with a separator between any two. -/
def joined (separator : List Char) : List (List Char) → List Char
  | [] => []
  | [t] => t
  | t :: ts => t ++ separator ++ joined separator ts

mutual

/-- The text without blanks, as characters. -/
def compactChars : Json → List Char
  | null => "null".toList
  | bool true => "true".toList
  | bool false => "false".toList
  | int n => (toString n).toList
  | real literal => literal
  | str text => quoted text
  | arr items => '[' :: joined [','] (compactItems items) ++ [']']
  | obj members => '\x7b' :: joined [','] (compactMembers members) ++ ['\x7d']
  | broken => "null".toList

def compactItems : List Json → List (List Char)
  | [] => []
  | j :: js => compactChars j :: compactItems js

def compactMembers : List (String × Json) → List (List Char)
  | [] => []
  | (name, j) :: rest => (quoted name ++ ':' :: compactChars j) :: compactMembers rest

end

/-- The text without blanks. -/
def compact (j : Json) : String :=
  String.ofList j.compactChars

/-- A new line, indented to a level of nesting. -/
def lineBreak (level : Nat) : List Char :=
  '\n' :: List.replicate (2 * level) ' '

/-- Parts between brackets, each on a line of its own; nothing at all between them if there are no
parts. -/
def laidOut (level : Nat) (left right : Char) (parts : List (List Char)) : List Char :=
  if parts.isEmpty then [left, right]
  else
    left :: lineBreak (level + 1) ++ joined (',' :: lineBreak (level + 1)) parts
      ++ lineBreak level ++ [right]

mutual

def prettyChars (level : Nat) : Json → List Char
  | arr items => laidOut level '[' ']' (prettyItems (level + 1) items)
  | obj members => laidOut level '\x7b' '\x7d' (prettyMembers (level + 1) members)
  | null => compactChars null
  | bool value => compactChars (bool value)
  | int value => compactChars (int value)
  | real literal => literal
  | str text => quoted text
  | broken => compactChars broken

def prettyItems (level : Nat) : List Json → List (List Char)
  | [] => []
  | j :: js => prettyChars level j :: prettyItems level js

def prettyMembers (level : Nat) : List (String × Json) → List (List Char)
  | [] => []
  | (name, j) :: rest =>
    (quoted name ++ ':' :: ' ' :: prettyChars level j) :: prettyMembers level rest

end

/-- The text with one item or member on a line, indented by two blanks a level. -/
def pretty (j : Json) : String :=
  String.ofList (j.prettyChars 0)

mutual

/-- The same value with the members of every object in the order of their names. -/
def sorted : Json → Json
  | arr items => arr (sortedItems items)
  | obj members => obj ((sortedMembers members).mergeSort fun a b => a.1 ≤ b.1)
  | null => null
  | bool value => bool value
  | int value => int value
  | real literal => real literal
  | str text => str text
  | broken => broken

def sortedItems : List Json → List Json
  | [] => []
  | j :: js => sorted j :: sortedItems js

def sortedMembers : List (String × Json) → List (String × Json)
  | [] => []
  | (name, j) :: rest => (name, sorted j) :: sortedMembers rest

end

end Json

end BitcoinPeer
