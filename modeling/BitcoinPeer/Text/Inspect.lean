import BitcoinPeer.Bytes
import BitcoinPeer.Text.Quoted

/-!
# Values as structured text

The one-line form in which a value shows its parts: `[a, b]` for a list, `Name(part)` for a value
with one unnamed part, `Name { field: part, … }` for a record, `Some(part)` or
`None` for a value that may be absent.
-/

namespace BitcoinPeer.Inspect

/-- The items in brackets, separated by commas. -/
def list (items : List String) : String :=
  "[" ++ ", ".intercalate items ++ "]"

/-- A named value with one unnamed part. -/
def wrapped (name part : String) : String :=
  name ++ "(" ++ part ++ ")"

/-- A record, its fields in order. -/
def record (name : String) (fields : List (String × String)) : String :=
  name ++ " \x7b " ++ ", ".intercalate (fields.map fun (field, part) => field ++ ": " ++ part)
    ++ " \x7d"

/-- A value that may be absent. -/
def optional {α : Type} (show_ : α → String) : Option α → String
  | none => "None"
  | some a => wrapped "Some" (show_ a)

/-- A byte string, as the list of its bytes in decimal. -/
def bytes (bs : Bytes) : String :=
  list (bs.map fun b => toString b.toNat)

end BitcoinPeer.Inspect
