import BitcoinPeer.Chain.Hashed

/-!
# Block files

A block file holds encoded blocks one after another, with nothing between them. A block is found by
the offset at which it starts, or by walking through the file from its start.
-/

namespace BitcoinPeer

inductive StorageError where
  | missingBlockFile
  | offsetOutOfRange (offset length : Nat)
  | decode (e : DecodeError)
deriving DecidableEq

/-- The wording of an error. -/
def StorageError.message : StorageError → String
  | .missingBlockFile => "Block file not found"
  | .offsetOutOfRange offset length =>
    s!"Offset {offset} is beyond the end of the block file ({length} bytes)"
  | .decode e => "Failed to decode block: " ++ e.message

/-- The content of a block file, if there is the file. -/
structure BlockFile where
  content : Option Bytes

namespace BlockFile

/-- What walking through a file meets: a block and the offset of its start, or an error that ends
the walk. -/
abbrev Item : Type := Except StorageError (Nat × HashedBlock)

/-- Reads a block and computes all its hashes. -/
def readBlock (bs : Bytes) : Except StorageError (HashedBlock × Bytes) :=
  match Codec.decode.run bs with
  | .ok ((b : Block), rest) => .ok ((HashedBlock.ofBlock b).rehash.2, rest)
  | .error e => .error (.decode e)

/-- The block that starts at an offset. -/
def load (f : BlockFile) (offset : Nat) : Except StorageError HashedBlock :=
  match f.content with
  | none => .error .missingBlockFile
  | some bs =>
    if bs.length ≤ offset then .error (.offsetOutOfRange offset bs.length)
    else (readBlock (bs.drop offset)).map Prod.fst

/-- Walks through what is left of a file. -/
def walk (offset : Nat) (bs : Bytes) : List Item :=
  if bs.isEmpty then []
  else
    match readBlock bs with
    | .error e => [.error e]
    | .ok (b, rest) =>
      .ok (offset, b) ::
        (if rest.length < bs.length then walk (offset + (bs.length - rest.length)) rest else [])
termination_by bs.length

/-- Every block of the file in order. -/
def blocks (f : BlockFile) : Except StorageError (List Item) :=
  match f.content with
  | none => .error .missingBlockFile
  | some bs => .ok (walk 0 bs)

end BlockFile

end BitcoinPeer
