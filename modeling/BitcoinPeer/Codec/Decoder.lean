import BitcoinPeer.Bytes

/-!
# Decoders

A decoder reads one value off the front of a byte string and returns what it left unread. A field
of a fixed width that is cut short is reported with the whole width, a byte string with the number
of bytes that are missing.
-/

namespace BitcoinPeer

/-- Why bytes are not the encoding of a value. -/
inductive DecodeError where
  /-- The input ended within a field. -/
  | truncated (needed : Nat)
  /-- A byte string claims more bytes than are allowed. -/
  | oversizedBytes (length : UInt64)
  /-- A list claims more elements than are allowed. -/
  | oversizedList (length : UInt64)
  | varintOverflow
  | invalidUtf8
  /-- A position that is not beyond the one before it. -/
  | indexOutOfOrder (index : UInt64)
  /-- A position that has no next one. -/
  | indexOverflow
deriving DecidableEq

namespace DecodeError

/-- The wording of an error. -/
def message : DecodeError → String
  | truncated needed => s!"Truncated input: needed {needed} more bytes"
  | oversizedBytes length => s!"Length {length} exceeds limit for byte string"
  | oversizedList length => s!"Length {length} exceeds limit for vector"
  | varintOverflow => "Varint overflows 64 bits"
  | invalidUtf8 => "Invalid UTF-8 in string field"
  | indexOutOfOrder index => s!"Invalid value: index {index} out of order"
  | indexOverflow => "Invalid value: differential index overflow"

/-- Whether the input ended within a field, so that more bytes may help. -/
def isTruncated : DecodeError → Bool
  | truncated _ => true
  | _ => false

end DecodeError

/-- Reads one value off the front of a byte string. -/
@[ext]
structure Decoder (α : Type) where
  run : Bytes → Except DecodeError (α × Bytes)

namespace Decoder

variable {α β : Type}

instance : Monad Decoder where
  pure a := ⟨fun bs => .ok (a, bs)⟩
  bind d f := ⟨fun bs =>
    match d.run bs with
    | .error e => .error e
    | .ok (a, rest) => (f a).run rest⟩

@[simp] theorem run_pure (a : α) (bs : Bytes) : (pure a : Decoder α).run bs = .ok (a, bs) := rfl

theorem run_bind (d : Decoder α) (f : α → Decoder β) (bs : Bytes) :
    (d >>= f).run bs =
      match d.run bs with
      | .error e => .error e
      | .ok (a, rest) => (f a).run rest := rfl

theorem run_bind_ok {d : Decoder α} {bs rest : Bytes} {a : α} (f : α → Decoder β)
    (h : d.run bs = .ok (a, rest)) : (d >>= f).run bs = (f a).run rest := by
  rw [run_bind, h]

theorem run_bind_error {d : Decoder α} {bs : Bytes} {e : DecodeError} (f : α → Decoder β)
    (h : d.run bs = .error e) : (d >>= f).run bs = .error e := by
  rw [run_bind, h]

instance : LawfulMonad Decoder :=
  LawfulMonad.mk' Decoder
    (fun d => by
      ext bs : 2
      show (match d.run bs with | .error e => _ | .ok (a, rest) => _) = d.run bs
      cases d.run bs <;> rfl)
    (fun a f => rfl)
    (fun d f g => by
      ext bs : 2
      simp only [run_bind]
      cases d.run bs <;> rfl)

/-- Reads nothing and fails. -/
def fail (e : DecodeError) : Decoder α :=
  ⟨fun _ => .error e⟩

@[simp] theorem run_fail (e : DecodeError) (bs : Bytes) :
    (fail e : Decoder α).run bs = .error e := rfl

/-- Reads a value off the front and drops the rest. -/
def front (d : Decoder α) (bs : Bytes) : Except DecodeError α :=
  (d.run bs).map Prod.fst

/-! ## Fields of a fixed width -/

/-- Reads exactly `n` bytes. -/
def octets (n : Nat) : Decoder (Octets n) :=
  ⟨fun bs =>
    let field := bs.take n
    if h : field.length = n then .ok (⟨field, h⟩, bs.drop n) else .error (.truncated n)⟩

theorem run_octets_append {n : Nat} (o : Octets n) (rest : Bytes) :
    (octets n).run (o.bytes ++ rest) = .ok (o, rest) := by
  have htake : (o.bytes ++ rest).take n = o.bytes := by simp [o.length_bytes]
  have hdrop : (o.bytes ++ rest).drop n = rest := by simp [o.length_bytes]
  simp only [octets, htake, hdrop, o.length_bytes, dite_true]

/-- Reads a number of `n` bytes, least significant first. -/
def natLE (n : Nat) : Decoder Nat := do
  let field ← octets n
  return Bytes.toNatLE field.bytes

theorem run_natLE_append {n value : Nat} (h : value < Bytes.bound n) (rest : Bytes) :
    (natLE n).run (Bytes.ofNatLE n value ++ rest) = .ok (value, rest) := by
  have hread : (octets n).run (Bytes.ofNatLE n value ++ rest) =
      .ok (Octets.ofNatLE n value, rest) := run_octets_append (Octets.ofNatLE n value) rest
  rw [natLE, run_bind_ok _ hread, run_pure]
  simp [Octets.ofNatLE, Bytes.toNatLE_ofNatLE, Nat.mod_eq_of_lt h]

def uint8 : Decoder UInt8 := do return UInt8.ofNat (← natLE 1)

/-- Any byte but zero stands for true. -/
def bool : Decoder Bool := do return (← uint8) != 0

/-- Two bytes, most significant first: the one field in this order. -/
def uint16BE : Decoder UInt16 := do
  let field ← octets 2
  return UInt16.ofNat (Bytes.toNatBE field.bytes)

def uint32 : Decoder UInt32 := do return UInt32.ofNat (← natLE 4)

def int32 : Decoder Int32 := do return (← uint32).toInt32

def uint64 : Decoder UInt64 := do return UInt64.ofNat (← natLE 8)

def int64 : Decoder Int64 := do return (← uint64).toInt64

/-! ## Repetition -/

/-- Reads `n` values one after another; those read before stand newest first. -/
def repeatOnto (d : Decoder α) : Nat → List α → Bytes → Except DecodeError (List α × Bytes)
  | 0, done, bs => .ok (done.reverse, bs)
  | n + 1, done, bs =>
    match d.run bs with
    | .error e => .error e
    | .ok (a, rest) => repeatOnto d n (a :: done) rest

/-- Reads `n` values one after another. -/
def replicate (d : Decoder α) (n : Nat) : Decoder (List α) :=
  ⟨repeatOnto d n []⟩

theorem repeatOnto_eq (d : Decoder α) (n : Nat) (done : List α) (bs : Bytes) :
    repeatOnto d n done bs =
      (repeatOnto d n [] bs).map fun (as, rest) => (done.reverse ++ as, rest) := by
  induction n generalizing done bs with
  | zero => simp [repeatOnto, Except.map]
  | succ n ih =>
    rw [repeatOnto, repeatOnto]
    cases d.run bs with
    | error e => rfl
    | ok p =>
      show repeatOnto d n (p.1 :: done) p.2 = (repeatOnto d n [p.1] p.2).map _
      rw [ih (p.1 :: done), ih [p.1]]
      cases repeatOnto d n [] p.2 <;> simp [Except.map]

theorem replicate_succ (d : Decoder α) (n : Nat) :
    replicate d (n + 1) = (do
      let a ← d
      let as ← replicate d n
      return a :: as) := by
  ext bs : 2
  simp only [replicate, run_bind, repeatOnto]
  cases d.run bs with
  | error e => rfl
  | ok p =>
    show repeatOnto d n [p.1] p.2 = _
    rw [repeatOnto_eq]
    cases h : repeatOnto d n [] p.2 <;> simp [Except.map, h]

end Decoder

/-! ## Encoding of fixed-width numbers -/

namespace Encode

def uint8 (n : UInt8) : Bytes := [n]

def bool (b : Bool) : Bytes := [if b then 1 else 0]

/-- Two bytes, most significant first. -/
def uint16BE (n : UInt16) : Bytes := Bytes.ofNatBE 2 n.toNat

def uint32 (n : UInt32) : Bytes := Bytes.ofNatLE 4 n.toNat

def int32 (n : Int32) : Bytes := uint32 n.toUInt32

def uint64 (n : UInt64) : Bytes := Bytes.ofNatLE 8 n.toNat

def int64 (n : Int64) : Bytes := uint64 n.toUInt64

end Encode

/-- A type whose values have an encoding and can be read back from it. -/
class Codec (α : Type) where
  encode : α → Bytes
  decode : Decoder α

instance : Codec Int32 where
  encode := Encode.int32
  decode := Decoder.int32

end BitcoinPeer
