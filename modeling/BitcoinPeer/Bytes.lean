/-!
# Byte strings

Byte strings are lists of bytes, and numbers of a fixed width are written least significant byte
first. `toNatLE_ofNatLE` and `ofNatLE_toNatLE` say that the two directions undo each other up to
the width; `Octets n` is a byte string that is known to hold exactly `n` bytes.
-/

namespace BitcoinPeer

abbrev Bytes := List UInt8

namespace Bytes

/-- The low `width` bytes of a number, least significant first. -/
def ofNatLE : Nat → Nat → Bytes
  | 0, _ => []
  | width + 1, n => UInt8.ofNat n :: ofNatLE width (n / 256)

/-- The number whose bytes these are, least significant first. -/
def toNatLE : Bytes → Nat
  | [] => 0
  | b :: bs => b.toNat + 256 * toNatLE bs

/-- The low `width` bytes of a number, most significant first. -/
def ofNatBE (width n : Nat) : Bytes :=
  (ofNatLE width n).reverse

/-- The number whose bytes these are, most significant first. -/
def toNatBE (bs : Bytes) : Nat :=
  toNatLE bs.reverse

/-- The number of byte strings of a length, which is one more than the greatest number of so many
bytes. -/
def bound : Nat → Nat
  | 0 => 1
  | width + 1 => 256 * bound width

/-- So many zero bytes. -/
def zeros (n : Nat) : Bytes :=
  List.replicate n 0

@[simp] theorem length_ofNatLE (width n : Nat) : (ofNatLE width n).length = width := by
  induction width generalizing n with
  | zero => rfl
  | succ width ih => simp [ofNatLE, ih]

@[simp] theorem length_ofNatBE (width n : Nat) : (ofNatBE width n).length = width := by
  simp [ofNatBE]

@[simp] theorem length_zeros (n : Nat) : (zeros n).length = n := by
  simp [zeros]

theorem toNatLE_lt (bs : Bytes) : toNatLE bs < bound bs.length := by
  induction bs with
  | nil => exact Nat.one_pos
  | cons b bs ih =>
    have hb : b.toNat < 256 := b.toNat_lt
    rw [toNatLE, List.length_cons, bound]
    omega

theorem toNatLE_ofNatLE (width n : Nat) : toNatLE (ofNatLE width n) = n % bound width := by
  induction width generalizing n with
  | zero => exact (Nat.mod_one n).symm
  | succ width ih =>
    have hb : (UInt8.ofNat n).toNat = n % 256 := rfl
    rw [ofNatLE, toNatLE, ih, hb, bound, Nat.mod_mul]

theorem ofNatLE_toNatLE (bs : Bytes) : ofNatLE bs.length (toNatLE bs) = bs := by
  induction bs with
  | nil => rfl
  | cons b bs ih =>
    have hb : b.toNat < 256 := b.toNat_lt
    have hdiv : (b.toNat + 256 * toNatLE bs) / 256 = toNatLE bs := by omega
    have hmod : UInt8.ofNat (b.toNat + 256 * toNatLE bs) = b := by
      apply UInt8.toNat_inj.1
      show (b.toNat + 256 * toNatLE bs) % 256 = b.toNat
      omega
    rw [List.length_cons, toNatLE, ofNatLE, hdiv, hmod, ih]

end Bytes

/-- A byte string of exactly `n` bytes. -/
structure Octets (n : Nat) where
  bytes : Bytes
  length_bytes : bytes.length = n
deriving DecidableEq

namespace Octets

/-- Refuses a byte string of any other length. -/
def ofBytes? (n : Nat) (bs : Bytes) : Option (Octets n) :=
  if h : bs.length = n then some ⟨bs, h⟩ else none

/-- The `n` low bytes of a number, least significant first. -/
def ofNatLE (n value : Nat) : Octets n :=
  ⟨Bytes.ofNatLE n value, Bytes.length_ofNatLE n value⟩

/-- The octets that are all zero. -/
def zero (n : Nat) : Octets n :=
  ⟨Bytes.zeros n, Bytes.length_zeros n⟩

instance {n : Nat} : Inhabited (Octets n) := ⟨zero n⟩

theorem ofBytes?_bytes {n : Nat} (o : Octets n) : ofBytes? n o.bytes = some o := by
  simp [ofBytes?, o.length_bytes]

theorem ofBytes?_eq_some_iff {n : Nat} {bs : Bytes} {o : Octets n} :
    ofBytes? n bs = some o ↔ o.bytes = bs := by
  constructor
  · intro h
    unfold ofBytes? at h
    split at h
    · cases h
      rfl
    · cases h
  · rintro rfl
    exact ofBytes?_bytes o

end Octets

end BitcoinPeer
