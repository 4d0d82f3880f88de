import Mathlib.Algebra.Group.Nat.Defs
import Mathlib.Data.List.GetD
import BitcoinPeer.Merkle.Flags

/-!
# Packed flags

Unpacking gives the bits of every byte from the least significant one on, and undoes packing but for
fewer than eight flags at the end, which are off.
-/

namespace BitcoinPeer.Merkle

@[simp] theorem length_byteBits (b : UInt8) : (byteBits b).length = 8 := by
  simp [byteBits]

theorem getElem?_byteBits (b : UInt8) {j : Nat} (hj : j < 8) :
    (byteBits b)[j]? = some (b.toNat.testBit j) := by
  simp [byteBits, List.getElem?_range hj]

theorem length_unpackFlags (bs : Bytes) : (unpackFlags bs).length = 8 * bs.length := by
  induction bs with
  | nil => rfl
  | cons b bs ih =>
    rw [unpackFlags, List.flatMap_cons, List.length_append, length_byteBits, List.length_cons]
    rw [unpackFlags] at ih
    omega

/-- The flags of a byte are its bits, least significant first. -/
theorem getElem?_unpackFlags (bs : Bytes) (k : Nat) {j : Nat} (hj : j < 8) :
    (unpackFlags bs)[8 * k + j]? = bs[k]?.map (·.toNat.testBit j) := by
  induction bs generalizing k with
  | nil => simp [unpackFlags]
  | cons b bs ih =>
    rw [unpackFlags, List.flatMap_cons]
    cases k with
    | zero =>
      rw [List.getElem?_append_left (by simp; omega), Nat.mul_zero, Nat.zero_add,
        getElem?_byteBits b hj]
      rfl
    | succ k =>
      rw [List.getElem?_append_right (by simp; omega), length_byteBits,
        show 8 * (k + 1) + j - 8 = 8 * k + j by omega]
      exact ih k

/-! ### Packing -/

theorem testBit_bitsValue (bits : List Bool) (i : Nat) :
    (bitsValue bits).testBit i = bits.getD i false := by
  induction bits generalizing i with
  | nil => simp [bitsValue]
  | cons b bits ih =>
    cases i with
    | zero => cases b <;> simp [bitsValue, Nat.testBit_zero]
    | succ i =>
      have hhalf : ((if b then 1 else 0) + 2 * bitsValue bits) / 2 = bitsValue bits := by
        split <;> omega
      rw [bitsValue, Nat.testBit_succ, hhalf, ih, List.getD_cons_succ]

theorem bitsValue_lt (bits : List Bool) : bitsValue bits < 2 ^ bits.length := by
  induction bits with
  | nil => simp [bitsValue]
  | cons b bits ih =>
    rw [bitsValue, List.length_cons, Nat.pow_succ]
    split <;> omega

/-- At most eight flags make one byte, which is filled up with zeros. -/
theorem byteBits_bitsValue {bits : List Bool} (h : bits.length ≤ 8) :
    byteBits (UInt8.ofNat (bitsValue bits)) = bits ++ List.replicate (8 - bits.length) false := by
  have hlt : bitsValue bits < 256 :=
    Nat.lt_of_lt_of_le (bitsValue_lt bits) (Nat.pow_le_pow_right Nat.two_pos h)
  have hbyte : (UInt8.ofNat (bitsValue bits)).toNat = bitsValue bits := Nat.mod_eq_of_lt hlt
  refine List.ext_getElem? fun j => ?_
  by_cases hj : j < 8
  · rw [getElem?_byteBits _ hj, hbyte, testBit_bitsValue]
    by_cases hbits : j < bits.length
    · rw [List.getElem?_append_left hbits, List.getD_eq_getElem _ _ hbits,
        List.getElem?_eq_getElem hbits]
    · rw [List.getElem?_append_right (by omega), List.getElem?_replicate, if_pos (by omega),
        List.getD_eq_default _ _ (by omega)]
  · rw [List.getElem?_eq_none (by simp; omega), List.getElem?_eq_none (by simp; omega)]

/-- Unpacking gives the packed flags, and fewer than eight that are off. -/
theorem exists_unpackFlags_packFlags (flags : List Bool) :
    ∃ k < 8, unpackFlags (packFlags flags) = flags ++ List.replicate k false := by
  induction flags using packFlags.induct with
  | case1 => exact ⟨0, by omega, by simp [packFlags, unpackFlags]⟩
  | case2 b bs ih =>
    obtain ⟨k, hk, hrest⟩ := ih
    have hlen : (b :: bs.take 7).length ≤ 8 := by
      simp only [List.length_cons, List.length_take]
      omega
    rw [packFlags, unpackFlags, List.flatMap_cons, ← unpackFlags, hrest, byteBits_bitsValue hlen]
    by_cases hbs : 7 ≤ bs.length
    · refine ⟨k, hk, ?_⟩
      have hfull : 8 - (b :: bs.take 7).length = 0 := by simp [hbs]
      rw [hfull, List.replicate_zero, List.append_nil, List.cons_append, ← List.append_assoc,
        List.take_append_drop, List.cons_append]
    · have hdrop : bs.drop 7 = [] := List.drop_eq_nil_of_le (by omega)
      have htake : bs.take 7 = bs := List.take_of_length_le (by omega)
      rw [hdrop, packFlags] at hrest
      rw [hdrop, htake, List.nil_append, ← List.nil_append (List.replicate k false), ← hrest]
      exact ⟨8 - (b :: bs).length, by simp only [List.length_cons]; omega, by simp [unpackFlags]⟩

end BitcoinPeer.Merkle
