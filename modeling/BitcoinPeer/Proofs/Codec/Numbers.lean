import Mathlib.Data.Nat.Digits.Lemmas
import BitcoinPeer.Hash256

/-!
# Byte strings as numbers

A byte string is a number to the base 256 (`toNatLE_eq_ofDigits`), so to join, cut and pad byte
strings is to add, divide and multiply by powers of that base. Byte strings of one length stand in
the order of their numbers if the most significant byte comes first (`Bytes.compare_eq`); hence
hashes, which are compared from their last byte on, stand in the order of theirs
(`Hash256.compare_eq`).
-/

namespace BitcoinPeer

namespace Bytes

theorem bound_eq_pow (width : Nat) : bound width = 256 ^ width := by
  induction width with
  | zero => rfl
  | succ width ih => rw [bound, ih, Nat.pow_succ, Nat.mul_comm]

theorem toNatLE_eq_ofDigits (bs : Bytes) : toNatLE bs = Nat.ofDigits 256 (bs.map UInt8.toNat) := by
  induction bs with
  | nil => rfl
  | cons b bs ih => rw [toNatLE, List.map_cons, Nat.ofDigits_cons, ih]

theorem digit_lt (bs : Bytes) : ∀ d ∈ bs.map UInt8.toNat, d < 256 := by
  intro d hd
  obtain ⟨b, -, rfl⟩ := List.mem_map.mp hd
  exact b.toNat_lt

theorem toNatLE_append (as bs : Bytes) :
    toNatLE (as ++ bs) = toNatLE as + 256 ^ as.length * toNatLE bs := by
  rw [toNatLE_eq_ofDigits, List.map_append, Nat.ofDigits_append, List.length_map,
    ← toNatLE_eq_ofDigits, ← toNatLE_eq_ofDigits]

@[simp] theorem toNatLE_zeros (n : Nat) : toNatLE (zeros n) = 0 := by
  rw [toNatLE_eq_ofDigits, zeros, List.map_replicate]
  exact Nat.ofDigits_replicate_zero

theorem toNatLE_drop (bs : Bytes) (n : Nat) : toNatLE (bs.drop n) = toNatLE bs / 256 ^ n := by
  rw [toNatLE_eq_ofDigits bs, Nat.ofDigits_div_pow_eq_ofDigits_drop n (by decide) _ (digit_lt bs),
    ← List.map_drop, toNatLE_eq_ofDigits]

theorem toNatLE_take (bs : Bytes) (n : Nat) : toNatLE (bs.take n) = toNatLE bs % 256 ^ n := by
  rw [toNatLE_eq_ofDigits bs, Nat.ofDigits_mod_pow_eq_ofDigits_take n (by decide) _ (digit_lt bs),
    ← List.map_take, toNatLE_eq_ofDigits]

theorem all_eq_zero_iff (bs : Bytes) : bs.all (· == 0) = true ↔ toNatLE bs = 0 := by
  induction bs with
  | nil => simp [toNatLE]
  | cons b bs ih =>
    have hb : b = 0 ↔ b.toNat = 0 := UInt8.toNat_inj.symm
    rw [List.all_cons, Bool.and_eq_true, ih, beq_iff_eq, hb, toNatLE]
    omega

/-- Only zero bytes are left over exactly if the number fits the first `n` bytes. -/
theorem all_drop_eq_zero_iff (bs : Bytes) (n : Nat) :
    (bs.drop n).all (· == 0) = true ↔ toNatLE bs < 256 ^ n := by
  rw [all_eq_zero_iff, toNatLE_drop, Nat.div_eq_zero_iff_lt (Nat.pow_pos (by decide))]

/-- The digit in front decides, and between equal ones the rest. -/
theorem compare_add_mul {x y a b base : Nat} (ha : a < base) (hb : b < base) :
    compare (a + base * x) (b + base * y) = (compare x y).then (compare a b) := by
  rcases Nat.lt_trichotomy x y with hlt | rfl | hgt
  · have hstep : base * (x + 1) ≤ base * y := Nat.mul_le_mul_left base hlt
    rw [Nat.compare_eq_lt.mpr hlt, Nat.compare_eq_lt.mpr (by rw [Nat.mul_succ] at hstep; omega)]
    rfl
  · rw [Nat.compare_eq_eq.mpr rfl, Ordering.eq_then, Nat.compare_eq_ite_lt, Nat.compare_eq_ite_lt]
    simp only [Nat.add_lt_add_iff_right]
  · have hstep : base * (y + 1) ≤ base * x := Nat.mul_le_mul_left base hgt
    rw [Nat.compare_eq_gt.mpr hgt, Nat.compare_eq_gt.mpr (by rw [Nat.mul_succ] at hstep; omega)]
    rfl

theorem toNatBE_cons (b : UInt8) (bs : Bytes) :
    toNatBE (b :: bs) = toNatBE bs + 256 ^ bs.length * b.toNat := by
  rw [toNatBE, List.reverse_cons, toNatLE_append, List.length_reverse, toNatBE, toNatLE, toNatLE,
    Nat.mul_zero, Nat.add_zero]

theorem toNatBE_lt (bs : Bytes) : toNatBE bs < 256 ^ bs.length := by
  have hlt := toNatLE_lt bs.reverse
  rwa [bound_eq_pow, List.length_reverse] at hlt

/-- Byte strings of one length stand in the order of their numbers. -/
theorem compare_eq {as bs : Bytes} (h : as.length = bs.length) :
    compare as bs = compare (toNatBE as) (toNatBE bs) := by
  induction as generalizing bs with
  | nil =>
    obtain rfl := List.length_eq_zero_iff.mp h.symm
    rfl
  | cons a as ih =>
    obtain ⟨b, bs, rfl⟩ := List.exists_cons_of_length_eq_add_one h.symm
    have hlength : as.length = bs.length := Nat.succ.inj h
    have hlt : toNatBE bs < 256 ^ as.length := hlength ▸ toNatBE_lt bs
    rw [List.compare_cons_cons, ih hlength, toNatBE_cons, toNatBE_cons, ← hlength,
      compare_add_mul (toNatBE_lt as) hlt, UInt8.compare_eq_toNat_compare_toNat]

end Bytes

namespace Hash256

/-- Hashes stand in the order of their numbers. -/
theorem compare_eq (a b : Hash256) : compare a b = compare a.toNat b.toNat := by
  have hlength : a.bytes.reverse.length = b.bytes.reverse.length := by simp
  have horder := Bytes.compare_eq hlength
  rw [Bytes.toNatBE, Bytes.toNatBE, List.reverse_reverse, List.reverse_reverse] at horder
  exact horder

theorem le_iff_toNat_le (a b : Hash256) : a ≤ b ↔ a.toNat ≤ b.toNat := by
  rw [← Nat.isLE_compare, ← compare_eq]
  exact Iff.rfl

theorem eq_of_bytes_eq {a b : Hash256} (h : a.bytes = b.bytes) : a = b := by
  obtain ⟨⟨as, ha⟩⟩ := a
  obtain ⟨⟨bs, hb⟩⟩ := b
  cases (show as = bs from h)
  rfl

theorem toNat_inj {a b : Hash256} : a.toNat = b.toNat ↔ a = b := by
  refine ⟨fun h => eq_of_bytes_eq ?_, congrArg toNat⟩
  rw [← Bytes.ofNatLE_toNatLE a.bytes, ← Bytes.ofNatLE_toNatLE b.bytes, length_bytes, length_bytes]
  exact congrArg (Bytes.ofNatLE 32) h

theorem ofBytes?_eq_some_iff {bs : Bytes} {h : Hash256} : ofBytes? bs = some h ↔ h.bytes = bs := by
  refine Option.map_eq_some_iff.trans ⟨?_, fun hbytes => ?_⟩
  · rintro ⟨octets, hoctets, rfl⟩
    exact Octets.ofBytes?_eq_some_iff.mp hoctets
  · exact ⟨h.octets, Octets.ofBytes?_eq_some_iff.mpr hbytes, rfl⟩

/-- The first 32 bytes, or fewer with zeros behind them, are the number modulo 2²⁵⁶. -/
theorem exists_ofBytes?_take (bs : Bytes) : ∃ h,
    ofBytes? ((bs ++ Bytes.zeros 32).take 32) = some h ∧ h.toNat = Bytes.toNatLE bs % 256 ^ 32 := by
  have hlength : ((bs ++ Bytes.zeros 32).take 32).length = 32 := by simp
  refine ⟨⟨⟨_, hlength⟩⟩, ?_, ?_⟩
  · rw [ofBytes?, Octets.ofBytes?, dif_pos hlength]
    rfl
  · show Bytes.toNatLE ((bs ++ Bytes.zeros 32).take 32) = _
    rw [Bytes.toNatLE_take, Bytes.toNatLE_append, Bytes.toNatLE_zeros, Nat.mul_zero, Nat.add_zero]

end Hash256

end BitcoinPeer
