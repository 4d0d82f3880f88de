import Mathlib.Algebra.Order.Floor.Semifield
import Mathlib.Data.Rat.Floor
import BitcoinPeer.Proofs.Chain.BlockRemembering
import BitcoinPeer.Proofs.Codec.Numbers

/-!
# Proof of work as numbers

A compact form denotes a rational number (`CompactForm.value`). The bytes from which a target is cut
are those of that number rounded down (`toNatLE_digits`), and there is a target if nothing but zero
bytes is cut off (`targetOfBits_cases`). A hash meets its target if its number is no greater, so the
validity of a block that remembers no outdated hash is a statement about numbers
(`isValid_numeric`).
-/

namespace BitcoinPeer

/-! ### The number of a compact form -/

namespace CompactForm

/-- The upper eight bits. -/
def exponent (bits : UInt32) : Nat :=
  (bits >>> 24).toNat

/-- The lower 23 bits. -/
def mantissa (bits : UInt32) : Nat :=
  (bits &&& 0x007fffff).toNat

/-- The number that a compact form denotes, but for the sign. -/
def value (bits : UInt32) : ℚ :=
  mantissa bits * 256 ^ ((exponent bits : ℤ) - 3)

variable {bits : UInt32}

theorem mantissa_lt (bits : UInt32) : mantissa bits < 256 ^ 3 := by
  have hle : mantissa bits ≤ 0x007fffff := by
    rw [mantissa, UInt32.toNat_and]
    exact Nat.and_le_right
  omega

theorem value_eq_div (bits : UInt32) :
    value bits = (mantissa bits * 256 ^ exponent bits : ℕ) / (256 ^ 3 : ℕ) := by
  have hbase : (256 : ℚ) ≠ 0 := by norm_num
  rw [value, zpow_sub₀ hbase, zpow_natCast, ← mul_div_assoc]
  norm_cast

theorem floor_value (bits : UInt32) :
    ⌊value bits⌋₊ = mantissa bits * 256 ^ exponent bits / 256 ^ 3 := by
  rw [value_eq_div, Nat.floor_div_eq_div]

theorem le_floor_value_iff {n : Nat} : n ≤ ⌊value bits⌋₊ ↔ (n : ℚ) ≤ value bits := by
  refine Nat.le_floor_iff ?_
  rw [value_eq_div]
  positivity

/-- Below three the exponent moves the mantissa to the right. -/
theorem floor_value_of_lt (h : exponent bits < 3) :
    ⌊value bits⌋₊ = mantissa bits >>> (8 * (3 - exponent bits)) := by
  have hpow : 256 ^ 3 = 256 ^ exponent bits * 256 ^ (3 - exponent bits) := by
    rw [← Nat.pow_add, Nat.add_sub_cancel' (Nat.le_of_lt h)]
  rw [floor_value, hpow, Nat.mul_comm, Nat.mul_div_mul_left _ _ (Nat.pow_pos (by decide)),
    Nat.shiftRight_eq_div_pow, Nat.pow_mul]

/-- The bytes that stand from the lowest place of the target on. -/
def digits (bits : UInt32) : Bytes :=
  (Bytes.zeros (exponent bits) ++ Bytes.ofNatLE 3 (mantissa bits)).drop 3

theorem toNatLE_digits (bits : UInt32) : Bytes.toNatLE (digits bits) = ⌊value bits⌋₊ := by
  rw [digits, Bytes.toNatLE_drop, Bytes.toNatLE_append, Bytes.toNatLE_zeros, Bytes.length_zeros,
    Bytes.toNatLE_ofNatLE, Bytes.bound_eq_pow, Nat.mod_eq_of_lt (mantissa_lt bits), floor_value,
    Nat.zero_add, Nat.mul_comm]

/-- There is a target unless the number is negative or does not fit 32 bytes, and the target is the
number rounded down. -/
theorem targetOfBits_cases (bits : UInt32) :
    (targetOfBits bits = none ∧ mantissa bits ≠ 0 ∧
        (bits &&& 0x00800000 ≠ 0 ∨ 2 ^ 256 ≤ value bits)) ∨
      ∃ t, targetOfBits bits = some t ∧ t.toNat = ⌊value bits⌋₊ ∧
        ¬(mantissa bits ≠ 0 ∧ (bits &&& 0x00800000 ≠ 0 ∨ 2 ^ 256 ≤ value bits)) := by
  have hunfold : targetOfBits bits = if mantissa bits ≠ 0 ∧ bits &&& 0x00800000 ≠ 0 then none
      else if ((digits bits).drop 32).all (· == 0) then
        Hash256.ofBytes? ((digits bits ++ Bytes.zeros 32).take 32)
      else none := rfl
  have hlarge : (2 ^ 256 : ℚ) ≤ value bits ↔ 256 ^ 32 ≤ ⌊value bits⌋₊ := by
    rw [le_floor_value_iff]
    norm_num
  have hfits := Bytes.all_drop_eq_zero_iff (digits bits) 32
  rw [toNatLE_digits] at hfits
  rw [hunfold, hlarge]
  by_cases hnegative : mantissa bits ≠ 0 ∧ bits &&& 0x00800000 ≠ 0
  · rw [if_pos hnegative]
    exact .inl ⟨rfl, hnegative.1, .inl hnegative.2⟩
  · rw [if_neg hnegative]
    by_cases hlt : ⌊value bits⌋₊ < 256 ^ 32
    · obtain ⟨t, ht, hvalue⟩ := Hash256.exists_ofBytes?_take (digits bits)
      rw [toNatLE_digits, Nat.mod_eq_of_lt hlt] at hvalue
      rw [if_pos (hfits.mpr hlt)]
      refine .inr ⟨t, ht, hvalue, ?_⟩
      rintro ⟨hnonzero, hsign | hle⟩
      · exact hnegative ⟨hnonzero, hsign⟩
      · exact absurd hlt (Nat.not_lt.mpr hle)
    · -- what is too large is not zero
      rw [if_neg (fun hzero => hlt (hfits.mp hzero))]
      refine .inl ⟨rfl, fun hzero => hlt ?_, .inr (Nat.not_lt.mp hlt)⟩
      rw [floor_value, hzero, Nat.zero_mul, Nat.zero_div]
      exact Nat.pow_pos (by decide)

theorem targetOfBits_eq_none_iff : targetOfBits bits = none ↔
    mantissa bits ≠ 0 ∧ (bits &&& 0x00800000 ≠ 0 ∨ 2 ^ 256 ≤ value bits) := by
  obtain ⟨hnone, hcase⟩ | ⟨t, ht, -, hcase⟩ := targetOfBits_cases bits
  · exact iff_of_true hnone hcase
  · exact iff_of_false (by rw [ht]; exact Option.some_ne_none t) hcase

theorem toNat_of_targetOfBits {t : Hash256} (ht : targetOfBits bits = some t) :
    t.toNat = ⌊value bits⌋₊ := by
  obtain ⟨hnone, -⟩ | ⟨t', ht', hvalue, -⟩ := targetOfBits_cases bits
  · rw [hnone] at ht
    contradiction
  · obtain rfl := Option.some.inj (ht.symm.trans ht')
    exact hvalue

end CompactForm

/-! ### Validity -/

theorem BlockHeader.length_encode (h : BlockHeader) : (Codec.encode h).length = 80 := by
  have hhash (a : Hash256) : (Codec.encode a).length = 32 := a.length_bytes
  have hencode : Codec.encode h = Encode.int32 h.version ++ Codec.encode h.prevBlock ++
      Codec.encode h.merkleRoot ++ Encode.uint32 h.time ++ Encode.uint32 h.bits ++
      Encode.uint32 h.nonce := rfl
  rw [hencode]
  simp only [List.length_append, hhash, Encode.length_int32, Encode.length_uint32]

theorem TxOut.isValid_iff (o : TxOut) :
    o.isValid = true ↔ 0 ≤ o.value.toInt ∧ o.value.toInt ≤ 21 * 10 ^ 14 := by
  have hmax : maxMoney = 21 * 10 ^ 14 := rfl
  rw [TxOut.isValid, Bool.and_eq_true, decide_eq_true_iff, decide_eq_true_iff, hmax]

/-- A header's work is enough if the number of its hash is at most that of its compact target. -/
theorem Hashed.UpToDate.meetsTarget_iff {x : Hashed BlockHeader} (h : x.UpToDate) :
    x.meetsTarget.1 = true ↔ targetOfBits x.contents.bits ≠ none ∧
      (identity x.contents).toNat ≤ ⌊CompactForm.value x.contents.bits⌋₊ := by
  unfold Hashed.meetsTarget
  split
  · rename_i t ht
    have hvalue := CompactForm.toNat_of_targetOfBits ht
    simp only [decide_eq_true_eq]
    rw [h.hash_eq, Hash256.le_iff_toNat_le, hvalue, ht]
    exact (and_iff_right (Option.some_ne_none t)).symm
  · rename_i hnone
    simp [hnone]

/-- Transactions that are all valid remember their hashes after the check. -/
theorem checkTransactions_of_all {txs : List (Hashed Transaction)}
    (h : (txs.all fun t => t.isValid.1) = true) :
    checkTransactions txs = (true, txs.map fun t => t.hash.2) := by
  induction txs with
  | nil => rfl
  | cons t txs ih =>
    rw [List.all_cons, Bool.and_eq_true] at h
    have hvalid : t.isValid = (true, t.hash.2) := Prod.ext h.1 rfl
    rw [checkTransactions, hvalid, ih h.2]
    rfl

namespace HashedBlock

variable {b : HashedBlock}

/-- The hashes that the check remembers are those of the contents. -/
theorem txHashes_checked {txs : List (Hashed Transaction)} (h : ∀ t ∈ txs, t.UpToDate)
    (header : Hashed BlockHeader) :
    (txHashes { header, txs := txs.map fun t => t.hash.2 }).1 =
      txs.map fun t => identity t.contents := by
  refine (txHashes_eq ?_).trans ?_
  · intro t ht
    obtain ⟨x, hx, rfl⟩ := List.mem_map.mp ht
    exact (h x hx).hash
  · rw [List.map_map]
    exact List.map_congr_left fun t _ => congrArg identity (Read.contents_apply .hash t)

theorem UpToDate.isValid_iff (h : b.UpToDate) : b.isValid.1 = true ↔
    b.header.meetsTarget.1 = true ∧ (b.txs.all fun t => t.isValid.1) = true ∧
      Merkle.root (b.txs.map fun t => identity t.contents) = b.header.contents.merkleRoot := by
  have hcontents : b.header.meetsTarget.2.contents = b.header.contents :=
    Read.contents_apply .check b.header
  unfold HashedBlock.isValid
  rcases hmeets : b.header.meetsTarget with ⟨_ | _, header⟩
  · simp
  · rw [hmeets] at hcontents
    by_cases hvalid : (b.txs.all fun t => t.isValid.1) = true
    · have hroot : (merkleRoot { header, txs := b.txs.map fun t => t.hash.2 }).1 =
          Merkle.root (b.txs.map fun t => identity t.contents) :=
        congrArg Merkle.root (txHashes_checked h.txs header)
      have hheader : (merkleRoot { header, txs := b.txs.map fun t => t.hash.2 }).2.header.contents =
        b.header.contents := hcontents
      rw [checkTransactions_of_all hvalid]
      simp only [hroot, hheader, hvalid, beq_iff_eq, true_and]
    · rw [Bool.not_eq_true] at hvalid
      rw [checkTransactions_eq, hvalid]
      simp

end HashedBlock

section

open CompactForm

/-- **Validity is about numbers**: hashes are compared as the numbers that they write least
significant byte first; a compact form has a target unless its mantissa is not zero and it is negative
or not less than 2²⁵⁶, and the target is its number rounded down; so a block that remembers no outdated
hash is valid exactly if its header has a target that the number of the header's digest does not
exceed, every amount is between zero and 21 · 10¹⁴, and the transactions' hashes reduce to the
header's Merkle root. -/
theorem isValid_numeric :
    (∀ a b : Hash256, compare a b = compare a.toNat b.toNat) ∧
      (∀ bits : UInt32,
        (targetOfBits bits = none ↔
          mantissa bits ≠ 0 ∧ (bits &&& 0x00800000 ≠ 0 ∨ 2 ^ 256 ≤ value bits)) ∧
        (∀ t, targetOfBits bits = some t → t.toNat = ⌊value bits⌋₊) ∧
        (exponent bits < 3 → ⌊value bits⌋₊ = mantissa bits >>> (8 * (3 - exponent bits)))) ∧
      ∀ b : HashedBlock, b.UpToDate →
        (Codec.encode b.header.contents).length = 80 ∧
        (b.isValid.1 = true ↔
          targetOfBits b.header.contents.bits ≠ none ∧
          (Digest.doubleSha256 (Codec.encode b.header.contents)).toNat ≤
            ⌊value b.header.contents.bits⌋₊ ∧
          (∀ t ∈ b.txs, ∀ o ∈ t.contents.outputs,
            0 ≤ o.value.toInt ∧ o.value.toInt ≤ 21 * 10 ^ 14) ∧
          Merkle.reduce (b.txs.map fun t => identity t.contents) =
            b.header.contents.merkleRoot) := by
  refine ⟨Hash256.compare_eq, fun bits => ⟨targetOfBits_eq_none_iff,
    fun t => toNat_of_targetOfBits, floor_value_of_lt⟩, fun b h =>
    ⟨b.header.contents.length_encode, ?_⟩⟩
  have hamounts : (b.txs.all fun t => t.isValid.1) = true ↔ ∀ t ∈ b.txs,
      ∀ o ∈ t.contents.outputs, 0 ≤ o.value.toInt ∧ o.value.toInt ≤ 21 * 10 ^ 14 := by
    simp only [List.all_eq_true, Hashed.isValid, TxOut.isValid_iff]
  rw [h.isValid_iff, h.header.meetsTarget_iff, hamounts, Merkle.root_eq, and_assoc]
  rfl

/-- A transaction that pays the greatest amount. -/
def payingAll : Transaction where
  outputs := [{ value := 21 * 10 ^ 14, scriptPubKey := [0x51] }]

/-- A block whose header asks for as little work as possible, and whose transaction remembers its
hash. -/
def leastWork : HashedBlock where
  header := { contents := { bits := 0x2100ffff, merkleRoot := identity payingAll } }
  txs := [{ contents := payingAll, remembered := some (identity payingAll) }]

/-- The block is valid; with one more in the mantissa there is no target. -/
theorem isValid_numeric_leastWork :
    leastWork.UpToDate ∧ leastWork.isValid.1 = true ∧
      (∀ t, targetOfBits 0x2100ffff = some t → t.toNat = 0xffff * 256 ^ 30) ∧
      targetOfBits 0x21010000 = none := by
  have hcurrent : leastWork.UpToDate :=
    ⟨nofun, List.forall_mem_singleton.mpr fun _ hh => (Option.some.inj hh).symm⟩
  have hfloor : ⌊value 0x2100ffff⌋₊ = 0xffff * 256 ^ 30 := by
    rw [floor_value]
    rfl
  have hvalue : value 0x21010000 = 2 ^ 256 := by
    have hmantissa : mantissa 0x21010000 = 0x10000 := rfl
    have hexponent : exponent 0x21010000 = 33 := rfl
    rw [value, hmantissa, hexponent]
    norm_num
  have hdigest : (Digest.doubleSha256 (Codec.encode leastWork.header.contents)).toNat ≤
      0xffff * 256 ^ 30 := by decide +kernel
  have hamounts : ∀ t ∈ leastWork.txs, ∀ o ∈ t.contents.outputs,
      0 ≤ o.value.toInt ∧ o.value.toInt ≤ 21 * 10 ^ 14 := by decide
  obtain ⟨-, htargets, hblocks⟩ := isValid_numeric
  refine ⟨hcurrent, (hblocks leastWork hcurrent).2.mpr ⟨by decide, ?_, hamounts, ?_⟩,
    fun t ht => ?_, (htargets 0x21010000).1.mpr ⟨by decide, .inr hvalue.ge⟩⟩
  · exact hdigest.trans_eq hfloor.symm
  · exact Merkle.reduce.eq_2 _
  · exact ((htargets 0x2100ffff).2.1 t ht).trans hfloor

end

end BitcoinPeer
