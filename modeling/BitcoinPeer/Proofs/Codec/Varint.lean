import BitcoinPeer.Proofs.Codec.Respelling
import BitcoinPeer.Proofs.Codec.Streaming

/-!
# Varints, written and read back

A number has one form as a varint, and nothing else is read as the number. Both directions rest on one
equation: the form of a number is its last digit behind the digits of what is left of it
(`encodeOnto_eq`). `leading value` are the digits after which `value` has been read so far, so reading
them leads to `value` (`decodeFrom_leading`), and what is read from `value` on is what has to stand
behind them (`exists_used_leading`).

The writer keeps its numbers in words and its digits in an array. `encodeWithin?` follows it with both,
and gives nothing where a digit would not fit or one would be subtracted from zero.
-/

namespace BitcoinPeer.Varint

variable {last : Bool} {n value : Nat} {b : UInt8} {bs rest written : Bytes}

/-! ### Digits -/

/-- The digit that is taken off a number. -/
def digit (last : Bool) (n : Nat) : UInt8 :=
  UInt8.ofNat (n % 128 + if last then 0 else 128)

theorem toNat_digit (last : Bool) (n : Nat) :
    (digit last n).toNat = n % 128 + if last then 0 else 128 := by
  have hlt : n % 128 < 128 := Nat.mod_lt n (by decide)
  cases last with
  | true => exact Nat.mod_eq_of_lt (show n % 128 + 0 < 256 by omega)
  | false => exact Nat.mod_eq_of_lt (show n % 128 + 128 < 256 by omega)

theorem digit_lt_iff : digit last n < 128 ↔ last = true := by
  have hlt : n % 128 < 128 := Nat.mod_lt n (by decide)
  rw [UInt8.lt_iff_toNat_lt, toNat_digit]
  cases last with
  | true => exact iff_of_true hlt rfl
  | false => exact iff_of_false (Nat.not_lt.mpr (Nat.le_add_left _ _)) Bool.false_ne_true

/-- A byte is the digit of every number that it is the last digit of. -/
theorem digit_eq (value : Nat) (h : last = decide (b < 128)) :
    digit last (value * 128 + b.toNat % 128) = b := by
  have hb : b.toNat < 256 := b.toNat_lt
  have hlast : b < 128 ↔ b.toNat < 128 := UInt8.lt_iff_toNat_lt
  apply UInt8.toNat_inj.mp
  rw [toNat_digit, h]
  by_cases hsmall : b < 128
  · have hlt := hlast.mp hsmall
    simp only [hsmall, decide_true, if_true]
    omega
  · have hge := mt hlast.mpr hsmall
    simp only [hsmall, decide_false, Bool.false_eq_true, if_false]
    omega

/-- The digits that have been read when the value so far is `value`. The first of them makes it at
least one, so it is zero only in front of all digits. -/
def leading (value : Nat) (written : Bytes) : Bytes :=
  if value = 0 then written else encodeOnto false (value - 1) written

theorem leading_succ (value : Nat) (written : Bytes) :
    leading (value + 1) written = encodeOnto false value written := rfl

theorem encodeOnto_eq (last : Bool) (n : Nat) (written : Bytes) :
    encodeOnto last n written = leading (n / 128) (digit last n :: written) := by
  rw [encodeOnto, leading]
  by_cases h : n < 128
  · rw [if_pos h, if_pos (Nat.div_eq_of_lt h)]
    rfl
  · have hleft : n / 128 ≠ 0 := by omega
    rw [if_neg h, if_neg hleft]
    rfl

theorem leading_append (value : Nat) (written rest : Bytes) :
    leading value written ++ rest = leading value (written ++ rest) := by
  induction value using Nat.strongRecOn generalizing written with
  | ind value ih =>
    cases value with
    | zero => rfl
    | succ n =>
      have hlt : n / 128 < n + 1 := by omega
      rw [leading_succ, leading_succ, encodeOnto_eq, encodeOnto_eq, ih _ hlt, List.cons_append]

/-! ### What was written is read -/

/-- Reading the last digit of a number, behind what is left of it. -/
theorem decodeFrom_digit (h : n < UInt64.size) :
    decodeFrom (n / 128) (digit last n :: rest) =
      if last then .ok (UInt64.ofNat n, rest)
      else if UInt64.size ≤ n + 1 then .error .varintOverflow
      else decodeFrom (n + 1) rest := by
  have hroom : ¬UInt64.size / 128 ≤ n / 128 := by
    simp only [UInt64.size] at h ⊢
    omega
  have hvalue : n / 128 * 128 + (digit last n).toNat % 128 = n := by
    rw [toNat_digit]
    split <;> omega
  rw [Decoder.decodeFrom_cons, if_neg hroom, hvalue]
  simp only [digit_lt_iff]

theorem decodeFrom_leading (h : value < UInt64.size) :
    decodeFrom 0 (leading value rest) = decodeFrom value rest := by
  induction value using Nat.strongRecOn generalizing rest with
  | ind value ih =>
    cases value with
    | zero => rfl
    | succ n =>
      have hlt : n / 128 < n + 1 := by omega
      have hread : decodeFrom 0 (leading (n / 128) (digit false n :: rest)) =
          decodeFrom (n / 128) (digit false n :: rest) := ih (n / 128) hlt (Nat.lt_trans hlt h)
      rw [leading_succ, encodeOnto_eq, hread, decodeFrom_digit (Nat.lt_of_succ_lt h),
        if_neg Bool.false_ne_true, if_neg (Nat.not_le.mpr h)]

theorem reads_decode (n : UInt64) : decode.Reads (encode n) n := by
  intro rest
  have hlt : n.toNat / 128 < UInt64.size := Nat.lt_of_le_of_lt (Nat.div_le_self _ _) n.toNat_lt
  show decodeFrom 0 (encodeOnto true n.toNat [] ++ rest) = _
  rw [encodeOnto_eq, leading_append, decodeFrom_leading hlt, List.singleton_append,
    decodeFrom_digit n.toNat_lt, if_pos rfl, UInt64.ofNat_toNat]

/-! ### What is read was written -/

/-- What is read from a value on has to stand behind the digits of that value. -/
theorem exists_used_leading {m : UInt64} (h : decodeFrom value bs = .ok (m, rest)) :
    ∃ used, bs = used ++ rest ∧ encode m = leading value used := by
  induction bs generalizing value with
  | nil => cases h
  | cons b bs ih =>
    rw [Decoder.decodeFrom_cons] at h
    have hstep : ∀ last, last = decide (b < 128) → ∀ written,
        encodeOnto last (value * 128 + b.toNat % 128) written = leading value (b :: written) := by
      intro last hlast written
      have hdiv : (value * 128 + b.toNat % 128) / 128 = value := by omega
      rw [encodeOnto_eq, hdiv, digit_eq value hlast]
    split_ifs at h with hroom hlast hnext
    · cases h
      have hvalue : (UInt64.ofNat (value * 128 + b.toNat % 128)).toNat = value * 128 + b.toNat % 128 :=
        UInt64.toNat_ofNat_of_lt' (by simp only [UInt64.size] at hroom ⊢; omega)
      exact ⟨[b], rfl, by rw [encode, hvalue, hstep true (by simp [hlast])]⟩
    · obtain ⟨used, rfl, hused⟩ := ih h
      exact ⟨b :: used, rfl, by rw [hused, leading_succ, hstep false (by simp [hlast])]⟩

theorem exact_decode : decode.Exact [] encode :=
  fun _ _ _ h => exists_used_leading h

theorem run_decode_eq_ok_iff {n : UInt64} : decode.run bs = .ok (n, rest) ↔ bs = encode n ++ rest := by
  constructor
  · intro h
    obtain ⟨used, rfl, hused⟩ := exact_decode h
    rw [hused, List.nil_append]
  · rintro rfl
    exact reads_decode n rest

theorem encode_pos (n : UInt64) : 0 < (encode n).length := by
  have hread := (reads_decode n).run_eq
  cases hencode : encode n with
  | nil =>
    rw [hencode] at hread
    cases hread
  | cons b bs => exact Nat.succ_pos _

theorem error_of_decodeFrom {e : DecodeError} (h : decodeFrom value bs = .error e) :
    e = .truncated 1 ∨ e = .varintOverflow := by
  induction bs generalizing value with
  | nil =>
    cases h
    exact .inl rfl
  | cons b bs ih =>
    rw [Decoder.decodeFrom_cons] at h
    split_ifs at h
    · cases h
      exact .inr rfl
    · cases h
      exact .inr rfl
    · exact ih h

/-! ### Words and room for ten digits -/

/-- Writes the digits of a word into an array that has so much room left, with the operations on words.
Nothing comes of it if there is no room for a digit or if one is subtracted from zero. -/
def encodeWithin? : (room : Nat) → (last : Bool) → (n : UInt64) → (written : Bytes) → Option Bytes
  | 0, _, _, _ => none
  | room + 1, last, n, written =>
    let written := ((n &&& 0x7f).toUInt8 ||| if last then 0 else 0x80) :: written
    if n ≤ 0x7f then some written
    else if n >>> 7 = 0 then none
    else encodeWithin? room false (n >>> 7 - 1) written

theorem toNat_low (n : UInt64) : (n &&& 0x7f).toUInt8.toNat = n.toNat % 128 := by
  have hand : n.toNat &&& 127 = n.toNat % 128 := Nat.and_two_pow_sub_one_eq_mod n.toNat 7
  rw [UInt64.toNat_toUInt8, UInt64.toNat_and]
  show (n.toNat &&& 127) % 256 = _
  omega

theorem low_or_eq_digit (last : Bool) (n : UInt64) :
    ((n &&& 0x7f).toUInt8 ||| if last then 0 else 0x80) = digit last n.toNat := by
  apply UInt8.toNat_inj.mp
  rw [UInt8.toNat_or, toNat_low, toNat_digit]
  cases last with
  | true => simp
  | false =>
    have hlt : n.toNat % 128 < 2 ^ 7 := Nat.mod_lt _ (by decide)
    have hor : 2 ^ 7 * 1 + n.toNat % 128 = 2 ^ 7 * 1 ||| n.toNat % 128 :=
      Nat.two_pow_add_eq_or_of_lt hlt 1
    rw [Nat.or_comm]
    show 2 ^ 7 * 1 ||| n.toNat % 128 = n.toNat % 128 + 128
    omega

theorem toNat_shift (n : UInt64) : (n >>> 7).toNat = n.toNat / 128 := by
  rw [UInt64.toNat_shiftRight]
  exact Nat.shiftRight_eq_div_pow n.toNat 7

theorem encodeWithin?_eq (room : Nat) (last : Bool) (n : UInt64) (written : Bytes)
    (h : n.toNat < 128 ^ (room + 1)) :
    encodeWithin? (room + 1) last n written = some (encodeOnto last n.toNat written) := by
  induction room generalizing last n written with
  | zero =>
    have hsmall : n ≤ 0x7f := UInt64.le_iff_toNat_le.mpr (Nat.le_of_lt_succ h)
    have hone : n.toNat < 128 := h
    rw [encodeWithin?, encodeOnto, low_or_eq_digit, if_pos hsmall, if_pos hone, digit]
  | succ room ih =>
    rw [encodeWithin?, encodeOnto, low_or_eq_digit]
    by_cases hsmall : n.toNat < 128
    · rw [if_pos (UInt64.le_iff_toNat_le.mpr (Nat.le_of_lt_succ hsmall)), if_pos hsmall, digit]
    · have hlarge : ¬n ≤ 0x7f := fun hle => hsmall (Nat.lt_succ_of_le (UInt64.le_iff_toNat_le.mp hle))
      have hshift := toNat_shift n
      have hone : (1 : UInt64) ≤ n >>> 7 :=
        UInt64.le_iff_toNat_le.mpr (by rw [hshift, UInt64.toNat_one]; omega)
      have hne : n >>> 7 ≠ 0 := fun heq => by
        rw [heq, UInt64.toNat_zero] at hshift
        omega
      have hleft : (n >>> 7 - 1).toNat = n.toNat / 128 - 1 := by
        rw [UInt64.toNat_sub_of_le _ _ hone, hshift, UInt64.toNat_one]
      have hbound : (n >>> 7 - 1).toNat < 128 ^ (room + 1) := by
        rw [Nat.pow_succ] at h
        omega
      rw [if_neg hlarge, if_neg hne, if_neg hsmall, ih false _ _ hbound, hleft, digit]

/-- **One form for every number**: ten digits have room for a word and nothing is subtracted from zero
on the way; a number is read from its form, whatever follows, and from nothing else; and other bytes are
refused, for an overflow only if no bytes behind them would help. -/
theorem run_decode_iff_encode (n : UInt64) (bs rest more : Bytes) :
    encodeWithin? 10 true n [] = some (encode n) ∧
      (decode.run bs = .ok (n, rest) ↔ bs = encode n ++ rest) ∧
      ((∀ m rest', bs ≠ encode m ++ rest') →
        decode.run bs = .error (.truncated 1) ∨ decode.run bs = .error .varintOverflow) ∧
      (decode.run bs = .error .varintOverflow → decode.run (bs ++ more) = .error .varintOverflow) := by
  have hroom : n.toNat < 128 ^ 10 := Nat.lt_trans n.toNat_lt (by decide)
  refine ⟨encodeWithin?_eq 9 true n [] hroom, run_decode_eq_ok_iff, ?_, ?_⟩
  · intro hother
    cases hrun : decode.run bs with
    | ok p => exact absurd (run_decode_eq_ok_iff.mp hrun) (hother p.1 p.2)
    | error e =>
      rcases error_of_decodeFrom hrun with rfl | rfl
      · exact .inl rfl
      · exact .inr rfl
  · intro hoverflow
    exact Decoder.streams_varint.error_append hoverflow rfl more

/-- The greatest number, and the one after it, which is too large. -/
theorem run_decode_iff_encode_greatest :
    let greatest : Bytes := [0x80, 0xfe, 0xfe, 0xfe, 0xfe, 0xfe, 0xfe, 0xfe, 0xfe, 0x7f]
    let tooLarge : Bytes := [0x80, 0xfe, 0xfe, 0xfe, 0xfe, 0xfe, 0xfe, 0xfe, 0xff, 0x00]
    encodeWithin? 10 true 0xffffffffffffffff [] = some greatest ∧
      decode.run (greatest ++ [5]) = .ok (0xffffffffffffffff, [5]) ∧
      (∀ n rest, tooLarge ≠ encode n ++ rest) ∧
      decode.run tooLarge = .error .varintOverflow ∧
      ∀ more, decode.run (tooLarge ++ more) = .error .varintOverflow := by
  intro greatest tooLarge
  have hread : decode.run (greatest ++ [5]) = .ok (0xffffffffffffffff, [5]) := by decide
  have hrefused : decode.run tooLarge = .error .varintOverflow := by decide
  have hwritten := fun more => run_decode_iff_encode 0xffffffffffffffff (greatest ++ [5]) [5] more
  have hother : ∀ n rest, tooLarge ≠ encode n ++ rest := by
    intro n rest heq
    rw [(run_decode_iff_encode n tooLarge rest []).2.1.mpr heq] at hrefused
    cases hrefused
  have hencode : greatest = encode 0xffffffffffffffff :=
    List.append_cancel_right ((hwritten []).2.1.mp hread)
  refine ⟨hencode ▸ (hwritten []).1, hread, hother, hrefused, ?_⟩
  intro more
  obtain ⟨-, -, -, hlonger⟩ := run_decode_iff_encode 0 tooLarge [] more
  exact hlonger hrefused

end BitcoinPeer.Varint
