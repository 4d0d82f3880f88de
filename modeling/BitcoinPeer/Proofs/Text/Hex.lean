import BitcoinPeer.Text.Json.Reader
import BitcoinPeer.Proofs.Codec.Numbers
import BitcoinPeer.Proofs.Codec.Reading

/-!
# Hexadecimal text and what it stands for

A text is decoded exactly if its characters are the digits of the two halves of each byte
(`decode_eq_ok_iff`), whatever bytes its characters take up. Hence a hash is read from 64 digits of
either case and from nothing else, prints as these digits in lower case (`ofHex_eq_ok_iff`) and is the
number they stand for (`toNat_of_ofHex`).
-/

namespace BitcoinPeer

open Json (hexDigit?)

namespace Hex

variable {c : Char} {cs : List Char} {bs ds : Bytes} {text : String} {n v : Nat}

/-- The halves of each byte, the high one first. -/
def nibbles (bs : Bytes) : Bytes :=
  bs.flatMap fun b => [b / 16, b % 16]

/-- The characters are the digits of the halves of each byte. -/
def DigitsOf (cs : List Char) (bs : Bytes) : Prop :=
  cs.map hexDigit? = (nibbles bs).map (some ·.toNat)

/-- The number that digits stand for, the most significant one first. -/
def number (cs : List Char) : Nat :=
  cs.foldl (fun n c => 16 * n + (hexDigit? c).getD 0) 0

/-! ### Digits -/

theorem digitValue?_ascii : ∀ k < 128,
    digitValue? (UInt8.ofNat k) = (hexDigit? (Char.ofNat k)).map UInt8.ofNat := by
  decide

theorem hexDigit?_ascii : ∀ k < 128, ∀ v ∈ hexDigit? (Char.ofNat k),
    v < 16 ∧ (Char.ofNat k).toLower = digit v := by
  decide

theorem hexDigit?_digit : ∀ n < 16, hexDigit? (digit n) = some n := by
  decide

theorem toNat_lt_of_hexDigit? (h : (hexDigit? c).isSome) : c.toNat < 128 := by
  have hle : ∀ d : Char, d.toNat < 128 → c ≤ d → c.toNat < 128 := fun d hd hc =>
    Nat.lt_of_le_of_lt (UInt32.le_iff_toNat_le.mp hc) hd
  unfold hexDigit? at h
  split_ifs at h with h₁ h₂ h₃
  · exact hle '9' (by decide) h₁.2
  · exact hle 'f' (by decide) h₂.2
  · exact hle 'F' (by decide) h₃.2
  · cases h

/-- The value of a digit, which is the same digit in lower case. -/
theorem lt_and_toLower_eq (h : hexDigit? c = some v) : v < 16 ∧ c.toLower = digit v := by
  have hlt : c.toNat < 128 := toNat_lt_of_hexDigit? (by simp [h])
  have hascii := hexDigit?_ascii c.toNat hlt v
  rw [Char.ofNat_toNat] at hascii
  exact hascii h

/-- A digit is one byte of the same value. -/
theorem map_utf8EncodeChar_of_some (h : hexDigit? c = some v) :
    (String.utf8EncodeChar c).map digitValue? = [some (UInt8.ofNat v)] := by
  have hlt : c.toNat < 128 := toNat_lt_of_hexDigit? (by simp [h])
  have hvalue := digitValue?_ascii c.toNat hlt
  rw [Char.ofNat_toNat, h] at hvalue
  rw [String.utf8EncodeChar, if_pos (by exact Nat.le_of_lt_succ hlt)]
  exact congrArg ([·]) hvalue

theorem digitValue?_eq_none {b : UInt8} (h : 128 ≤ b.toNat) : digitValue? b = none := by
  have hle : ∀ k : UInt8, k.toNat < 128 → ¬ b ≤ k := by
    intro k hk hb
    have := UInt8.le_iff_toNat_le.mp hb
    omega
  simp [digitValue?, hle 57 (by decide), hle 102 (by decide), hle 70 (by decide)]

/-- The first byte of any other character is no digit. -/
theorem head?_utf8EncodeChar_of_none (h : hexDigit? c = none) :
    ((String.utf8EncodeChar c).map digitValue?).head? = some none := by
  rw [String.utf8EncodeChar]
  split_ifs with hascii
  · have hvalue := digitValue?_ascii c.toNat (Nat.lt_succ_of_le hascii)
    rw [Char.ofNat_toNat, h] at hvalue
    exact congrArg some hvalue
  all_goals
    rw [List.map_cons, List.head?_cons, digitValue?_eq_none]
    rw [UInt8.toNat_ofNat']
    omega

/-- The digits among the bytes of a text are those among its characters. -/
theorem map_digitValue?_utf8 {vs : Bytes} :
    (cs.flatMap String.utf8EncodeChar).map digitValue? = vs.map some ↔
      cs.map hexDigit? = vs.map (some ·.toNat) := by
  induction cs generalizing vs with
  | nil => cases vs <;> simp
  | cons c cs ih =>
    rw [List.flatMap_cons, List.map_append, List.map_cons]
    cases hc : hexDigit? c with
    | some v =>
      rw [map_utf8EncodeChar_of_some hc, List.singleton_append]
      have hv := (lt_and_toLower_eq hc).1
      have hnat : (UInt8.ofNat v).toNat = v := UInt8.toNat_ofNat_of_lt' (by rw [UInt8.size]; omega)
      cases vs with
      | nil => simp
      | cons w vs =>
        rw [List.map_cons, List.map_cons, List.cons.injEq, List.cons.injEq, ih, Option.some_inj,
          Option.some_inj, ← UInt8.toNat_inj, hnat]
    | none =>
      cases vs with
      | nil => simp
      | cons w vs =>
        have hhead := head?_utf8EncodeChar_of_none hc
        have hne : (String.utf8EncodeChar c).map digitValue? ++
            (cs.flatMap String.utf8EncodeChar).map digitValue? ≠ (w :: vs).map some := by
          intro heq
          have := congrArg List.head? heq
          rw [List.head?_append, hhead] at this
          simp at this
        exact iff_of_false hne (by simp)

/-! ### Decoding -/

theorem nibbles_cons (b : UInt8) (bs : Bytes) :
    nibbles (b :: bs) = b / 16 :: b % 16 :: nibbles bs :=
  rfl

theorem length_nibbles (bs : Bytes) : (nibbles bs).length = 2 * bs.length := by
  induction bs with
  | nil => rfl
  | cons b bs ih =>
    rw [nibbles_cons, List.length_cons, List.length_cons, List.length_cons, ih]
    omega

theorem digitValue?_lt {b v : UInt8} (h : digitValue? b = some v) : v.toNat < 16 := by
  have hascii : b.toNat < 128 := by
    by_contra hle
    rw [digitValue?_eq_none (by omega)] at h
    cases h
  have hvalue := digitValue?_ascii b.toNat hascii
  rw [UInt8.ofNat_toNat, h] at hvalue
  obtain ⟨n, hn, rfl⟩ := Option.map_eq_some_iff.mp hvalue.symm
  have hlt := (hexDigit?_ascii b.toNat hascii n hn).1
  rw [UInt8.toNat_ofNat']
  omega

/-- Two digits are the halves of the byte that is read from them, and of no other. -/
theorem halves_eq_iff {high low b : UInt8} (hhigh : high.toNat < 16) (hlow : low.toNat < 16) :
    high * 16 + low = b ↔ high = b / 16 ∧ low = b % 16 := by
  simp only [← UInt8.toNat_inj, UInt8.toNat_add, UInt8.toNat_mul, UInt8.toNat_div, UInt8.toNat_mod,
    UInt8.reduceToNat]
  have := b.toNat_lt
  omega

/-- Bytes are read from the digits of their halves and from nothing else. -/
theorem decodePairs_eq_ok_iff (position : Nat) :
    decodePairs position ds = .ok bs ↔ ds.map digitValue? = (nibbles bs).map some := by
  induction position, ds using decodePairs.induct generalizing bs with
  | case1 => cases bs <;> simp [decodePairs, nibbles]
  | case2 => cases bs <;> simp [decodePairs, nibbles]
  | case3 position high low rest hnone => cases bs <;> simp [decodePairs, hnone, nibbles]
  | case4 position high low rest h hnone hhigh =>
    cases bs <;> simp [decodePairs, hhigh, hnone, nibbles]
  | case5 position high low rest h l hlow hhigh ih =>
    rw [decodePairs, hhigh, hlow]
    cases bs with
    | nil =>
      cases decodePairs (position + 2) rest <;>
        simp [bind, Except.bind, pure, Except.pure, nibbles]
    | cons b bs =>
      rw [nibbles_cons, List.map_cons, List.map_cons, List.map_cons, List.map_cons, hhigh, hlow,
        List.cons.injEq, List.cons.injEq, Option.some_inj, Option.some_inj, ← ih, ← and_assoc,
        ← halves_eq_iff (digitValue?_lt hhigh) (digitValue?_lt hlow)]
      cases decodePairs (position + 2) rest <;> simp [bind, Except.bind, pure, Except.pure]

theorem length_of_decodePairs {position : Nat} (h : decodePairs position ds = .ok bs) :
    ds.length = 2 * bs.length := by
  have hlen := congrArg List.length ((decodePairs_eq_ok_iff position).mp h)
  rwa [List.length_map, List.length_map, length_nibbles] at hlen

/-- **Decoding a text** gives the bytes whose halves its characters are the digits of. -/
theorem decode_eq_ok_iff : decode text = .ok bs ↔ DigitsOf text.toList bs := by
  have hbytes : text.toUTF8.toList = text.toList.flatMap String.utf8EncodeChar := by
    rw [Decoder.toList_toUTF8, ← String.utf8Encode_toList, List.utf8Encode]
    simp
  rw [DigitsOf, ← map_digitValue?_utf8, ← hbytes, ← decodePairs_eq_ok_iff 0, decode]
  split_ifs with hodd
  · refine iff_of_false (by simp) fun h => ?_
    have := length_of_decodePairs h
    omega
  · rfl

/-! ### The digits of bytes -/

theorem DigitsOf.map_eq (h : DigitsOf cs bs) :
    cs.map hexDigit? = (nibbles bs).map (some ·.toNat) :=
  h

theorem DigitsOf.length_eq (h : DigitsOf cs bs) : cs.length = 2 * bs.length := by
  have hlen := congrArg List.length h.map_eq
  rwa [List.length_map, List.length_map, length_nibbles] at hlen

/-- Each character is a digit. -/
theorem DigitsOf.isSome (h : DigitsOf cs bs) {c : Char} (hc : c ∈ cs) : (hexDigit? c).isSome := by
  have hmem := List.mem_map_of_mem (f := hexDigit?) hc
  rw [h.map_eq] at hmem
  obtain ⟨v, -, hv⟩ := List.mem_map.mp hmem
  rw [← hv]
  rfl

theorem encodeChars_eq_map (bs : Bytes) :
    encodeChars bs = (nibbles bs).map fun v => digit v.toNat := by
  induction bs with
  | nil => rfl
  | cons b bs ih =>
    rw [nibbles_cons, List.map_cons, List.map_cons, ← ih, UInt8.toNat_div, UInt8.toNat_mod]
    rfl

theorem toNat_lt_of_mem_nibbles {w : UInt8} (h : w ∈ nibbles bs) : w.toNat < 16 := by
  obtain ⟨b, -, hb⟩ := List.mem_flatMap.mp h
  have := b.toNat_lt
  simp only [List.mem_cons, List.not_mem_nil, or_false] at hb
  obtain rfl | rfl := hb
  · rw [UInt8.toNat_div]
    exact Nat.div_lt_of_lt_mul this
  · rw [UInt8.toNat_mod]
    exact Nat.mod_lt _ (by decide)

theorem digitsOf_encodeChars (bs : Bytes) : DigitsOf (encodeChars bs) bs := by
  rw [DigitsOf, encodeChars_eq_map, List.map_map]
  exact List.map_congr_left fun v hv => hexDigit?_digit _ (toNat_lt_of_mem_nibbles hv)

/-- Bytes that are written are read back. -/
theorem decode_encode (bs : Bytes) : decode (encode bs) = .ok bs := by
  rw [decode_eq_ok_iff, encode, String.toList_ofList]
  exact digitsOf_encodeChars bs

/-- Digits of either case are those of the bytes that are written with them in lower case. -/
theorem digitsOf_iff_toLower (hcs : ∀ c ∈ cs, (hexDigit? c).isSome) :
    DigitsOf cs bs ↔ encodeChars bs = cs.map Char.toLower := by
  have hlower : ∀ c ∈ cs, c.toLower = digit ((hexDigit? c).getD 0) := by
    intro c hc
    obtain ⟨v, hv⟩ := Option.isSome_iff_exists.mp (hcs c hc)
    rw [hv, (lt_and_toLower_eq hv).2, Option.getD_some]
  have hdigit : ∀ c ∈ cs, hexDigit? c.toLower = hexDigit? c := by
    intro c hc
    obtain ⟨v, hv⟩ := Option.isSome_iff_exists.mp (hcs c hc)
    obtain ⟨hlt, hc⟩ := lt_and_toLower_eq hv
    rw [hc, hv, hexDigit?_digit v hlt]
  constructor <;> intro h
  · calc encodeChars bs
      _ = (cs.map hexDigit?).map (fun o => digit (o.getD 0)) := by
        rw [h.map_eq, List.map_map, encodeChars_eq_map]
        rfl
      _ = cs.map Char.toLower := by
        rw [List.map_map]
        exact (List.map_congr_left hlower).symm
  · calc cs.map hexDigit?
      _ = (cs.map Char.toLower).map hexDigit? := by
        rw [List.map_map]
        exact (List.map_congr_left hdigit).symm
      _ = (nibbles bs).map (some ·.toNat) := h ▸ digitsOf_encodeChars bs

/-- An even number of digits are those of some bytes. -/
theorem exists_digitsOf (heven : cs.length % 2 = 0) (hcs : ∀ c ∈ cs, (hexDigit? c).isSome) :
    ∃ bs, DigitsOf cs bs := by
  induction cs using List.twoStepInduction with
  | nil => exact ⟨[], rfl⟩
  | singleton c => simp at heven
  | cons_cons high low cs ih _ =>
    rw [List.forall_mem_cons, List.forall_mem_cons] at hcs
    obtain ⟨hhigh, hlow, hcs⟩ := hcs
    obtain ⟨bs, hbs⟩ := ih (by simp only [List.length_cons] at heven; omega) hcs
    obtain ⟨v, hv⟩ := Option.isSome_iff_exists.mp hhigh
    obtain ⟨w, hw⟩ := Option.isSome_iff_exists.mp hlow
    have hvlt := (lt_and_toLower_eq hv).1
    have hwlt := (lt_and_toLower_eq hw).1
    have hbyte : (UInt8.ofNat (16 * v + w)).toNat = 16 * v + w :=
      UInt8.toNat_ofNat_of_lt' (by rw [UInt8.size]; omega)
    have hdiv : (UInt8.ofNat (16 * v + w) / 16).toNat = v := by
      rw [UInt8.toNat_div, hbyte, show (16 : UInt8).toNat = 16 from rfl]
      omega
    have hmod : (UInt8.ofNat (16 * v + w) % 16).toNat = w := by
      rw [UInt8.toNat_mod, hbyte, show (16 : UInt8).toNat = 16 from rfl]
      omega
    refine ⟨UInt8.ofNat (16 * v + w) :: bs, ?_⟩
    simp only [DigitsOf, nibbles_cons, List.map_cons, hv, hw, hdiv, hmod, hbs.map_eq]

/-- The number that the digits of bytes stand for is that of the bytes, the first one in front. -/
theorem number_eq_toNatBE (h : DigitsOf cs bs) : number cs = Bytes.toNatBE bs := by
  have hfold : ∀ (bs : Bytes) (n : Nat),
      ((nibbles bs).map (some ·.toNat)).foldl (fun n o => 16 * n + o.getD 0) n =
        256 ^ bs.length * n + Bytes.toNatBE bs := by
    intro bs
    induction bs with
    | nil => simp [nibbles, Bytes.toNatBE, Bytes.toNatLE]
    | cons b bs ih =>
      intro n
      have hb : 16 * (16 * n + b.toNat / 16) + b.toNat % 16 = 256 * n + b.toNat := by omega
      simp only [nibbles_cons, List.map_cons, List.foldl_cons, ih, Option.getD_some,
        UInt8.toNat_div, UInt8.toNat_mod, UInt8.reduceToNat, hb, Bytes.toNatBE_cons, List.length_cons]
      ring
  rw [number, ← List.foldl_map (f := hexDigit?) (g := fun n o => 16 * n + o.getD 0),
    h.map_eq, hfold, Nat.mul_zero, Nat.zero_add]

end Hex

namespace Hash256

/-- A text of 64 hexadecimal digits, each of either case. -/
def IsNumeral (text : String) : Prop :=
  text.length = 64 ∧ ∀ c ∈ text.toList, (hexDigit? c).isSome

variable {text : String} {h : Hash256}

/-- The hash that is read has the bytes the characters are the digits of, the last byte in front. -/
theorem ofHex_eq_ok_iff_digits :
    ofHex text = .ok h ↔ Hex.DigitsOf text.toList h.bytes.reverse := by
  rw [← Hex.decode_eq_ok_iff, ofHex]
  cases hdecode : Hex.decode text with
  | error e => exact iff_of_false (by simp [bind, Except.bind]) (by simp)
  | ok bs =>
    have hbytes : bs = h.bytes.reverse ↔ ofBytes? bs.reverse = some h := by
      rw [ofBytes?_eq_some_iff, ← List.reverse_eq_iff, eq_comm]
    rw [Except.ok.injEq, hbytes]
    simp only [bind, Except.bind]
    cases ofBytes? bs.reverse <;> simp [pure, Except.pure, throw, throwThe, MonadExceptOf.throw]

/-- **Reading a hash** takes 64 digits of either case and nothing else, and gives the hash that is
written with these digits in lower case. -/
theorem ofHex_eq_ok_iff : ofHex text = .ok h ↔ IsNumeral text ∧ h.toHex = text.toLower := by
  have hlower : h.toHex = text.toLower ↔
      Hex.encodeChars h.bytes.reverse = text.toList.map Char.toLower := by
    have htext : text.toLower.toList = text.toList.map Char.toLower := String.toList_map
    rw [← String.toList_inj, toHex, Hex.encode, String.toList_ofList, htext]
  rw [ofHex_eq_ok_iff_digits, hlower]
  constructor
  · intro hdigits
    have hlength : text.toList.length = 64 := by
      rw [hdigits.length_eq, List.length_reverse, length_bytes]
    have ht : IsNumeral text := ⟨hlength, fun c => hdigits.isSome⟩
    exact ⟨ht, (Hex.digitsOf_iff_toLower ht.2).mp hdigits⟩
  · rintro ⟨ht, hchars⟩
    exact (Hex.digitsOf_iff_toLower ht.2).mpr hchars

theorem exists_ofHex (ht : IsNumeral text) : ∃ h, ofHex text = .ok h := by
  have hlength : text.toList.length = 64 := ht.1
  obtain ⟨bs, hbs⟩ := Hex.exists_digitsOf (by rw [hlength]) ht.2
  have hbytes : bs.reverse.length = 32 := by
    have := hbs.length_eq
    rw [List.length_reverse]
    omega
  have hdigits : Hex.DigitsOf text.toList bs.reverse.reverse := by rwa [List.reverse_reverse]
  exact ⟨⟨⟨bs.reverse, hbytes⟩⟩, ofHex_eq_ok_iff_digits.mpr hdigits⟩

/-- The hash is the number that the digits stand for. -/
theorem toNat_of_ofHex (ht : ofHex text = .ok h) : h.toNat = Hex.number text.toList := by
  rw [Hex.number_eq_toNatBE (ofHex_eq_ok_iff_digits.mp ht), Bytes.toNatBE, List.reverse_reverse]
  rfl

/-- A text and the hash it stands for: the number is that of the digits, and the hash prints as the
same digits in lower case. -/
structure Denotes (text : String) (h : Hash256) : Prop where
  numeral : IsNumeral text
  toHex : h.toHex = text.toLower
  toNat : h.toNat = Hex.number text.toList

theorem denotes_of_ofHex (ht : ofHex text = .ok h) : Denotes text h where
  numeral := (ofHex_eq_ok_iff.mp ht).1
  toHex := (ofHex_eq_ok_iff.mp ht).2
  toNat := toNat_of_ofHex ht

/-- What is written is read back. -/
theorem ofHex_toHex (h : Hash256) : ofHex h.toHex = .ok h := by
  rw [ofHex_eq_ok_iff_digits, ← Hex.decode_eq_ok_iff, toHex, Hex.decode_encode]

end Hash256

end BitcoinPeer
