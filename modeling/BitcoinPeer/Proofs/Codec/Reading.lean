import Mathlib.Algebra.BigOperators.Group.List.Basic
import BitcoinPeer.Codec.CompactSize

/-!
# What decoders read

Two relations carry every round trip. `d.Reads bs a` says that `d` takes the value `a` off the front
of any input that begins with `bs`, and exactly `bs` of it; `d.Yields P` says that whatever `d` reads
has the property `P`. Both go through sequences and repetitions, so the statement for a record follows
from those for its fields.
-/

namespace BitcoinPeer

/-- A list that may be written: no longer than a length may say, and of elements that may be written. -/
structure AllFit {α : Type} (Fits : α → Prop) (as : List α) : Prop where
  length : as.length ≤ maxLength.toNat
  each : ∀ a ∈ as, Fits a

namespace Decoder

variable {α β : Type} {d : Decoder α} {f : α → Decoder β} {a : α} {b : β} {bs cs : Bytes}
  {P : α → Prop} {Q : β → Prop}

/-- Off an input that begins with `bs`, `d` reads `a` and leaves what follows. -/
def Reads (d : Decoder α) (bs : Bytes) (a : α) : Prop :=
  ∀ rest, d.run (bs ++ rest) = .ok (a, rest)

/-- Every value that `d` reads has a property. -/
def Yields (d : Decoder α) (P : α → Prop) : Prop :=
  ∀ ⦃bs a rest⦄, d.run bs = .ok (a, rest) → P a

/-! ### Sequences -/

theorem exists_of_run_bind {rest : Bytes} (h : (d >>= f).run bs = .ok (b, rest)) :
    ∃ a mid, d.run bs = .ok (a, mid) ∧ (f a).run mid = .ok (b, rest) := by
  rw [run_bind] at h
  cases hrun : d.run bs with
  | error e => simp [hrun] at h
  | ok p =>
    rw [hrun] at h
    exact ⟨p.1, p.2, rfl, h⟩

theorem reads_pure (a : α) : Reads (pure a) [] a :=
  fun _ => rfl

theorem Reads.bind (hd : Reads d bs a) (hf : Reads (f a) cs b) : Reads (d >>= f) (bs ++ cs) b := by
  intro rest
  rw [List.append_assoc, run_bind_ok f (hd (cs ++ rest)), hf rest]

/-- The last field of a record. -/
theorem Reads.ret {g : α → β} (hd : Reads d bs a) : Reads (d >>= fun a => pure (g a)) bs (g a) := by
  intro rest
  rw [run_bind_ok _ (hd rest), run_pure]

theorem Reads.map {g : α → β} (hd : Reads d bs a) : Reads (g <$> d) bs (g a) := by
  rw [map_eq_pure_bind]
  exact hd.ret

theorem Reads.of_eq (h : Reads d bs a) (hbs : cs = bs) : Reads d cs a :=
  hbs ▸ h

theorem Reads.run_eq (h : Reads d bs a) : d.run bs = .ok (a, []) := by
  have hrun := h []
  rwa [List.append_nil] at hrun

theorem Reads.front (h : Reads d bs a) : d.front bs = .ok a := by
  rw [Decoder.front, h.run_eq]
  rfl

theorem yields_pure (ha : P a) : Yields (pure a) P := by
  intro bs a' rest h
  cases h
  exact ha

theorem Yields.bind (hd : Yields d P) (hf : ∀ a, P a → Yields (f a) Q) : Yields (d >>= f) Q := by
  intro bs b rest h
  rw [run_bind] at h
  cases hrun : d.run bs with
  | error e => simp [hrun] at h
  | ok p =>
    rw [hrun] at h
    exact hf p.1 (hd hrun) h

/-- After a first part of which nothing needs to be known. -/
theorem Yields.seq (hf : ∀ a, Yields (f a) Q) : Yields (d >>= f) Q :=
  .bind (P := fun _ => True) (fun _ _ _ _ => trivial) fun a _ => hf a

theorem Yields.mono {R : α → Prop} (hd : Yields d P) (h : ∀ a, P a → R a) : Yields d R :=
  fun _ _ _ hrun => h _ (hd hrun)

theorem Yields.and {R : α → Prop} (hd : Yields d P) (hd' : Yields d R) :
    Yields d fun a => P a ∧ R a :=
  fun _ _ _ hrun => ⟨hd hrun, hd' hrun⟩

theorem Yields.map {g : α → β} (hd : Yields d fun a => Q (g a)) : Yields (g <$> d) Q := by
  rw [map_eq_pure_bind]
  exact hd.bind fun a ha => yields_pure ha

theorem front_eq_ok_iff : d.front bs = .ok a ↔ ∃ rest, d.run bs = .ok (a, rest) := by
  rw [Decoder.front]
  constructor
  · intro h
    cases hrun : d.run bs with
    | error e => simp [hrun, Except.map] at h
    | ok p =>
      rw [hrun] at h
      cases h
      exact ⟨p.2, rfl⟩
  · rintro ⟨rest, hrun⟩
    rw [hrun]
    rfl

theorem Yields.front (hd : Yields d P) (h : d.front bs = .ok a) : P a := by
  obtain ⟨rest, hrun⟩ := front_eq_ok_iff.mp h
  exact hd hrun

/-! ### Repetition -/

theorem reads_replicate {encode : α → Bytes} {canon : α → α} {as : List α}
    (h : ∀ a ∈ as, Reads d (encode a) (canon a)) :
    Reads (replicate d as.length) (as.flatMap encode) (as.map canon) := by
  induction as with
  | nil => exact reads_pure []
  | cons a as ih =>
    rw [List.length_cons, replicate_succ, List.flatMap_cons]
    have has := ih fun a' ha' => h a' (List.mem_cons_of_mem a ha')
    exact .bind (h a List.mem_cons_self) has.ret

theorem Yields.replicate (hd : Yields d P) (n : Nat) :
    Yields (replicate d n) fun as => ∀ a ∈ as, P a := by
  induction n with
  | zero => exact yields_pure fun a ha => absurd ha List.not_mem_nil
  | succ n ih =>
    rw [replicate_succ]
    exact .bind hd fun a ha => .bind ih fun as has => yields_pure (List.forall_mem_cons.mpr ⟨ha, has⟩)

/-! ### Fields of a fixed width -/

theorem reads_octets {n : Nat} (o : Octets n) : Reads (octets n) o.bytes o :=
  run_octets_append o

theorem reads_natLE {n value : Nat} (h : value < Bytes.bound n) :
    Reads (natLE n) (Bytes.ofNatLE n value) value :=
  run_natLE_append h

theorem yields_natLE (n : Nat) : Yields (natLE n) (· < Bytes.bound n) := by
  refine .seq fun field => yields_pure ?_
  have hlt := Bytes.toNatLE_lt field.bytes
  rwa [field.length_bytes] at hlt

theorem reads_uint8 (n : UInt8) : Reads uint8 (Encode.uint8 n) n := by
  have hread : Reads uint8 (Bytes.ofNatLE 1 n.toNat) (UInt8.ofNat n.toNat) :=
    .ret (reads_natLE n.toNat_lt)
  rwa [Bytes.ofNatLE, Bytes.ofNatLE, UInt8.ofNat_toNat] at hread

theorem reads_bool (b : Bool) : Reads bool (Encode.bool b) b := by
  have hread : Reads bool (Encode.bool b) ((if b then 1 else 0 : UInt8) != 0) :=
    .ret (reads_uint8 (if b then 1 else 0))
  cases b <;> exact hread

theorem reads_uint16BE (n : UInt16) : Reads uint16BE (Encode.uint16BE n) n := by
  have hread : Reads uint16BE (Encode.uint16BE n) (UInt16.ofNat (Bytes.toNatBE (Encode.uint16BE n))) :=
    .ret (reads_octets ⟨Encode.uint16BE n, Bytes.length_ofNatBE 2 n.toNat⟩)
  have hlt : n.toNat < Bytes.bound 2 := n.toNat_lt
  have hvalue : Bytes.toNatBE (Encode.uint16BE n) = n.toNat := by
    simp only [Bytes.toNatBE, Encode.uint16BE, Bytes.ofNatBE, List.reverse_reverse]
    rw [Bytes.toNatLE_ofNatLE, Nat.mod_eq_of_lt hlt]
  rwa [hvalue, UInt16.ofNat_toNat] at hread

theorem reads_uint32 (n : UInt32) : Reads uint32 (Encode.uint32 n) n := by
  have hread : Reads uint32 (Encode.uint32 n) (UInt32.ofNat n.toNat) := .ret (reads_natLE n.toNat_lt)
  rwa [UInt32.ofNat_toNat] at hread

theorem reads_int32 (n : Int32) : Reads int32 (Encode.int32 n) n := by
  have hread : Reads int32 (Encode.int32 n) n.toUInt32.toInt32 := .ret (reads_uint32 n.toUInt32)
  rwa [Int32.toInt32_toUInt32] at hread

theorem reads_uint64 (n : UInt64) : Reads uint64 (Encode.uint64 n) n := by
  have hread : Reads uint64 (Encode.uint64 n) (UInt64.ofNat n.toNat) := .ret (reads_natLE n.toNat_lt)
  rwa [UInt64.ofNat_toNat] at hread

theorem reads_int64 (n : Int64) : Reads int64 (Encode.int64 n) n := by
  have hread : Reads int64 (Encode.int64 n) n.toUInt64.toInt64 := .ret (reads_uint64 n.toUInt64)
  rwa [Int64.toInt64_toUInt64] at hread

/-! ### Compact sizes -/

/-- A marker and the number behind it. -/
theorem reads_marked {marker : UInt8} {width : Nat} {n : UInt64}
    (hmarker : marker = 0xfd ∧ width = 2 ∨ marker = 0xfe ∧ width = 4 ∨ marker = 0xff ∧ width = 8)
    (hn : n.toNat < Bytes.bound width) :
    Reads CompactSize.decode (marker :: Bytes.ofNatLE width n.toNat) n := by
  have hread : Reads (natLE width >>= fun value => pure (UInt64.ofNat value))
      (Bytes.ofNatLE width n.toNat) (UInt64.ofNat n.toNat) := .ret (reads_natLE hn)
  rw [UInt64.ofNat_toNat] at hread
  obtain ⟨rfl, rfl⟩ | ⟨rfl, rfl⟩ | ⟨rfl, rfl⟩ := hmarker
  all_goals exact .bind (reads_uint8 _) hread

theorem reads_unmarked {n : UInt64} (hn : n.toNat ≤ 0xfc) :
    Reads CompactSize.decode [n.toUInt8] n := by
  have hbyte : n.toUInt8.toNat = n.toNat := Nat.mod_eq_of_lt (by omega)
  have hmarker : ∀ marker : UInt8, 0xfc < marker.toNat → n.toUInt8 ≠ marker := by
    rintro _ hlt rfl
    omega
  have hvalue : n.toUInt8.toUInt64 = n :=
    UInt64.toNat_inj.mp (by rw [UInt8.toNat_toUInt64, hbyte])
  intro rest
  rw [CompactSize.decode, ← Encode.uint8, run_bind_ok _ (reads_uint8 n.toUInt8 rest),
    if_neg (hmarker 0xfd (by decide)), if_neg (hmarker 0xfe (by decide)),
    if_neg (hmarker 0xff (by decide)), hvalue, run_pure]

theorem reads_compactSize (n : UInt64) : Reads CompactSize.decode (CompactSize.encode n) n := by
  unfold CompactSize.encode
  split
  next h => exact reads_unmarked h
  next =>
    split
    next h => exact reads_marked (.inl ⟨rfl, rfl⟩) (Nat.lt_succ_of_le h)
    next =>
      split
      next h => exact reads_marked (.inr (.inl ⟨rfl, rfl⟩)) (Nat.lt_succ_of_le h)
      next => exact reads_marked (.inr (.inr ⟨rfl, rfl⟩)) n.toNat_lt

/-! ### Byte strings, texts and lists -/

/-- A length that may be written is read as it is and allowed. -/
theorem length_ofNat {n : Nat} (h : n ≤ maxLength.toNat) :
    (UInt64.ofNat n).toNat = n ∧ ¬maxLength < UInt64.ofNat n := by
  have hn : (UInt64.ofNat n).toNat = n :=
    UInt64.toNat_ofNat_of_lt' (Nat.lt_of_le_of_lt h maxLength.toNat_lt)
  exact ⟨hn, by rw [UInt64.lt_iff_toNat_lt, hn]; omega⟩

theorem reads_announced (bs : Bytes) : Reads (announced bs.length) bs bs := by
  intro rest
  simp [announced]

theorem run_announced_eq_ok_iff {n : Nat} {field rest : Bytes} :
    (announced n).run bs = .ok (field, rest) ↔ field.length = n ∧ bs = field ++ rest := by
  constructor
  · intro hrun
    unfold announced at hrun
    simp only at hrun
    split at hrun
    · rename_i hlen
      cases hrun
      exact ⟨hlen, (List.take_append_drop n bs).symm⟩
    · cases hrun
  · rintro ⟨rfl, rfl⟩
    exact reads_announced field rest

theorem reads_byteString {bs : Bytes} (h : bs.length ≤ maxLength.toNat) :
    Reads byteString (Encode.byteString bs) bs := by
  obtain ⟨hlen, hmax⟩ := length_ofNat h
  refine .bind (reads_compactSize _) ?_
  rw [if_neg hmax, hlen]
  exact reads_announced bs

theorem toList_loop (bs : ByteArray) (i : Nat) (done : Bytes) :
    ByteArray.toList.loop bs i done = done.reverse ++ bs.data.toList.drop i := by
  fun_induction ByteArray.toList.loop bs i done with
  | case1 i done h ih =>
    have hi : i < bs.data.toList.length := h
    have hget : bs.get! i = bs.data.toList[i] := getElem!_pos bs.data i h
    rw [ih, List.drop_eq_getElem_cons hi, hget, List.reverse_cons, List.append_assoc,
      List.singleton_append]
  | case2 i done h =>
    have hi : bs.data.toList.length ≤ i := Nat.le_of_not_lt h
    rw [List.drop_eq_nil_of_le hi, List.append_nil]

/-- The bytes of a text, as a list. -/
theorem toList_toUTF8 (s : String) : s.toUTF8.toList = s.toByteArray.data.toList :=
  toList_loop s.toByteArray 0 []

theorem reads_text {s : String} (h : s.utf8ByteSize ≤ maxLength.toNat) :
    Reads text (Encode.text s) s := by
  have hbytes : (⟨s.toUTF8.toList.toArray⟩ : ByteArray) = s.toByteArray := by
    rw [toList_toUTF8, Array.toArray_toList]
  have hlen : s.toUTF8.toList.length ≤ maxLength.toNat := by
    rw [toList_toUTF8]
    exact h
  refine .of_eq (.bind (reads_byteString hlen) ?_) (List.append_nil _).symm
  have hvalid : String.fromUTF8? s.toByteArray = some s := by
    rw [String.fromUTF8?, dif_pos s.isValidUTF8]
    rfl
  simp only [hbytes, hvalid]
  exact reads_pure s

section Lists

variable {Fits : α → Prop} {encode : α → Bytes} {canon : α → α} {as : List α}

/-- Where the number of elements is not limited, it is enough that it can be written at all. -/
theorem reads_counted (hlt : as.length < UInt64.size)
    (h : ∀ a ∈ as, Reads d (encode a) (canon a)) :
    Reads (counted d) (Encode.list encode as) (as.map canon) := by
  refine .bind (reads_compactSize _) ?_
  rw [UInt64.toNat_ofNat_of_lt' hlt]
  exact reads_replicate h

theorem reads_list (has : AllFit Fits as) (h : ∀ a, Fits a → Reads d (encode a) (canon a)) :
    Reads (list d) (Encode.list encode as) (as.map canon) := by
  refine .bind (reads_compactSize _) ?_
  rw [if_neg (length_ofNat has.length).2, (length_ofNat has.length).1]
  exact reads_replicate fun a ha => h a (has.each a ha)

/-- A list of elements that are read as they were written. -/
theorem reads_list_same (has : AllFit Fits as) (h : ∀ a, Fits a → Reads d (encode a) a) :
    Reads (list d) (Encode.list encode as) as := by
  have hread : Reads (list d) (Encode.list encode as) (as.map id) := reads_list has h
  rwa [List.map_id] at hread

end Lists

theorem Yields.counted (hd : Yields d P) : Yields (counted d) fun as => ∀ a ∈ as, P a :=
  .seq fun count => hd.replicate count.toNat

theorem Yields.list (hd : Yields d P) : Yields (list d) fun as => ∀ a ∈ as, P a := by
  refine .seq fun count => ?_
  split
  · exact fun _ _ _ h => nomatch h
  · exact hd.replicate count.toNat

/-- A byte string that is read is no longer than a length may say. -/
theorem yields_byteString : Yields byteString (·.length ≤ maxLength.toNat) := by
  refine .seq fun length => ?_
  split
  · exact nofun
  next hmax =>
    intro bs field rest hrun
    rw [(run_announced_eq_ok_iff.mp hrun).1]
    exact UInt64.le_iff_toNat_le.mp (UInt64.not_lt.mp hmax)

theorem yields_length_replicate (d : Decoder α) (n : Nat) :
    Yields (replicate d n) (·.length = n) := by
  induction n with
  | zero => exact yields_pure rfl
  | succ n ih =>
    rw [replicate_succ]
    exact .seq fun a => ih.bind fun as has => yields_pure (congrArg Nat.succ has)

/-- A list that is read may be written, if its elements may. -/
theorem Yields.allFit {Fits : α → Prop} (hd : Yields d Fits) :
    Yields (Decoder.list d) (AllFit Fits) := by
  refine .seq fun count => ?_
  split
  · exact nofun
  next hmax =>
    intro bs as rest hrun
    have hlength := yields_length_replicate d count.toNat hrun
    refine ⟨?_, hd.replicate count.toNat hrun⟩
    rw [hlength]
    exact UInt64.le_iff_toNat_le.mp (UInt64.not_lt.mp hmax)

end Decoder

/-! ### Lengths -/

theorem CompactSize.encode_pos (n : UInt64) : 0 < (encode n).length := by
  rw [length_encode, length]
  split_ifs <;> omega

theorem CompactSize.length_encode_le {n m : UInt64} (h : n.toNat ≤ m.toNat) :
    (encode n).length ≤ (encode m).length := by
  rw [length_encode, length_encode, length, length]
  split_ifs <;> omega

namespace Encode

@[simp] theorem length_bool (b : Bool) : (bool b).length = 1 := rfl

@[simp] theorem length_uint32 (n : UInt32) : (uint32 n).length = 4 := Bytes.length_ofNatLE 4 _

@[simp] theorem length_int32 (n : Int32) : (int32 n).length = 4 := length_uint32 _

@[simp] theorem length_uint64 (n : UInt64) : (uint64 n).length = 8 := Bytes.length_ofNatLE 8 _

@[simp] theorem length_int64 (n : Int64) : (int64 n).length = 8 := length_uint64 _

theorem length_le_byteString (bs : Bytes) : bs.length ≤ (byteString bs).length := by
  rw [byteString, List.length_append]
  omega

theorem utf8ByteSize_le_text (s : String) : s.utf8ByteSize ≤ (text s).length := by
  rw [text, Decoder.toList_toUTF8]
  exact length_le_byteString s.toByteArray.data.toList

theorem length_le_list {α : Type} {encode : α → Bytes} (hpos : ∀ a, 0 < (encode a).length)
    (as : List α) : as.length ≤ (list encode as).length := by
  have hlen := List.length_le_sum_of_one_le ((as.map encode).map List.length) fun n hn => by
    obtain ⟨_, hbs, rfl⟩ := List.mem_map.mp hn
    obtain ⟨a, -, rfl⟩ := List.mem_map.mp hbs
    exact hpos a
  rw [List.length_map, List.length_map, ← List.length_flatten, ← List.flatMap_def] at hlen
  rw [list, List.length_append]
  omega

end Encode

namespace AllFit

variable {α : Type} {Fits : α → Prop} {encode : α → Bytes} {as : List α}

theorem of_true (h : as.length ≤ maxLength.toNat) : AllFit (fun _ => True) as :=
  ⟨h, fun _ _ => trivial⟩

/-- A list whose encoding is no longer than a length may say may be written. -/
theorem of_length (hpos : ∀ a, 0 < (encode a).length)
    (hfit : ∀ a, (encode a).length ≤ maxLength.toNat → Fits a)
    (h : (Encode.list encode as).length ≤ maxLength.toNat) : AllFit Fits as where
  length := Nat.le_trans (Encode.length_le_list hpos as) h
  each a ha := by
    have hle := (List.sublist_flatten_of_mem (List.mem_map_of_mem (f := encode) ha)).length_le
    rw [Encode.list, List.length_append, List.flatMap_def] at h
    exact hfit a (by omega)

end AllFit

end BitcoinPeer
