import BitcoinPeer.Proofs.Codec.Consumption
import BitcoinPeer.Proofs.Codec.Varint

/-!
# How many elements are read

A number of elements comes from a peer and may claim anything. A decoder with a tally (`Tally`) counts
the elements that it reads, those within other elements included, and keeps the tally when it fails.
`Tally.Counts d p least` says that `d` reads as `p` does, that a value takes `least` bytes besides one
for each element in it, and that a failure comes after no more elements than there were bytes. It goes
through sequences, and through lists as soon as no element is empty: one of the bytes of an element is
the one that the element is counted for.
-/

namespace BitcoinPeer

/-! ### Least sizes -/

namespace Decoder

variable {α β : Type} {d d' : Decoder α} {f : α → Decoder β} {k l : Nat}

/-- No value takes fewer than so many bytes. -/
def Least (d : Decoder α) (k : Nat) : Prop :=
  d.Takes fun _ => k

namespace Least

theorem mono (hd : d.Least k) (h : l ≤ k) : d.Least l :=
  Takes.mono hd fun _ => h

/-- The least sizes of the parts add up. -/
theorem bind (hd : d.Least k) (hf : ∀ a, (f a).Least l) : (d >>= f).Least (k + l) :=
  Takes.bind hd fun a => Takes.mono (hf a) fun _ => Nat.le_of_eq (Nat.add_sub_cancel_left ..)

/-- The last field of a record. -/
theorem ret {g : α → β} (hd : d.Least k) : (d >>= fun a => pure (g a)).Least k := by
  show Takes _ fun _ => k
  exact .ret hd

theorem ite {p : Prop} [Decidable p] (hd : d.Least k) (hd' : d'.Least k) :
    (if p then d else d').Least k := by
  split
  · exact hd
  · exact hd'

end Least

theorem least_pure (a : α) : (pure a : Decoder α).Least 0 := by
  intro bs b rest hrun
  cases hrun
  exact Nat.le_of_eq (Nat.zero_add _)

theorem least_fail (e : DecodeError) (k : Nat) : (fail e : Decoder α).Least k :=
  nofun

/-- So many values take so many times the least size of one. -/
theorem Least.replicate (hd : d.Least k) (n : Nat) : (replicate d n).Least (n * k) := by
  induction n with
  | zero =>
    rw [Nat.zero_mul]
    exact least_pure []
  | succ n ih =>
    rw [replicate_succ, Nat.succ_mul, Nat.add_comm]
    exact hd.bind fun a => ih.ret

/-! #### Fields -/

theorem least_octets (n : Nat) : (octets n).Least n := by
  intro bs o rest hrun
  obtain ⟨used, rfl, hused⟩ := exact_octets n hrun
  have hlength : used.length = n := by
    rw [← o.length_bytes, hused, List.nil_append]
  show n + rest.length ≤ (used ++ rest).length
  rw [List.length_append]
  exact Nat.add_le_add_right (Nat.le_of_eq hlength.symm) rest.length

theorem least_natLE (n : Nat) : (natLE n).Least n :=
  (least_octets n).ret

theorem least_uint8 : uint8.Least 1 :=
  takes_uint8

theorem least_uint16BE : uint16BE.Least 2 :=
  (least_octets 2).ret

theorem least_uint32 : uint32.Least 4 :=
  (least_natLE 4).ret

theorem least_int32 : int32.Least 4 :=
  least_uint32.ret

theorem least_uint64 : uint64.Least 8 :=
  (least_natLE 8).ret

theorem least_int64 : int64.Least 8 :=
  least_uint64.ret

/-- At least the marker. -/
theorem least_compactSize : CompactSize.decode.Least 1 := by
  refine least_uint8.bind (l := 0) fun marker => ?_
  have hfield : ∀ n, (natLE n >>= fun value => pure (UInt64.ofNat value)).Least 0 :=
    fun n => (least_natLE n).ret.mono (Nat.zero_le n)
  exact .ite (hfield 2) <| .ite (hfield 4) <| .ite (hfield 8) (least_pure _)

theorem least_varint : Varint.decode.Least 1 := by
  intro bs n rest hrun
  rw [Varint.run_decode_eq_ok_iff.mp hrun, List.length_append]
  exact Nat.add_le_add_right (Varint.encode_pos n) rest.length

/-- At least the byte of the length. -/
theorem least_byteString : byteString.Least 1 :=
  takes_byteString.mono fun bs => by
    have hpos := CompactSize.encode_pos (UInt64.ofNat bs.length)
    rw [Encode.byteString, List.length_append]
    omega

theorem least_text : text.Least 1 := by
  refine least_byteString.bind (l := 0) fun bs => ?_
  cases String.fromUTF8? ⟨bs.toArray⟩ with
  | none => exact least_fail _ 0
  | some s => exact least_pure s

/-! ### Lists of any kind -/

/-- Reads that many elements, unless the number exceeds the limit. -/
def elements (limit : Option UInt64) (d : Decoder α) (count : UInt64) : Decoder (List α) :=
  if limit.any (· < count) then fail (.oversizedList count) else replicate d count.toNat

/-- Reads a number and as many elements. -/
def sequence (number : Decoder UInt64) (limit : Option UInt64) (d : Decoder α) : Decoder (List α) :=
  number >>= elements limit d

variable {limit : Option UInt64} {count : UInt64} {bs rest : Bytes} {as : List α}

/-- The elements are as many as claimed, and each has taken its bytes. -/
theorem Least.of_run_elements (hd : d.Least k) (h : (elements limit d count).run bs = .ok (as, rest)) :
    as.length = count.toNat ∧ count.toNat * k + rest.length ≤ bs.length := by
  unfold elements at h
  split at h
  · cases h
  · exact ⟨yields_length_replicate d count.toNat h, hd.replicate count.toNat h⟩

theorem list_eq_sequence (d : Decoder α) :
    list d = sequence CompactSize.decode (some maxLength) d := by
  have helements : elements (some maxLength) d = fun count =>
      if maxLength < count then fail (.oversizedList count) else replicate d count.toNat := by
    funext count
    simp only [elements, Option.any_some, decide_eq_true_eq]
  rw [sequence, helements, list]

end Decoder

/-! ### Counting the elements -/

/-- A decoder that counts the elements of the lists that it reads, whether it fails or not. -/
structure Tally (α : Type) where
  run : Bytes → Except DecodeError (α × Bytes) × Nat

namespace Tally

variable {α β : Type}

instance : Monad Tally where
  pure a := ⟨fun bs => (.ok (a, bs), 0)⟩
  bind d f := ⟨fun bs =>
    match d.run bs with
    | (.error e, n) => (.error e, n)
    | (.ok (a, rest), n) => (((f a).run rest).1, n + ((f a).run rest).2)⟩

theorem run_bind (d : Tally α) (f : α → Tally β) (bs : Bytes) :
    (d >>= f).run bs =
      match d.run bs with
      | (.error e, n) => (.error e, n)
      | (.ok (a, rest), n) => (((f a).run rest).1, n + ((f a).run rest).2) := rfl

/-- Leaves the tally out. -/
def erase (d : Tally α) : Decoder α :=
  ⟨fun bs => (d.run bs).1⟩

/-- Reads something without a list in it. -/
def plain (d : Decoder α) : Tally α :=
  ⟨fun bs => (d.run bs, 0)⟩

theorem run_plain (p : Decoder α) (bs : Bytes) : (plain p).run bs = (p.run bs, 0) := rfl

/-- Reads an element, which is counted once it has been read. -/
def element (d : Tally α) : Tally α :=
  ⟨fun bs =>
    let (result, n) := d.run bs
    (result, if result.isOk then n + 1 else n)⟩

/-- Reads so many elements. -/
def replicate (d : Tally α) : Nat → Tally (List α)
  | 0 => pure []
  | n + 1 => do
    let a ← d.element
    let as ← replicate d n
    return a :: as

/-- Reads that many elements, unless the number exceeds the limit. -/
def elements (limit : Option UInt64) (d : Tally α) (count : UInt64) : Tally (List α) :=
  if limit.any (· < count) then plain (Decoder.fail (.oversizedList count))
  else replicate d count.toNat

/-- Reads a number and as many elements. -/
def sequence (number : Decoder UInt64) (limit : Option UInt64) (d : Tally α) : Tally (List α) :=
  plain number >>= elements limit d

/-- Reads as many elements as a compact size says, within the limit. -/
def list (d : Tally α) : Tally (List α) :=
  sequence CompactSize.decode (some maxLength) d

/-- Reads as many elements as a compact size says, whatever it says. -/
def counted (d : Tally α) : Tally (List α) :=
  sequence CompactSize.decode none d

/-- Reads as many varints as a varint says. -/
def varints : Tally (List UInt64) :=
  sequence Varint.decode none (plain Varint.decode)

/-- `d` counts for `p`: it reads the same, a value takes `least` bytes and one for each element in it,
and a failure comes after no more elements than there were bytes. -/
structure Counts (d : Tally α) (p : Decoder α) (least : Nat) : Prop where
  erase : d.erase = p
  ok : ∀ {bs a rest n}, d.run bs = (.ok (a, rest), n) → n + least + rest.length ≤ bs.length
  error : ∀ {bs e n}, d.run bs = (.error e, n) → n ≤ bs.length

variable {d d' : Tally α} {f : α → Tally β} {p p' : Decoder α} {q : α → Decoder β}
  {k l n : Nat} {bs : Bytes} {number : Decoder UInt64} {limit : Option UInt64}

/-- Either the first part fails, or both of them count. -/
theorem run_bind_cases {r : Except DecodeError (β × Bytes)} (h : (d >>= f).run bs = (r, n)) :
    (∃ e, d.run bs = (.error e, n) ∧ r = .error e) ∨
      ∃ a mid m m', d.run bs = (.ok (a, mid), m) ∧ (f a).run mid = (r, m') ∧ n = m + m' := by
  rw [run_bind] at h
  cases hrun : d.run bs with
  | mk first m =>
    rw [hrun] at h
    cases first with
    | error e =>
      cases h
      exact .inl ⟨e, rfl, rfl⟩
    | ok s =>
      obtain ⟨rfl, rfl⟩ := Prod.mk.inj h
      exact .inr ⟨s.1, s.2, m, _, rfl, rfl, rfl⟩

theorem erase_bind (d : Tally α) (f : α → Tally β) :
    (d >>= f).erase = d.erase >>= fun a => (f a).erase := by
  ext bs : 2
  show ((d >>= f).run bs).1 = (d.erase >>= fun a => (f a).erase).run bs
  rw [run_bind, Decoder.run_bind]
  cases hrun : d.run bs with
  | mk first m =>
    rw [show d.erase.run bs = first from congrArg Prod.fst hrun]
    cases first <;> rfl

namespace Counts

theorem le (h : d.Counts p k) (bs : Bytes) : (d.run bs).2 ≤ bs.length := by
  cases hrun : d.run bs with
  | mk result n =>
    cases result with
    | error e => exact h.error hrun
    | ok r =>
      have hle := h.ok hrun
      show n ≤ bs.length
      omega

theorem mono (h : d.Counts p k) (hl : l ≤ k) : d.Counts p l where
  erase := h.erase
  ok hrun := by
    have hle := h.ok hrun
    omega
  error := h.error

theorem least (h : d.Counts p k) : p.Least k := by
  intro bs a rest hrun
  rw [← h.erase] at hrun
  have hle : (d.run bs).2 + k + rest.length ≤ bs.length := h.ok (Prod.ext hrun rfl)
  show k + rest.length ≤ bs.length
  omega

theorem bind (hd : d.Counts p k) (hf : ∀ a, (f a).Counts (q a) l) :
    (d >>= f).Counts (p >>= q) (k + l) where
  erase := by
    rw [erase_bind, hd.erase, funext fun a => (hf a).erase]
  ok := by
    intro bs b rest n hrun
    obtain ⟨e, -, hfailed⟩ | ⟨a, mid, m, m', hfirst, hsecond, rfl⟩ := run_bind_cases hrun
    · cases hfailed
    · have hleft := hd.ok hfirst
      have hright := (hf a).ok hsecond
      omega
  error := by
    intro bs e n hrun
    obtain ⟨e', hfirst, -⟩ | ⟨a, mid, m, m', hfirst, hsecond, rfl⟩ := run_bind_cases hrun
    · exact hd.error hfirst
    · -- the first part has taken a byte for each of its elements
      have hleft := hd.ok hfirst
      have hright := (hf a).error hsecond
      omega

end Counts

theorem counts_pure (a : α) : (pure a : Tally α).Counts (pure a) 0 where
  erase := rfl
  ok := by
    intro bs b rest n hrun
    cases hrun
    exact Nat.le_of_eq (Nat.zero_add _)
  error := nofun

theorem counts_plain (h : p.Least k) : (plain p).Counts p k where
  erase := rfl
  ok := by
    intro bs a rest n hrun
    obtain ⟨hread, rfl⟩ := Prod.mk.inj hrun
    rw [Nat.zero_add]
    exact h hread
  error := by
    intro bs e n hrun
    obtain ⟨-, rfl⟩ := Prod.mk.inj hrun
    exact Nat.zero_le _

namespace Counts

/-- The last field of a record. -/
theorem ret {g : α → β} (hd : d.Counts p k) :
    (d >>= fun a => pure (g a)).Counts (p >>= fun a => pure (g a)) k :=
  hd.bind fun a => counts_pure (g a)

theorem map {g : α → β} (hd : d.Counts p k) : (g <$> d).Counts (g <$> p) k := by
  rw [map_eq_pure_bind (f := g) (x := p)]
  exact hd.ret

theorem ite {c : Prop} [Decidable c] (hd : d.Counts p k) (hd' : d'.Counts p' k) :
    (if c then d else d').Counts (if c then p else p') k := by
  split
  · exact hd
  · exact hd'

/-- One of the bytes of an element is the one that the element is counted for. -/
theorem element (hd : d.Counts p (k + 1)) : d.element.Counts p k where
  erase := hd.erase
  ok := by
    intro bs a rest n hrun
    obtain ⟨hread, rfl⟩ := Prod.mk.inj hrun
    have hle : (d.run bs).2 + (k + 1) + rest.length ≤ bs.length := hd.ok (Prod.ext hread rfl)
    rw [hread]
    show (d.run bs).2 + 1 + k + rest.length ≤ bs.length
    omega
  error := by
    intro bs e n hrun
    obtain ⟨hread, rfl⟩ := Prod.mk.inj hrun
    rw [hread]
    exact hd.error (Prod.ext hread rfl)

/-- Elements that are not empty pay for themselves. -/
theorem replicate (hd : d.Counts p k) (hk : 0 < k) (n : Nat) :
    (replicate d n).Counts (Decoder.replicate p n) 0 := by
  obtain ⟨k, rfl⟩ := Nat.exists_eq_succ_of_ne_zero (Nat.ne_of_gt hk)
  induction n with
  | zero => exact counts_pure []
  | succ n ih =>
    rw [Decoder.replicate_succ]
    have hfirst : d.element.Counts p 0 := hd.element.mono (Nat.zero_le k)
    exact hfirst.bind fun a => ih.ret

theorem elements (hd : d.Counts p k) (hk : 0 < k) (count : UInt64) :
    (elements limit d count).Counts (Decoder.elements limit p count) 0 :=
  .ite (counts_plain (Decoder.least_fail _ 0)) (hd.replicate hk count.toNat)

theorem sequence (hnumber : number.Least 1) (hd : d.Counts p k) (hk : 0 < k) :
    (sequence number limit d).Counts (Decoder.sequence number limit p) 1 :=
  (counts_plain hnumber).bind fun count => hd.elements hk count

/-- **Claiming too much**: a number that exceeds the bytes behind it is found out before more elements
have been read than there are bytes. -/
theorem exists_error_of_exceeds {count : UInt64} {mid : Bytes} (hd : d.Counts p k) (hk : 0 < k)
    (hcount : number.run bs = .ok (count, mid)) (hlt : mid.length < count.toNat) :
    ∃ e n, (Tally.sequence number limit d).run bs = (.error e, n) ∧ n ≤ mid.length := by
  have hcounts : (Tally.elements limit d count).Counts (Decoder.elements limit p count) 0 :=
    hd.elements hk count
  cases hrun : (Tally.elements limit d count).run mid with
  | mk result n =>
    cases result with
    | error e =>
      refine ⟨e, 0 + n, ?_, by rw [Nat.zero_add]; exact hcounts.error hrun⟩
      rw [Tally.sequence, run_bind, run_plain, hcount]
      show (((Tally.elements limit d count).run mid).1, 0 + _) = _
      rw [hrun]
    | ok r =>
      -- all the elements would have been there
      have hread : (Decoder.elements limit p count).run mid = .ok r := by
        rw [← hcounts.erase]
        exact congrArg Prod.fst hrun
      have hle := (hd.least.of_run_elements hread).2
      have hone : count.toNat ≤ count.toNat * k := Nat.le_mul_of_pos_right _ hk
      omega

theorem list (hd : d.Counts p k) (hk : 0 < k) : (list d).Counts (Decoder.list p) 1 := by
  rw [Decoder.list_eq_sequence]
  exact hd.sequence Decoder.least_compactSize hk

theorem counted (hd : d.Counts p k) (hk : 0 < k) : (counted d).Counts (Decoder.counted p) 1 :=
  hd.sequence Decoder.least_compactSize hk

end Counts

theorem counts_varints : varints.Counts Decoder.varints 1 :=
  (counts_plain Decoder.least_varint).sequence Decoder.least_varint Nat.one_pos

end Tally

end BitcoinPeer
