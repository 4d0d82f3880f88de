import Mathlib.Data.List.TFAE
import Mathlib.Tactic.TFAE
import BitcoinPeer.Proofs.Codec.Reading

/-!
# What was read, written again

The writer takes the shortest form of every compact size and the reader takes any, so bytes that
were read and are written again may get fewer. A decoder with notes (`Recorder`) lists the compact
sizes as they stand in the input. `Respelled` relates the notes, the bytes that were read and the
bytes that are written again: there are not more of these, and they are the same just if every size
had its shortest form. Like `Decoder.Reads`, the relation goes through sequences and repetitions
(`Recorder.Follows`).
-/

namespace BitcoinPeer

/-! ### The forms of a compact size -/

namespace CompactSize

/-- The forms in which a number may stand in an input. -/
inductive Form (n : UInt64) : Bytes → Prop
  | unmarked (h : n.toNat ≤ 0xfc) : Form n [n.toUInt8]
  | marked {marker : UInt8} {width : Nat}
      (hmarker : marker = 0xfd ∧ width = 2 ∨ marker = 0xfe ∧ width = 4 ∨ marker = 0xff ∧ width = 8)
      (hn : n.toNat < Bytes.bound width) : Form n (marker :: Bytes.ofNatLE width n.toNat)

namespace Form

variable {n : UInt64} {form : Bytes}

theorem reads (h : Form n form) : decode.Reads form n := by
  cases h with
  | unmarked h => exact Decoder.reads_unmarked h
  | marked hmarker hn => exact Decoder.reads_marked hmarker hn

theorem length_le (h : Form n form) : (encode n).length ≤ form.length := by
  rw [length_encode, length]
  cases h with
  | unmarked h =>
    rw [if_pos h]
    exact Nat.le_refl 1
  | marked hmarker hn =>
    rw [List.length_cons, Bytes.length_ofNatLE]
    obtain ⟨-, rfl⟩ | ⟨-, rfl⟩ | ⟨-, rfl⟩ := hmarker <;> simp only [Bytes.bound] at hn <;>
      split_ifs <;> omega

/-- Of all forms only the one that is written is that short. -/
theorem eq_encode (h : Form n form) (hlen : form.length ≤ (encode n).length) : form = encode n := by
  rw [length_encode, length] at hlen
  rw [encode]
  cases h with
  | unmarked h => rw [if_pos h]
  | marked hmarker hn =>
    rw [List.length_cons, Bytes.length_ofNatLE] at hlen
    -- the bound of the width puts an upper limit to the number, and its length a lower one
    have hlarge : ¬n.toNat ≤ 0xfc := fun hsmall => by
      rw [if_pos hsmall] at hlen
      omega
    rw [if_neg hlarge] at hlen ⊢
    obtain ⟨rfl, rfl⟩ | ⟨rfl, rfl⟩ | ⟨rfl, rfl⟩ := hmarker <;> simp only [Bytes.bound] at hn
    · rw [if_pos (by omega)]
    · have htwo : ¬n.toNat ≤ 0xffff := fun hsmall => by simp [hsmall] at hlen
      rw [if_neg htwo, if_pos (by omega)]
    · have hfour : ¬n.toNat ≤ 0xffffffff := fun hsmall => by split_ifs at hlen <;> omega
      rw [if_neg (by omega), if_neg hfour]

end Form

end CompactSize

/-! ### What is written again exactly -/

namespace Decoder

variable {α β : Type} {d : Decoder α} {f : α → Decoder β} {a : α} {b : β} {bs rest done : Bytes}
  {encode : α → Bytes} {write : β → Bytes}

/-- What `d` takes off the front is what is written of the value behind `done`. -/
def Exact (d : Decoder α) (done : Bytes) (encode : α → Bytes) : Prop :=
  ∀ ⦃bs a rest⦄, d.run bs = .ok (a, rest) → ∃ used, bs = used ++ rest ∧ encode a = done ++ used

theorem exact_pure (h : encode a = done) : Exact (pure a) done encode := by
  intro bs a' rest hrun
  cases hrun
  exact ⟨[], rfl, by rw [h, List.append_nil]⟩

theorem exact_fail (e : DecodeError) : Exact (fail e) done encode :=
  nofun

theorem Exact.bind (hd : d.Exact [] encode) (hf : ∀ a, (f a).Exact (done ++ encode a) write) :
    (d >>= f).Exact done write := by
  intro bs b rest hrun
  obtain ⟨a, mid, hfirst, hsecond⟩ := exists_of_run_bind hrun
  obtain ⟨used, rfl, hused⟩ := hd hfirst
  obtain ⟨used', rfl, hused'⟩ := hf a hsecond
  refine ⟨used ++ used', (List.append_assoc ..).symm, ?_⟩
  rw [hused', hused, List.nil_append, List.append_assoc]

theorem Exact.map {g : α → β} (hd : d.Exact done fun a => write (g a)) :
    (d >>= fun a => pure (g a)).Exact done write := by
  intro bs b rest hrun
  obtain ⟨a, mid, hfirst, hsecond⟩ := exists_of_run_bind hrun
  cases hsecond
  exact hd hfirst

theorem exact_octets (n : Nat) : (octets n).Exact [] Octets.bytes := by
  intro bs o rest hrun
  unfold octets at hrun
  simp only at hrun
  split at hrun
  · cases hrun
    exact ⟨bs.take n, (List.take_append_drop n bs).symm, rfl⟩
  · cases hrun

theorem exact_announced {n : Nat} {write : Bytes → Bytes}
    (hwrite : ∀ field, field.length = n → write field = done ++ field) :
    (announced n).Exact done write := by
  intro bs field rest hrun
  obtain ⟨hlen, hbs⟩ := run_announced_eq_ok_iff.mp hrun
  exact ⟨field, hbs, hwrite field hlen⟩

theorem exact_natLE (n : Nat) : (natLE n).Exact [] (Bytes.ofNatLE n) := by
  intro bs value rest hrun
  obtain ⟨field, mid, hfield, hvalue⟩ := exists_of_run_bind hrun
  cases hvalue
  obtain ⟨used, rfl, hused⟩ := exact_octets n hfield
  refine ⟨used, rfl, ?_⟩
  have hwritten := Bytes.ofNatLE_toNatLE field.bytes
  rw [field.length_bytes] at hwritten
  exact hwritten.trans hused

/-- The same values, written in another way. -/
theorem Exact.congr {P : α → Prop} {encode' : α → Bytes} (hd : d.Exact done encode)
    (hvalues : d.Yields P) (h : ∀ a, P a → encode' a = encode a) : d.Exact done encode' := by
  intro bs a rest hrun
  obtain ⟨used, hbs, hused⟩ := hd hrun
  exact ⟨used, hbs, (h a (hvalues hrun)).trans hused⟩

theorem exact_uint8 : uint8.Exact [] Encode.uint8 :=
  .map (exact_natLE 1)

theorem exact_uint32 : uint32.Exact [] Encode.uint32 := by
  refine .map ((exact_natLE 4).congr (yields_natLE 4) ?_)
  intro value hvalue
  rw [Encode.uint32, UInt32.toNat_ofNat_of_lt' hvalue]

theorem exact_int32 : int32.Exact [] Encode.int32 := by
  refine .map ?_
  simp only [Encode.int32, UInt32.toUInt32_toInt32]
  exact exact_uint32

theorem exact_uint64 : uint64.Exact [] Encode.uint64 := by
  refine .map ((exact_natLE 8).congr (yields_natLE 8) ?_)
  intro value hvalue
  rw [Encode.uint64, UInt64.toNat_ofNat_of_lt' hvalue]

theorem exact_int64 : int64.Exact [] Encode.int64 := by
  refine .map ?_
  simp only [Encode.int64, UInt64.toUInt64_toInt64]
  exact exact_uint64

end Decoder

/-! ### Reading a compact size -/

namespace CompactSize

variable {n : UInt64} {bs rest form : Bytes}

/-- What stands behind a marker. -/
theorem run_marked {width : Nat} (hwidth : Bytes.bound width ≤ UInt64.size)
    (h : (Decoder.natLE width >>= fun value => pure (UInt64.ofNat value)).run bs = .ok (n, rest)) :
    n.toNat < Bytes.bound width ∧ bs = Bytes.ofNatLE width n.toNat ++ rest := by
  obtain ⟨value, mid, hvalue, hn⟩ := Decoder.exists_of_run_bind h
  cases hn
  have hlt : value < Bytes.bound width := Decoder.yields_natLE width hvalue
  obtain ⟨used, rfl, hused⟩ := Decoder.exact_natLE width hvalue
  rw [UInt64.toNat_ofNat_of_lt' (Nat.lt_of_lt_of_le hlt hwidth), hused]
  exact ⟨hlt, rfl⟩

theorem exists_form (h : decode.run bs = .ok (n, rest)) :
    ∃ form, bs = form ++ rest ∧ Form n form := by
  obtain ⟨marker, mid, hmarker, hrest⟩ := Decoder.exists_of_run_bind h
  obtain ⟨used, rfl, hused⟩ := Decoder.exact_uint8 hmarker
  obtain rfl : [marker] = used := hused
  split_ifs at hrest with htwo hfour height
  · obtain ⟨hn, rfl⟩ := run_marked (by decide) hrest
    exact ⟨_, rfl, .marked (.inl ⟨htwo, rfl⟩) hn⟩
  · obtain ⟨hn, rfl⟩ := run_marked (by decide) hrest
    exact ⟨_, rfl, .marked (.inr (.inl ⟨hfour, rfl⟩)) hn⟩
  · obtain ⟨hn, rfl⟩ := run_marked (by decide) hrest
    exact ⟨_, rfl, .marked (.inr (.inr ⟨height, rfl⟩)) hn⟩
  · cases hrest
    have hsmall : marker.toUInt64.toNat ≤ 0xfc := by
      rw [UInt8.toNat_toUInt64]
      rw [← UInt8.toNat_inj] at htwo hfour height
      have hlt := marker.toNat_lt
      simp at htwo hfour height
      omega
    have hform := Form.unmarked hsmall
    rw [UInt8.toUInt8_toUInt64] at hform
    exact ⟨[marker], rfl, hform⟩

/-- The forms of a number are all that is read as the number. -/
theorem reads_iff_form : decode.Reads form n ↔ Form n form := by
  refine ⟨fun h => ?_, Form.reads⟩
  obtain ⟨form', hform, hn⟩ := exists_form h.run_eq
  rwa [hform, List.append_nil]

end CompactSize

/-- A byte string is read just where it stands behind a form of its length. -/
theorem Decoder.run_byteString_eq_ok_iff {bs blob rest : Bytes} :
    byteString.run bs = .ok (blob, rest) ↔ blob.length ≤ maxLength.toNat ∧
      ∃ size, CompactSize.Form (UInt64.ofNat blob.length) size ∧ bs = size ++ (blob ++ rest) := by
  constructor
  · intro hrun
    have hmax := yields_byteString hrun
    obtain ⟨length, mid, hlength, hblob⟩ := exists_of_run_bind hrun
    obtain ⟨size, rfl, hform⟩ := CompactSize.exists_form hlength
    split_ifs at hblob
    · cases hblob
    · obtain ⟨hlen, rfl⟩ := run_announced_eq_ok_iff.mp hblob
      rw [← UInt64.ofNat_toNat (x := length), ← hlen] at hform
      exact ⟨hmax, size, hform, rfl⟩
  · rintro ⟨hmax, size, hform, rfl⟩
    obtain ⟨hlen, hlimit⟩ := length_ofNat hmax
    rw [byteString, run_bind_ok _ (hform.reads _), if_neg hlimit, hlen]
    exact reads_announced blob rest

/-! ### Noting the compact sizes -/

/-- A compact size as it stands in an input. -/
structure SizeField where
  value : UInt64
  form : Bytes

/-- No bytes that are read as the same number are fewer. -/
def SizeField.Shortest (f : SizeField) : Prop :=
  ∀ other, CompactSize.decode.Reads other f.value → f.form.length ≤ other.length

theorem SizeField.shortest_iff {f : SizeField} (h : CompactSize.Form f.value f.form) :
    f.Shortest ↔ f.form = CompactSize.encode f.value := by
  constructor
  · intro hshortest
    exact h.eq_encode (hshortest _ (Decoder.reads_compactSize f.value))
  · intro hform other hother
    rw [hform]
    exact (CompactSize.reads_iff_form.mp hother).length_le

/-- A decoder that notes the compact sizes that it reads, in their order. -/
abbrev Recorder : Type → Type :=
  StateT (List SizeField) Decoder

namespace Recorder

variable {α β : Type}

/-- Reads something without a compact size in it. -/
def plain (d : Decoder α) : Recorder α := fun noted => do
  return (← d, noted)

/-- Reads a compact size and notes it with the bytes that it took. -/
def compactSize : Recorder UInt64 := fun noted =>
  ⟨fun bs =>
    (CompactSize.decode.run bs).map fun (value, rest) =>
      ((value, noted ++ [{ value, form := bs.take (bs.length - rest.length) }]), rest)⟩

def byteString : Recorder Bytes := do
  let length ← compactSize
  if maxLength < length then plain (Decoder.fail (.oversizedBytes length))
  else plain (Decoder.announced length.toNat)

def replicate (d : Recorder α) : Nat → Recorder (List α)
  | 0 => pure []
  | n + 1 => do
    let a ← d
    let as ← replicate d n
    return a :: as

def list (element : Recorder α) : Recorder (List α) := do
  let count ← compactSize
  if maxLength < count then plain (Decoder.fail (.oversizedList count))
  else replicate element count.toNat

end Recorder

/-- Bytes that hold the noted compact sizes, and the bytes that are written of the same values. -/
structure Respelled (sizes : List SizeField) (used written : Bytes) : Prop where
  length_le : written.length ≤ used.length
  shortest : written.length = used.length → ∀ f ∈ sizes, f.Shortest
  eq : (∀ f ∈ sizes, f.Shortest) → written = used

namespace Respelled

variable {sizes sizes' : List SizeField} {used used' written written' : Bytes}

theorem refl (used : Bytes) : Respelled [] used used :=
  ⟨Nat.le_refl _, fun _ _ hf => absurd hf List.not_mem_nil, fun _ => rfl⟩

theorem append (h : Respelled sizes used written) (h' : Respelled sizes' used' written') :
    Respelled (sizes ++ sizes') (used ++ used') (written ++ written') where
  length_le := by
    rw [List.length_append, List.length_append]
    exact Nat.add_le_add h.length_le h'.length_le
  shortest := by
    intro hlen f hf
    have hle := h.length_le
    have hle' := h'.length_le
    rw [List.length_append, List.length_append] at hlen
    rcases List.mem_append.mp hf with hf | hf
    · exact h.shortest (by omega) f hf
    · exact h'.shortest (by omega) f hf
  eq := by
    intro hall
    rw [h.eq fun f hf => hall f (List.mem_append_left _ hf),
      h'.eq fun f hf => hall f (List.mem_append_right _ hf)]

theorem compactSize {n : UInt64} {form : Bytes} (h : CompactSize.Form n form) :
    Respelled [⟨n, form⟩] form (CompactSize.encode n) where
  length_le := h.length_le
  shortest := by
    intro hlen f hf
    obtain rfl := List.mem_singleton.mp hf
    exact (SizeField.shortest_iff h).mpr (h.eq_encode (Nat.le_of_eq hlen.symm))
  eq := by
    intro hall
    exact ((SizeField.shortest_iff h).mp (hall _ (List.mem_singleton_self _))).symm

/-- The bytes are as many just if they are the same, and just if no size was longer than needed. -/
theorem tfae (h : Respelled sizes used written) :
    List.TFAE [written.length = used.length, written = used, ∀ f ∈ sizes, f.Shortest] := by
  tfae_have 1 → 3 := h.shortest
  tfae_have 3 → 2 := h.eq
  tfae_have 2 → 1 := congrArg List.length
  tfae_finish

end Respelled

namespace Recorder

variable {α β : Type} {d : Recorder α} {p : Decoder α} {f : α → Recorder β} {q : α → Decoder β}
  {done : Bytes} {encode : α → Bytes} {write : β → Bytes}

/-- A decoder with notes reads the same as the one without, and behind `done` there is written of
the value what was read, but for longer forms of the noted compact sizes. -/
structure Follows (d : Recorder α) (p : Decoder α) (done : Bytes) (encode : α → Bytes) : Prop where
  erase : ∀ noted, Prod.fst <$> d.run noted = p
  respelled : ∀ {noted noted' bs rest a}, (d.run noted).run bs = .ok ((a, noted'), rest) →
    ∃ sizes used written, noted' = noted ++ sizes ∧ bs = used ++ rest ∧
      encode a = done ++ written ∧ Respelled sizes used written

theorem Follows.exists_run (h : d.Follows p done encode) (noted : List SizeField) {bs rest : Bytes}
    {a : α} (hrun : p.run bs = .ok (a, rest)) :
    ∃ noted', (d.run noted).run bs = .ok ((a, noted'), rest) := by
  rw [← h.erase noted, map_eq_pure_bind] at hrun
  obtain ⟨⟨a', noted'⟩, mid, hfirst, hsecond⟩ := Decoder.exists_of_run_bind hrun
  cases hsecond
  exact ⟨noted', hfirst⟩

theorem follows_pure {a : α} (h : encode a = done) : Follows (pure a) (pure a) done encode where
  erase := fun noted => rfl
  respelled := by
    intro noted noted' bs rest a' hrun
    cases hrun
    exact ⟨[], [], [], (List.append_nil _).symm, rfl, by rw [h, List.append_nil], .refl []⟩

theorem Follows.bind (hd : d.Follows p [] encode)
    (hf : ∀ a, (f a).Follows (q a) (done ++ encode a) write) :
    (d >>= f).Follows (p >>= q) done write where
  erase := by
    intro noted
    rw [StateT.run_bind, map_bind]
    simp only [(hf _).erase]
    rw [← hd.erase noted, bind_map_left]
  respelled := by
    intro noted noted' bs rest b hrun
    rw [StateT.run_bind] at hrun
    obtain ⟨⟨a, noted₁⟩, mid, hfirst, hsecond⟩ := Decoder.exists_of_run_bind hrun
    obtain ⟨sizes, used, written, rfl, rfl, hwritten, h⟩ := hd.respelled hfirst
    obtain ⟨sizes', used', written', rfl, rfl, hwritten', h'⟩ := (hf a).respelled hsecond
    refine ⟨sizes ++ sizes', used ++ used', written ++ written', List.append_assoc ..,
      (List.append_assoc ..).symm, ?_, h.append h'⟩
    rw [hwritten', hwritten, List.nil_append, List.append_assoc]

theorem Follows.map {g : α → β} (hd : d.Follows p done fun a => write (g a)) :
    (d >>= fun a => pure (g a)).Follows (p >>= fun a => pure (g a)) done write where
  erase := by
    intro noted
    rw [← hd.erase noted, StateT.run_bind, map_bind, bind_map_left]
    rfl
  respelled := by
    intro noted noted' bs rest b hrun
    rw [StateT.run_bind] at hrun
    obtain ⟨⟨a, noted₁⟩, mid, hfirst, hsecond⟩ := Decoder.exists_of_run_bind hrun
    cases hsecond
    exact hd.respelled hfirst

theorem follows_plain (hp : p.Exact done encode) : (plain p).Follows p done encode where
  erase := by
    intro noted
    show Prod.fst <$> (do let a ← p; pure (a, noted)) = p
    rw [map_bind]
    exact bind_pure p
  respelled := by
    intro noted noted' bs rest a hrun
    obtain ⟨a', mid, hfirst, hsecond⟩ := Decoder.exists_of_run_bind hrun
    cases hsecond
    obtain ⟨used, hbs, hused⟩ := hp hfirst
    exact ⟨[], used, used, (List.append_nil _).symm, hbs, hused, .refl used⟩

theorem follows_compactSize :
    compactSize.Follows CompactSize.decode [] CompactSize.encode where
  erase := by
    intro noted
    ext bs : 2
    show (Prod.fst <$> compactSize noted).run bs = _
    rw [map_eq_pure_bind, Decoder.run_bind]
    simp only [compactSize]
    cases CompactSize.decode.run bs <;> rfl
  respelled := by
    intro noted noted' bs rest n hrun
    have hrun : (CompactSize.decode.run bs).map (fun p => ((p.1, noted ++
        [(⟨p.1, bs.take (bs.length - p.2.length)⟩ : SizeField)]), p.2)) =
          .ok ((n, noted'), rest) := hrun
    cases hdecode : CompactSize.decode.run bs with
    | error e => simp [hdecode, Except.map] at hrun
    | ok r =>
      obtain ⟨value, rest'⟩ := r
      rw [hdecode] at hrun
      cases hrun
      obtain ⟨form, rfl, hform⟩ := CompactSize.exists_form hdecode
      refine ⟨_, form, CompactSize.encode value, rfl, rfl, rfl, ?_⟩
      simpa using Respelled.compactSize hform

theorem Follows.ite {c : Prop} [Decidable c] {d' : Recorder α} {p' : Decoder α}
    (hd : d.Follows p done encode) (hd' : d'.Follows p' done encode) :
    (if c then d else d').Follows (if c then p else p') done encode := by
  split_ifs
  · exact hd
  · exact hd'

/-- The elements are written one after the other. -/
theorem Follows.replicate {writeAll : List α → Bytes} (hd : d.Follows p [] encode) (n : Nat)
    (hwrite : ∀ as, as.length = n → writeAll as = done ++ as.flatMap encode) :
    (replicate d n).Follows (Decoder.replicate p n) done writeAll := by
  induction n generalizing done writeAll with
  | zero =>
    refine follows_pure ?_
    rw [hwrite [] rfl, List.flatMap_nil, List.append_nil]
  | succ n ih =>
    rw [Decoder.replicate_succ]
    refine hd.bind fun a => .map (ih ?_)
    intro as has
    rw [hwrite (a :: as) (congrArg Nat.succ has), List.flatMap_cons, List.append_assoc]

theorem follows_byteString : byteString.Follows Decoder.byteString [] Encode.byteString := by
  refine follows_compactSize.bind fun length => .ite (follows_plain (Decoder.exact_fail _)) ?_
  refine follows_plain (Decoder.exact_announced ?_)
  intro field hlen
  rw [Encode.byteString, hlen, UInt64.ofNat_toNat, List.nil_append]

theorem Follows.list (hd : d.Follows p [] encode) :
    (list d).Follows (Decoder.list p) [] (Encode.list encode) := by
  refine follows_compactSize.bind fun count => .ite (follows_plain (Decoder.exact_fail _)) ?_
  refine hd.replicate count.toNat ?_
  intro as has
  rw [Encode.list, has, UInt64.ofNat_toNat, List.nil_append]

end Recorder

end BitcoinPeer
