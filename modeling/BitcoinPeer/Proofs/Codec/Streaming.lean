import BitcoinPeer.Codec.Varint
import BitcoinPeer.Proofs.Codec.Reading

/-!
# Reading what has arrived so far

A decoder that streams (`Decoder.Streams`) may be run on the bytes that have arrived so far. If it
reads a value, more bytes change nothing but what is left unread; and if it fails for another reason
than that the input ended, no more bytes will help. Like `Reads`, the property goes through sequences
and repetitions, so that it holds of a record as soon as it holds of its fields.

It follows that of an encoding that is read back, everything shorter is recognized as cut short
(`Streams.truncated`).
-/

namespace BitcoinPeer

theorem DecodeError.isTruncated_iff {e : DecodeError} :
    e.isTruncated = true ↔ ∃ n, e = .truncated n := by
  cases e <;> simp [isTruncated]

namespace Decoder

variable {α β : Type} {d d' : Decoder α} {f : α → Decoder β} {g : α → β} {a : α}
  {bs rest more whole part : Bytes} {e : DecodeError}

/-- What is read is taken off the front whatever follows it, and a failure for another reason than
that the input ended stays when more follows. -/
structure Streams (d : Decoder α) : Prop where
  exists_reads : ∀ {bs a rest}, d.run bs = .ok (a, rest) → ∃ used, bs = used ++ rest ∧ d.Reads used a
  error_append : ∀ {bs e}, d.run bs = .error e → e.isTruncated = false →
    ∀ more, d.run (bs ++ more) = .error e

namespace Streams

theorem run_append (h : d.Streams) (hrun : d.run bs = .ok (a, rest)) (more : Bytes) :
    d.run (bs ++ more) = .ok (a, rest ++ more) := by
  obtain ⟨used, rfl, hreads⟩ := h.exists_reads hrun
  rw [List.append_assoc, hreads]

theorem suffix (h : d.Streams) (hrun : d.run bs = .ok (a, rest)) : rest <:+ bs := by
  obtain ⟨used, rfl, -⟩ := h.exists_reads hrun
  exact List.suffix_append used rest

/-- **Cut short**: of an input that is read to its end, everything shorter ends too early. -/
theorem truncated (h : d.Streams) (hrun : d.run whole = .ok (a, [])) (hpart : part <+: whole)
    (hne : part ≠ whole) : ∃ n, d.run part = .error (.truncated n) := by
  obtain ⟨more, rfl⟩ := hpart
  cases hcut : d.run part with
  | ok p =>
    -- then nothing would be left for the bytes that are missing
    have hlong := h.run_append hcut more
    rw [hrun] at hlong
    have hrest : p.2 ++ more = [] := (Prod.mk.inj (Except.ok.inj hlong)).2.symm
    rw [(List.append_eq_nil_iff.mp hrest).2, List.append_nil] at hne
    exact absurd rfl hne
  | error e =>
    cases htruncated : e.isTruncated with
    | true =>
      obtain ⟨n, rfl⟩ := DecodeError.isTruncated_iff.mp htruncated
      exact ⟨n, rfl⟩
    | false =>
      have hlong := h.error_append hcut htruncated more
      rw [hrun] at hlong
      cases hlong

/-! ### Sequences -/

theorem bind (hd : d.Streams) (hf : ∀ a, (f a).Streams) : (d >>= f).Streams where
  exists_reads := by
    intro bs b rest hrun
    rw [run_bind] at hrun
    cases hfirst : d.run bs with
    | error e => simp [hfirst] at hrun
    | ok p =>
      obtain ⟨a, mid⟩ := p
      rw [hfirst] at hrun
      obtain ⟨used, rfl, hreads⟩ := hd.exists_reads hfirst
      obtain ⟨used', rfl, hreads'⟩ := (hf a).exists_reads hrun
      exact ⟨used ++ used', (List.append_assoc ..).symm, hreads.bind hreads'⟩
  error_append := by
    intro bs e hrun htruncated more
    rw [run_bind] at hrun
    cases hfirst : d.run bs with
    | error e' =>
      rw [hfirst] at hrun
      obtain rfl := Except.error.inj hrun
      exact run_bind_error f (hd.error_append hfirst htruncated more)
    | ok p =>
      rw [hfirst] at hrun
      rw [run_bind_ok f (hd.run_append hfirst more)]
      exact (hf p.1).error_append hrun htruncated more

end Streams

theorem streams_pure (a : α) : (pure a : Decoder α).Streams where
  exists_reads := by
    intro bs a' rest hrun
    cases hrun
    exact ⟨[], rfl, reads_pure a⟩
  error_append := nofun

theorem streams_fail (e : DecodeError) : (fail e : Decoder α).Streams where
  exists_reads := nofun
  error_append := fun hrun _ _ => hrun

/-- The last field of a record. -/
theorem Streams.ret (hd : d.Streams) : (d >>= fun a => pure (g a)).Streams :=
  hd.bind fun a => streams_pure (g a)

theorem Streams.ite {p : Prop} [Decidable p] (hd : d.Streams) (hd' : d'.Streams) :
    (if p then d else d').Streams := by
  split
  · exact hd
  · exact hd'

/-! ### Repetition -/

theorem Streams.replicate (hd : d.Streams) (n : Nat) : (replicate d n).Streams := by
  induction n with
  | zero => exact streams_pure []
  | succ n ih =>
    rw [replicate_succ]
    exact hd.bind fun a => ih.ret

/-! ### Fields of a fixed width -/

theorem streams_octets (n : Nat) : (octets n).Streams where
  exists_reads := by
    intro bs o rest hrun
    unfold octets at hrun
    simp only at hrun
    split at hrun
    · rename_i hlen
      cases hrun
      exact ⟨bs.take n, (List.take_append_drop n bs).symm, reads_octets ⟨bs.take n, hlen⟩⟩
    · cases hrun
  error_append := by
    intro bs e hrun htruncated
    unfold octets at hrun
    simp only at hrun
    split at hrun
    · cases hrun
    · cases hrun
      cases htruncated

theorem streams_natLE (n : Nat) : (natLE n).Streams :=
  (streams_octets n).ret

theorem streams_uint8 : uint8.Streams :=
  (streams_natLE 1).ret

theorem streams_uint16BE : uint16BE.Streams :=
  (streams_octets 2).ret

theorem streams_uint32 : uint32.Streams :=
  (streams_natLE 4).ret

theorem streams_int32 : int32.Streams :=
  streams_uint32.ret

theorem streams_uint64 : uint64.Streams :=
  (streams_natLE 8).ret

theorem streams_int64 : int64.Streams :=
  streams_uint64.ret

/-! ### Numbers of a varying width -/

theorem streams_compactSize : CompactSize.decode.Streams :=
  streams_uint8.bind fun _ => .ite (streams_natLE 2).ret <| .ite (streams_natLE 4).ret <|
    .ite (streams_natLE 8).ret (streams_pure _)

theorem decodeFrom_cons (value : Nat) (b : UInt8) (bs : Bytes) :
    Varint.decodeFrom value (b :: bs) =
      if UInt64.size / 128 ≤ value then .error .varintOverflow
      else if b < 128 then .ok (UInt64.ofNat (value * 128 + b.toNat % 128), bs)
      else if UInt64.size ≤ value * 128 + b.toNat % 128 + 1 then .error .varintOverflow
      else Varint.decodeFrom (value * 128 + b.toNat % 128 + 1) bs := rfl

theorem exists_used_of_decodeFrom {value : Nat} {n : UInt64}
    (h : Varint.decodeFrom value bs = .ok (n, rest)) :
    ∃ used, bs = used ++ rest ∧ ∀ rest', Varint.decodeFrom value (used ++ rest') = .ok (n, rest') := by
  induction bs generalizing value with
  | nil => cases h
  | cons b bs ih =>
    rw [decodeFrom_cons] at h
    split_ifs at h with hroom hlast hnext
    · cases h
      refine ⟨[b], rfl, ?_⟩
      intro rest'
      rw [List.singleton_append, decodeFrom_cons, if_neg hroom, if_pos hlast]
    · obtain ⟨used, rfl, hused⟩ := ih h
      refine ⟨b :: used, rfl, ?_⟩
      intro rest'
      rw [List.cons_append, decodeFrom_cons, if_neg hroom, if_neg hlast, if_neg hnext, hused]

theorem error_append_of_decodeFrom {value : Nat} (h : Varint.decodeFrom value bs = .error e)
    (htruncated : e.isTruncated = false) (more : Bytes) :
    Varint.decodeFrom value (bs ++ more) = .error e := by
  induction bs generalizing value with
  | nil =>
    cases h
    cases htruncated
  | cons b bs ih =>
    rw [List.cons_append]
    rw [decodeFrom_cons] at h ⊢
    split_ifs at h ⊢ with hroom hlast hnext
    · exact h
    · exact h
    · exact ih h

theorem streams_varint : Varint.decode.Streams where
  exists_reads := exists_used_of_decodeFrom
  error_append := error_append_of_decodeFrom

theorem streams_varints : varints.Streams :=
  streams_varint.bind fun count => streams_varint.replicate count.toNat

/-! ### Byte strings, texts and lists -/

theorem streams_announced (n : Nat) : (announced n).Streams where
  exists_reads := by
    intro bs field rest hrun
    obtain ⟨rfl, rfl⟩ := run_announced_eq_ok_iff.mp hrun
    exact ⟨field, rfl, reads_announced field⟩
  error_append := by
    intro bs e hrun htruncated
    unfold announced at hrun
    simp only at hrun
    split at hrun
    · cases hrun
    · cases hrun
      cases htruncated

theorem streams_byteString : byteString.Streams :=
  streams_compactSize.bind fun _ => .ite (streams_fail _) (streams_announced _)

theorem streams_text : text.Streams := by
  refine streams_byteString.bind fun bs => ?_
  cases String.fromUTF8? ⟨bs.toArray⟩ with
  | none => exact streams_fail _
  | some s => exact streams_pure s

theorem Streams.counted (hd : d.Streams) : (counted d).Streams :=
  streams_compactSize.bind fun count => hd.replicate count.toNat

theorem Streams.list (hd : d.Streams) : (list d).Streams :=
  streams_compactSize.bind fun count => .ite (streams_fail _) (hd.replicate count.toNat)

end Decoder

end BitcoinPeer
