import BitcoinPeer.Proofs.Codec.Respelling

/-!
# How many bytes a value takes

`d.Takes cost` says that a value that `d` reads takes at least `cost` bytes off the front. A decoder
whose sizes can be noted takes at least as many bytes as are written of the value, since no form of a
compact size is shorter than the one that is written (`Recorder.Follows.takes`); sequences take what
their parts take.
-/

namespace BitcoinPeer

namespace Decoder

variable {α β : Type} {d : Decoder α} {f : α → Decoder β} {cost : α → Nat} {total : β → Nat}

/-- A value that is read takes at least so many bytes off the front. -/
def Takes (d : Decoder α) (cost : α → Nat) : Prop :=
  ∀ ⦃bs a rest⦄, d.run bs = .ok (a, rest) → cost a + rest.length ≤ bs.length

theorem Takes.bind (hd : d.Takes cost) (hf : ∀ a, (f a).Takes fun b => total b - cost a) :
    (d >>= f).Takes total := by
  intro bs b rest hrun
  obtain ⟨a, mid, hfirst, hsecond⟩ := exists_of_run_bind hrun
  have hleft : cost a + mid.length ≤ bs.length := hd hfirst
  have hright : total b - cost a + rest.length ≤ mid.length := hf a hsecond
  omega

theorem Takes.mono {cost' : α → Nat} (hd : d.Takes cost) (h : ∀ a, cost' a ≤ cost a) :
    d.Takes cost' := by
  intro bs a rest hrun
  exact Nat.le_trans (Nat.add_le_add_right (h a) _) (hd hrun)

/-- The last field of a record. -/
theorem Takes.ret {g : α → β} (hd : d.Takes fun a => total (g a)) :
    (d >>= fun a => pure (g a)).Takes total := by
  intro bs b rest hrun
  obtain ⟨a, mid, hfirst, hsecond⟩ := exists_of_run_bind hrun
  cases hsecond
  exact hd hfirst

end Decoder

/-- At least as many bytes are read as are written of the value. -/
theorem Recorder.Follows.takes {α : Type} {d : Recorder α} {p : Decoder α} {encode : α → Bytes}
    (h : d.Follows p [] encode) : p.Takes fun a => (encode a).length := by
  intro bs a rest hrun
  obtain ⟨noted, hnoted⟩ := h.exists_run [] hrun
  obtain ⟨sizes, used, written, -, rfl, hwritten, hrespelled⟩ := h.respelled hnoted
  show (encode a).length + rest.length ≤ (used ++ rest).length
  rw [hwritten, List.nil_append, List.length_append]
  exact Nat.add_le_add_right hrespelled.length_le _

namespace Decoder

theorem takes_uint8 : uint8.Takes fun _ => 1 :=
  (Recorder.follows_plain exact_uint8).takes

theorem takes_byteString : byteString.Takes fun bs => (Encode.byteString bs).length :=
  Recorder.follows_byteString.takes

end Decoder

end BitcoinPeer
