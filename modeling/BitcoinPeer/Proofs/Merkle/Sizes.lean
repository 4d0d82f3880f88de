import BitcoinPeer.Proofs.Merkle.Flags
import BitcoinPeer.Proofs.Merkle.RoundTrip

/-!
# Sizes of partial trees

A partial tree has no more hashes than leaves, no more hashes than flags, and no more flags than a
tree of its height has nodes. So it keeps the bounds that are checked before one is read.
-/

namespace BitcoinPeer.Merkle

variable {t : Tree} {marks : Array Bool} {total height index : Nat} {flags : List Bool}
  {hashes : List Hash256}

/-- How many flags and hashes may be written for a node. -/
structure ProofSize (total height index : Nat) (flags : List Bool) (hashes : List Hash256) : Prop where
  hashes_le_leaves : hashes.length ≤ endOf total height index - index * 2 ^ height
  hashes_le_flags : hashes.length ≤ flags.length
  flags_lt : flags.length < 2 ^ (height + 1)

/-- A node below which nothing is visited. -/
theorem proofSize_single {flag : Bool} (hhashes : hashes.length ≤ 1) (hi : index < width total height) :
    ProofSize total height index [flag] hashes where
  hashes_le_leaves := by
    rw [lt_width_iff] at hi
    have hpos := Nat.two_pow_pos height
    have hend : index * 2 ^ height + 1 ≤ endOf total height index := by
      rw [endOf, Nat.add_mul]
      omega
    omega
  hashes_le_flags := hhashes
  flags_lt := Nat.one_lt_two_pow (Nat.succ_ne_zero height)

theorem ProofSize.single (h : ProofSize total height (2 * index) flags hashes)
    (hright : ¬ 2 * index + 1 < width total height) :
    ProofSize total (height + 1) index (true :: flags) hashes where
  hashes_le_leaves := by
    rw [endOf_single hright, mul_two_pow_succ]
    exact h.hashes_le_leaves
  hashes_le_flags := by
    have hle := h.hashes_le_flags
    rw [List.length_cons]
    omega
  flags_lt := by
    have hlt := h.flags_lt
    rw [List.length_cons, Nat.pow_succ]
    omega

theorem ProofSize.fork {flags' : List Bool} {hashes' : List Hash256}
    (h : ProofSize total height (2 * index) flags hashes)
    (h' : ProofSize total height (2 * index + 1) flags' hashes')
    (hright : 2 * index + 1 < width total height) :
    ProofSize total (height + 1) index (true :: flags ++ flags') (hashes ++ hashes') where
  hashes_le_leaves := by
    obtain ⟨hleft, hend, hle⟩ := endOf_fork hright
    have hl := h.hashes_le_leaves
    have hr := h'.hashes_le_leaves
    have hstart : 2 * index * 2 ^ height ≤ (2 * index + 1) * 2 ^ height :=
      Nat.mul_le_mul_right _ (Nat.le_succ _)
    rw [hend, mul_two_pow_succ, List.length_append]
    omega
  hashes_le_flags := by
    have hl := h.hashes_le_flags
    have hr := h'.hashes_le_flags
    simp only [List.length_append, List.length_cons]
    omega
  flags_lt := by
    have hl := h.flags_lt
    have hr := h'.flags_lt
    rw [Nat.pow_succ]
    simp only [List.length_append, List.length_cons]
    omega

namespace Tree

theorem proofSize_of_proof? (hshaped : t.rows.Shaped t.total) (hheight : height ≤ t.maxDepth)
    (hi : index < width t.total height) (h : t.proof? marks height index = some (flags, hashes)) :
    ProofSize t.total height index flags hashes := by
  induction height generalizing index flags hashes with
  | zero =>
    cases h
    exact proofSize_single (by cases t.node? t.maxDepth index <;> simp) hi
  | succ height ih =>
    have hrow := hshaped.row
      (show t.maxDepth - (height + 1) + 1 + height = depthFor t.total by
        unfold maxDepth at hheight ⊢
        omega)
    rw [width_succ] at hi
    rw [proof?] at h
    split at h
    · -- the node is visited, with one child or two
      simp only [hrow, Option.bind_eq_bind, Option.bind_some, Option.bind_eq_some_iff] at h
      obtain ⟨⟨flagsLeft, hashesLeft⟩, hl, h⟩ := h
      have hleft := ih (by omega) (by omega) hl
      split at h
      · rename_i hright
        obtain ⟨⟨flagsRight, hashesRight⟩, hr, h⟩ := Option.bind_eq_some_iff.mp h
        cases h
        exact hleft.fork (ih (by omega) hright hr) hright
      · rename_i hright
        cases h
        exact hleft.single hright
    · cases h
      refine proofSize_single ?_ (by rw [width_succ]; exact hi)
      cases t.node? (t.maxDepth - (height + 1)) index <;> simp

/-- The whole partial tree. -/
theorem proofSize_root (hshaped : t.rows.Shaped t.total)
    (h : t.proof? marks t.maxDepth 0 = some (flags, hashes)) :
    hashes.length ≤ t.total ∧ hashes.length ≤ flags.length ∧ flags.length < 2 ^ (t.maxDepth + 1) := by
  have hone := width_depthFor hshaped.pos
  have hsize := proofSize_of_proof? hshaped le_rfl (by unfold maxDepth; omega) h
  refine ⟨?_, hsize.hashes_le_flags, hsize.flags_lt⟩
  have hend : endOf t.total t.maxDepth 0 ≤ t.total := Nat.min_le_right _ _
  have hle := hsize.hashes_le_leaves
  omega

end Tree

/-- Packing takes a byte for every eight flags. -/
theorem length_packFlags (flags : List Bool) :
    flags.length ≤ 8 * (packFlags flags).length ∧ 8 * (packFlags flags).length < flags.length + 8 := by
  obtain ⟨k, hk, hunpack⟩ := exists_unpackFlags_packFlags flags
  have hlen := length_unpackFlags (packFlags flags)
  rw [hunpack, List.length_append, List.length_replicate] at hlen
  omega

end BitcoinPeer.Merkle
