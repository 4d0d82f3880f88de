import BitcoinPeer.Merkle.Branch
import BitcoinPeer.Proofs.Merkle.Binding

/-!
# What a verified branch proves

A branch with one entry for each level that verifies against the root of some leaves starts at one
of the leaves, whatever its hashes and sides are, unless two different pairs of hashes, each of them
joined while the root was computed or while the branch was folded, have the same hash.

The argument takes the fold backwards from the root, level by level: the hash after an entry is on
the level above, so it is the hash of two children there; the pair that the entry joins has the same
hash, so it is that pair of children, and the hash before the entry is one of them
(`mem_level_of_fold`). Where the last node of a level is joined with itself, both sides of the pair
are that node, so either side of the entry will do.
-/

namespace BitcoinPeer.Merkle

open Digest (hashPair)

variable {leaves : List Hash256} {branch : List BranchEntry} {tx : Hash256} {height : Nat}
  {J : Hash256 × Hash256 → Prop}

/-! ### The pairs that a fold joins -/

/-- The two hashes that an entry joins, in their order. -/
def BranchEntry.pair (running : Hash256) (entry : BranchEntry) : Hash256 × Hash256 :=
  match entry.side with
  | .right => (running, entry.hash)
  | .left => (entry.hash, running)

theorem BranchEntry.join_eq_hashPair (running : Hash256) (entry : BranchEntry) :
    entry.join running = hashPair (entry.pair running).1 (entry.pair running).2 := by
  rcases entry with ⟨hash, _ | _⟩ <;> simp only [join, pair]

theorem BranchEntry.mem_pair (running : Hash256) (entry : BranchEntry) :
    running = (entry.pair running).1 ∨ running = (entry.pair running).2 := by
  rcases entry with ⟨hash, _ | _⟩
  · exact .inr rfl
  · exact .inl rfl

/-- The two hashes are joined while the branch is folded: what its first entries lead to, with the
hash of the next one. -/
def JoinsFolding (tx : Hash256) (branch : List BranchEntry) (p : Hash256 × Hash256) : Prop :=
  ∃ (k : Nat) (entry : BranchEntry),
    branch[k]? = some entry ∧ p = entry.pair (branchRoot tx (branch.take k))

/-- The two hashes are joined while the tree over the leaves is computed, or while the branch is
folded. -/
def JoinsVerifying (leaves : List Hash256) (tx : Hash256) (branch : List BranchEntry)
    (p : Hash256 × Hash256) : Prop :=
  Tree.JoinsComputing leaves p ∨ JoinsFolding tx branch p

theorem branchRoot_cons (tx : Hash256) (entry : BranchEntry) (branch : List BranchEntry) :
    branchRoot tx (entry :: branch) = branchRoot (entry.join tx) branch :=
  rfl

theorem joinsFolding_cons {entry : BranchEntry} {p : Hash256 × Hash256} :
    JoinsFolding tx (entry :: branch) p ↔
      p = entry.pair tx ∨ JoinsFolding (entry.join tx) branch p := by
  constructor
  · rintro ⟨k, e, he, rfl⟩
    cases k with
    | zero =>
      obtain rfl : entry = e := by simpa using he
      exact .inl rfl
    | succ k => exact .inr ⟨k, e, by simpa using he, rfl⟩
  · rintro (rfl | ⟨k, e, he, rfl⟩)
    · exact ⟨0, entry, rfl, rfl⟩
    · exact ⟨k + 1, e, by simpa using he, rfl⟩

/-! ### Backwards from the root -/

/-- One level down: if the hash after an entry is on the level above, the hash before it is on this
one. -/
theorem mem_level_of_join (hjoin : LevelsJoin leaves J) (hno : ¬ Collision J)
    (hheight : height < depthFor leaves.length) {entry : BranchEntry} (hpair : J (entry.pair tx))
    (hmem : entry.join tx ∈ level leaves (height + 1)) : tx ∈ level leaves height := by
  obtain ⟨i, hi⟩ := List.mem_iff_getElem?.mp hmem
  rw [getElem?_level, Option.map_eq_some_iff] at hi
  obtain ⟨l, hl, hhash⟩ := hi
  have hsame : entry.pair tx = (l, (level leaves height)[2 * i + 1]?.getD l) :=
    eq_of_not_collision hno hpair (hjoin height i l hheight hl)
      ((entry.join_eq_hashPair tx).symm.trans hhash.symm)
  rcases entry.mem_pair tx with hleft | hright
  · rw [hleft, hsame]
    exact List.mem_of_getElem? hl
  · rw [hright, hsame]
    cases hr : (level leaves height)[2 * i + 1]? with
    | none =>
      -- the node is joined with itself, so its left side is what stands on the right
      exact List.mem_of_getElem? hl
    | some r => exact List.mem_of_getElem? hr

/-- A branch that leads from a hash to the root of the leaves, with an entry for each level above
some height, starts at a node of that height. -/
theorem mem_level_of_fold (hne : leaves ≠ []) (hjoin : LevelsJoin leaves J) (hno : ¬ Collision J)
    (hfold : ∀ p, JoinsFolding tx branch p → J p)
    (hlen : branch.length + height = depthFor leaves.length)
    (hroot : branchRoot tx branch = root leaves) : tx ∈ level leaves height := by
  induction branch generalizing tx height with
  | nil =>
    rw [show height = depthFor leaves.length by simpa using hlen, level_depthFor hne,
      List.mem_singleton, ← root_eq_reduce hne]
    exact hroot
  | cons entry branch ih =>
    rw [List.length_cons] at hlen
    rw [branchRoot_cons] at hroot
    have hfirst : J (entry.pair tx) := hfold _ (joinsFolding_cons.mpr (.inl rfl))
    have hrest : ∀ p, JoinsFolding (entry.join tx) branch p → J p :=
      fun p hp => hfold p (joinsFolding_cons.mpr (.inr hp))
    have habove : entry.join tx ∈ level leaves (height + 1) := ih hrest (by omega) hroot
    exact mem_level_of_join hjoin hno (by omega) hfirst habove

/-- **Soundness of branches**: a branch with an entry for each level of the tree over the leaves
that verifies against their root is a branch of one of them, or else two different pairs of hashes
that were joined on the way have the same hash. -/
theorem verifyBranch_binds (leaves : List Hash256) (hne : leaves ≠ []) (tx : Hash256)
    (branch : List BranchEntry) (hlen : branch.length = depthFor leaves.length)
    (hverify : verifyBranch tx branch (root leaves) = true) :
    tx ∈ leaves ∨ Collision (JoinsVerifying leaves tx branch) := by
  rw [or_iff_not_imp_right]
  intro hno
  have hjoin : LevelsJoin leaves (JoinsVerifying leaves tx branch) := by
    intro height i l hheight hl
    exact .inl ((Tree.joinsComputing_iff hne).mpr ⟨height, i, l, hheight, hl, rfl⟩)
  have hroot : branchRoot tx branch = root leaves := by simpa [verifyBranch] using hverify
  have hleaf : tx ∈ level leaves 0 := by
    apply mem_level_of_fold hne hjoin hno _ hlen hroot
    intro p hp
    exact .inr hp
  exact hleaf

/-- Three leaves: the entry beside the last one, which has no sibling, stands on the right. -/
theorem verifyBranch_binds_three :
    [Hash256.zero, Hash256.zero, hashPair Hash256.zero Hash256.zero] ≠ [] ∧
      [BranchEntry.mk (hashPair Hash256.zero Hash256.zero) .right,
        BranchEntry.mk (hashPair Hash256.zero Hash256.zero) .left].length = depthFor 3 ∧
      verifyBranch (hashPair Hash256.zero Hash256.zero)
        [⟨hashPair Hash256.zero Hash256.zero, .right⟩, ⟨hashPair Hash256.zero Hash256.zero, .left⟩]
        (root [Hash256.zero, Hash256.zero, hashPair Hash256.zero Hash256.zero]) = true ∧
      (hashPair Hash256.zero Hash256.zero ∈
          [Hash256.zero, Hash256.zero, hashPair Hash256.zero Hash256.zero] ∨
        Collision (JoinsVerifying
          [Hash256.zero, Hash256.zero, hashPair Hash256.zero Hash256.zero]
          (hashPair Hash256.zero Hash256.zero)
          [⟨hashPair Hash256.zero Hash256.zero, .right⟩,
            ⟨hashPair Hash256.zero Hash256.zero, .left⟩])) := by
  have hne : [Hash256.zero, Hash256.zero, hashPair Hash256.zero Hash256.zero] ≠ [] := by simp
  have hlen : [BranchEntry.mk (hashPair Hash256.zero Hash256.zero) .right,
      BranchEntry.mk (hashPair Hash256.zero Hash256.zero) .left].length = depthFor 3 := by decide
  have hverify : verifyBranch (hashPair Hash256.zero Hash256.zero)
      [⟨hashPair Hash256.zero Hash256.zero, .right⟩, ⟨hashPair Hash256.zero Hash256.zero, .left⟩]
      (root [Hash256.zero, Hash256.zero, hashPair Hash256.zero Hash256.zero]) = true := by
    rw [root_eq_reduce hne]
    simp [verifyBranch, branchRoot, BranchEntry.join, reduce, parents]
  exact ⟨hne, hlen, hverify, verifyBranch_binds _ hne _ _ hlen hverify⟩

end BitcoinPeer.Merkle
