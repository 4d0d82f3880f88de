import BitcoinPeer.Proofs.Merkle.Binding

/-!
# What a root commits to

Two lists of as many leaves that have the same root are the same list, unless two different pairs of
hashes, each of them joined while one of the two roots was computed, have the same hash.

The two trees have the same shape, so their levels are compared from the root down: where a level of
one tree is that of the other, each of its hashes was joined of two pairs with the same hash, so of one
pair, and the levels below are the same as well (`level_eq_of_above`). A last node without a partner is
the left side of its pair in both trees, and only the equal lengths say so.
-/

namespace BitcoinPeer.Merkle

open Digest (hashPair)

variable {leaves others : List Hash256} {height : Nat} {J : Hash256 × Hash256 → Prop}

/-- The two hashes are joined while the tree over the first leaves or the one over the others is
computed. -/
def JoinsComparing (leaves others : List Hash256) (p : Hash256 × Hash256) : Prop :=
  Tree.JoinsComputing leaves p ∨ Tree.JoinsComputing others p

/-- Nodes that are the same in two trees were joined of the same pair. -/
theorem pair_eq_of_above (hjoin : LevelsJoin leaves J) (hjoin' : LevelsJoin others J)
    (hno : ¬ Collision J) (hheight : height < depthFor leaves.length)
    (hheight' : height < depthFor others.length) {i : Nat} {l l' : Hash256}
    (hl : (level leaves height)[2 * i]? = some l) (hl' : (level others height)[2 * i]? = some l')
    (habove : (level leaves (height + 1))[i]? = (level others (height + 1))[i]?) :
    l = l' ∧ (level leaves height)[2 * i + 1]?.getD l = (level others height)[2 * i + 1]?.getD l' := by
  rw [getElem?_level, getElem?_level, hl, hl', Option.map_some, Option.map_some] at habove
  have hpair := eq_of_not_collision hno (hjoin height i l hheight hl)
    (hjoin' height i l' hheight' hl') (Option.some.inj habove)
  exact Prod.mk.inj hpair

/-- One level down: trees over as many leaves that agree on a level agree on the one below it. -/
theorem level_eq_of_above (hlen : leaves.length = others.length) (hjoin : LevelsJoin leaves J)
    (hjoin' : LevelsJoin others J) (hno : ¬ Collision J) (hheight : height < depthFor leaves.length)
    (habove : level leaves (height + 1) = level others (height + 1)) :
    level leaves height = level others height := by
  have hwidth : (level leaves height).length = (level others height).length := by
    rw [length_level, length_level, hlen]
  refine List.ext_getElem hwidth ?_
  intro i hi hi'
  have hleft : 2 * (i / 2) < (level leaves height).length := by omega
  have hleft' : 2 * (i / 2) < (level others height).length := by omega
  obtain ⟨hfirst, hsecond⟩ := pair_eq_of_above hjoin hjoin' hno hheight (hlen ▸ hheight)
    (List.getElem?_eq_getElem hleft) (List.getElem?_eq_getElem hleft')
    (congrArg (·[i / 2]?) habove)
  obtain heven | hodd : i = 2 * (i / 2) ∨ i = 2 * (i / 2) + 1 := by omega
  · simpa only [← heven] using hfirst
  · -- both trees have a right child here, so neither pair repeats its left side
    rw [← hodd, List.getElem?_eq_getElem hi, List.getElem?_eq_getElem hi'] at hsecond
    exact hsecond

/-- Trees over as many leaves with the same root agree on every level. -/
theorem level_eq_of_reduce_eq (hne : leaves ≠ []) (hlen : leaves.length = others.length)
    (hjoin : LevelsJoin leaves J) (hjoin' : LevelsJoin others J) (hno : ¬ Collision J)
    (hroot : reduce leaves = reduce others) (d : Nat) (hd : d + height = depthFor leaves.length) :
    level leaves height = level others height := by
  induction d generalizing height with
  | zero =>
    have hne' : others ≠ [] := List.ne_nil_of_length_pos (hlen ▸ List.length_pos_iff.mpr hne)
    obtain rfl : height = depthFor leaves.length := by omega
    rw [level_depthFor hne, hlen, level_depthFor hne', hroot]
  | succ d ih =>
    have habove : level leaves (height + 1) = level others (height + 1) := ih (by omega)
    exact level_eq_of_above hlen hjoin hjoin' hno (by omega) habove

/-- **Commitment**: of as many leaves, no others have the same root, or else two different pairs of
hashes that were joined while the two roots were computed have the same hash. -/
theorem root_binds (leaves others : List Hash256) (hne : leaves ≠ [])
    (hlen : leaves.length = others.length) (hroot : root leaves = root others) :
    leaves = others ∨ Collision (JoinsComparing leaves others) := by
  rw [or_iff_not_imp_right]
  intro hno
  have hne' : others ≠ [] := List.ne_nil_of_length_pos (hlen ▸ List.length_pos_iff.mpr hne)
  have hjoin : LevelsJoin leaves (JoinsComparing leaves others) :=
    (Tree.levelsJoin_computing hne).mono fun p hp => .inl hp
  have hjoin' : LevelsJoin others (JoinsComparing leaves others) :=
    (Tree.levelsJoin_computing hne').mono fun p hp => .inr hp
  rw [root_eq_reduce hne, root_eq_reduce hne'] at hroot
  have hleaves : level leaves 0 = level others 0 :=
    level_eq_of_reduce_eq hne hlen hjoin hjoin' hno hroot (depthFor leaves.length) (Nat.add_zero _)
  exact hleaves

/-- Three leaves that read the same from either end. -/
theorem root_binds_three :
    [Hash256.zero, hashPair Hash256.zero Hash256.zero, Hash256.zero] ≠ [] ∧
      [Hash256.zero, hashPair Hash256.zero Hash256.zero, Hash256.zero].length =
        [Hash256.zero, hashPair Hash256.zero Hash256.zero, Hash256.zero].reverse.length ∧
      root [Hash256.zero, hashPair Hash256.zero Hash256.zero, Hash256.zero] =
        root [Hash256.zero, hashPair Hash256.zero Hash256.zero, Hash256.zero].reverse ∧
      ([Hash256.zero, hashPair Hash256.zero Hash256.zero, Hash256.zero] =
          [Hash256.zero, hashPair Hash256.zero Hash256.zero, Hash256.zero].reverse ∨
        Collision (JoinsComparing
          [Hash256.zero, hashPair Hash256.zero Hash256.zero, Hash256.zero]
          [Hash256.zero, hashPair Hash256.zero Hash256.zero, Hash256.zero].reverse)) := by
  refine ⟨by simp, by simp, by simp, ?_⟩
  exact root_binds _ _ (by simp) (by simp) (by simp)

end BitcoinPeer.Merkle
