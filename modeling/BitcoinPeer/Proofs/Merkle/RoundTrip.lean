import BitcoinPeer.Proofs.Merkle.Computed
import BitcoinPeer.Proofs.Merkle.Populated

/-!
# Partial trees read back

What a full tree writes for a node is read back by the parser at that node, whatever follows: the
hash is that of the node's level and the matches are the marked leaves below it
(`Full.exists_proof?`). So the partial tree of a full tree fills a new tree with the same root and
proves just the marked leaves.
-/

namespace BitcoinPeer.Merkle

open Digest (hashPair)

/-- The marked leaves with their positions. -/
def markedLeaves (leaves : List Hash256) (marks : List Bool) : List (Nat × Hash256) :=
  (List.range leaves.length).filterMap fun i =>
    if marks[i]?.getD false then leaves[i]?.map (i, ·) else none

/-- The marked leaves from one position on and below another. -/
def markedIn (leaves : List Hash256) (marks : List Bool) (first last : Nat) : List (Nat × Hash256) :=
  (List.range' first (last - first)).filterMap fun i =>
    if marks[i]?.getD false then leaves[i]?.map (i, ·) else none

/-- The position after the last leaf below a node. -/
def endOf (total height index : Nat) : Nat :=
  min ((index + 1) * 2 ^ height) total

variable {leaves : List Hash256} {marks : List Bool} {t : Tree} {total height index : Nat}

/-! ### The leaves below a node -/

/-- A node exists if its first leaf does. -/
theorem lt_width_iff : index < width total height ↔ index * 2 ^ height < total := by
  have hpos : 0 < 2 ^ height := Nat.two_pow_pos height
  rw [← not_le, ← not_le, width_eq_ceilDiv, ceilDiv_le_iff_le_smul hpos, smul_eq_mul, Nat.mul_comm]

theorem endOf_leaf (h : index < total) : endOf total 0 index = index + 1 := by
  rw [endOf, Nat.pow_zero, Nat.mul_one, Nat.min_eq_left h]

theorem markedIn_append {a b c : Nat} (hab : a ≤ b) (hbc : b ≤ c) :
    markedIn leaves marks a b ++ markedIn leaves marks b c = markedIn leaves marks a c := by
  obtain ⟨m, rfl⟩ := Nat.exists_eq_add_of_le hab
  obtain ⟨n, rfl⟩ := Nat.exists_eq_add_of_le hbc
  rw [markedIn, markedIn, markedIn, ← List.filterMap_append, Nat.add_sub_cancel_left,
    Nat.add_sub_cancel_left, Nat.add_assoc, Nat.add_sub_cancel_left, List.range'_append_1]

theorem anyMarked_eq (t : Tree) (marks : List Bool) (height index : Nat) :
    t.anyMarked marks.toArray height index =
      (List.range' (index * 2 ^ height) (endOf t.total height index - index * 2 ^ height)).any
        (marks[·]?.getD false) := by
  simp [Tree.anyMarked, endOf, Nat.shiftLeft_eq]

/-- Below a node without a marked leaf nothing is marked. -/
theorem markedIn_eq_nil (h : t.anyMarked marks.toArray height index = false) :
    markedIn leaves marks (index * 2 ^ height) (endOf t.total height index) = [] := by
  rw [anyMarked_eq, List.any_eq_false] at h
  rw [markedIn, List.filterMap_eq_nil_iff]
  intro i hi
  rw [if_neg (h i hi)]

theorem mul_two_pow_succ (index height : Nat) : index * 2 ^ (height + 1) = 2 * index * 2 ^ height := by
  rw [Nat.pow_succ', ← Nat.mul_assoc, Nat.mul_comm index 2]

/-- The leaves below the left child of a node come before those below the right one. -/
theorem endOf_fork (h : 2 * index + 1 < width total height) :
    endOf total height (2 * index) = (2 * index + 1) * 2 ^ height ∧
      endOf total (height + 1) index = endOf total height (2 * index + 1) ∧
      (2 * index + 1) * 2 ^ height ≤ endOf total height (2 * index + 1) := by
  rw [lt_width_iff] at h
  refine ⟨Nat.min_eq_left h.le, ?_, ?_⟩
  · rw [endOf, endOf, mul_two_pow_succ, Nat.mul_add]
  · exact Nat.le_min.mpr ⟨Nat.mul_le_mul_right _ (Nat.le_succ _), h.le⟩

theorem endOf_single (h : ¬ 2 * index + 1 < width total height) :
    endOf total (height + 1) index = endOf total height (2 * index) := by
  rw [lt_width_iff, not_lt] at h
  have hle : total ≤ (2 * (index + 1)) * 2 ^ height :=
    h.trans (Nat.mul_le_mul_right _ (by omega))
  rw [endOf, endOf, mul_two_pow_succ, Nat.min_eq_right hle, Nat.min_eq_right h]

/-- The leaves below a node are those below its left child and then those below its right one. -/
theorem markedIn_fork (h : 2 * index + 1 < width total height) :
    markedIn leaves marks (index * 2 ^ (height + 1)) (endOf total (height + 1) index) =
      markedIn leaves marks (2 * index * 2 ^ height) (endOf total height (2 * index)) ++
        markedIn leaves marks ((2 * index + 1) * 2 ^ height) (endOf total height (2 * index + 1)) := by
  obtain ⟨hleft, hright, hle⟩ := endOf_fork h
  rw [hright, mul_two_pow_succ, hleft,
    markedIn_append (Nat.mul_le_mul_right _ (Nat.le_succ _)) hle]

/-- All leaves below a node without a right child are below its left child. -/
theorem markedIn_single (h : ¬ 2 * index + 1 < width total height) :
    markedIn leaves marks (index * 2 ^ (height + 1)) (endOf total (height + 1) index) =
      markedIn leaves marks (2 * index * 2 ^ height) (endOf total height (2 * index)) := by
  rw [endOf_single h, mul_two_pow_succ]

/-! ### Reading back -/

namespace Tree

/-- What a full tree writes for a node is read back, and nothing of what follows it. -/
def ReadsBack (leaves : List Hash256) (marks : List Bool) (height index : Nat) (flags : List Bool)
    (hashes : List Hash256) : Prop :=
  ∀ restFlags restHashes, ∃ p,
    parse leaves.length height index ⟨flags ++ restFlags, hashes ++ restHashes⟩ = .ok p ∧
    (level leaves height)[index]? = some p.hash ∧ p.feed = ⟨restFlags, restHashes⟩ ∧
    p.matched = markedIn leaves marks (index * 2 ^ height) (endOf leaves.length height index)

variable {flags flagsLeft flagsRight : List Bool} {hashes hashesLeft hashesRight : List Hash256}
  {a : Hash256}

theorem readsBack_leaf (hi : index < leaves.length) :
    ReadsBack leaves marks 0 index [marks[index]?.getD false] [leaves[index]] := by
  intro restFlags restHashes
  refine ⟨_, rfl, List.getElem?_eq_getElem hi, rfl, ?_⟩
  rw [endOf_leaf hi, Nat.pow_zero, Nat.mul_one, markedIn, Nat.add_sub_cancel_left]
  cases hmark : marks[index]?.getD false <;>
    simp [Parse.matched, List.range', hmark, hi]

theorem readsBack_unmarked (ha : (level leaves (height + 1))[index]? = some a)
    (hnone : markedIn leaves marks (index * 2 ^ (height + 1))
      (endOf leaves.length (height + 1) index) = []) :
    ReadsBack leaves marks (height + 1) index [false] [a] :=
  fun _ _ => ⟨_, rfl, ha, rfl, hnone.symm⟩

theorem readsBack_single (hright : ¬ 2 * index + 1 < width leaves.length height)
    (hleft : ReadsBack leaves marks height (2 * index) flags hashes) :
    ReadsBack leaves marks (height + 1) index (true :: flags) hashes := by
  intro restFlags restHashes
  obtain ⟨l, hl, hhash, hfeed, hmatched⟩ := hleft restFlags restHashes
  refine ⟨⟨hashPair l.hash l.hash, l.visits, l.feed⟩, ?_, ?_, hfeed, ?_⟩
  · show (parse leaves.length height (2 * index) ⟨flags ++ restFlags, hashes ++ restHashes⟩ >>=
      fun l => _) = _
    rw [hl]
    exact if_neg hright
  · have hnone : (level leaves height)[2 * index + 1]? = none := by
      rw [List.getElem?_eq_none_iff, length_level]
      omega
    rw [getElem?_level, hhash, hnone]
    rfl
  · rw [markedIn_single hright]
    exact hmatched

theorem readsBack_fork (hright : 2 * index + 1 < width leaves.length height)
    (hleft : ReadsBack leaves marks height (2 * index) flagsLeft hashesLeft)
    (hright' : ReadsBack leaves marks height (2 * index + 1) flagsRight hashesRight) :
    ReadsBack leaves marks (height + 1) index (true :: flagsLeft ++ flagsRight)
      (hashesLeft ++ hashesRight) := by
  intro restFlags restHashes
  -- for the left child, what the right one wrote is part of the rest
  obtain ⟨l, hl, hlhash, hlfeed, hlmatched⟩ :=
    hleft (flagsRight ++ restFlags) (hashesRight ++ restHashes)
  obtain ⟨r, hr, hrhash, hrfeed, hrmatched⟩ := hright' restFlags restHashes
  refine ⟨⟨hashPair l.hash r.hash, l.visits ++ r.visits, r.feed⟩, ?_, ?_, hrfeed, ?_⟩
  · rw [List.append_assoc, List.append_assoc]
    show (parse leaves.length height (2 * index) ⟨flagsLeft ++ (flagsRight ++ restFlags),
      hashesLeft ++ (hashesRight ++ restHashes)⟩ >>= fun l => _) = _
    rw [hl]
    refine (if_pos hright).trans ?_
    rw [hlfeed, hr]
    rfl
  · rw [getElem?_level, hlhash, hrhash]
    rfl
  · rw [matched_append, markedIn_fork hright]
    exact congrArg₂ (· ++ ·) hlmatched hrmatched

/-- What a full tree writes for a leaf. -/
theorem Full.proof?_leaf (h : t.Full leaves) (marks : List Bool) (hi : index < leaves.length) :
    t.proof? marks.toArray 0 index = some ([marks[index]?.getD false], [leaves[index]]) := by
  have hnode := h.node? (Nat.add_zero _) index
  rw [← h.maxDepth, level, List.getElem?_eq_getElem hi] at hnode
  have hmark : t.anyMarked marks.toArray 0 index = marks[index]?.getD false := by
    rw [anyMarked_eq, h.total, endOf_leaf hi, Nat.pow_zero, Nat.mul_one, Nat.add_sub_cancel_left]
    simp [List.range']
  rw [proof?, hnode, hmark]
  rfl

/-- **One node**: what a full tree writes for it is read back. -/
theorem Full.exists_proof? (h : t.Full leaves) (marks : List Bool) :
    ∀ {height index}, height ≤ depthFor leaves.length → index < width leaves.length height →
      ∃ flags hashes, t.proof? marks.toArray height index = some (flags, hashes) ∧
        ReadsBack leaves marks height index flags hashes := by
  intro height
  induction height with
  | zero =>
    intro index _ hi
    rw [width_zero] at hi
    exact ⟨_, _, h.proof?_leaf marks hi, readsBack_leaf hi⟩
  | succ height ih =>
    intro index hd hi
    have hdepth : depthFor leaves.length - (height + 1) + (height + 1) = depthFor leaves.length :=
      Nat.sub_add_cancel hd
    have hrow := h.shaped.row
      (show depthFor leaves.length - (height + 1) + 1 + height = depthFor leaves.length by omega)
    rw [proof?, h.maxDepth]
    cases hmark : t.anyMarked marks.toArray (height + 1) index with
    | false =>
      rw [← length_level] at hi
      have ha := List.getElem?_eq_getElem hi
      refine ⟨_, _, by rw [h.node? hdepth, ha]; rfl, readsBack_unmarked ha ?_⟩
      rw [← h.total, markedIn_eq_nil hmark]
    | true =>
      rw [width_succ] at hi
      obtain ⟨flagsLeft, hashesLeft, hl, hleft⟩ := ih (by omega) (show 2 * index < _ by omega)
      by_cases hright : 2 * index + 1 < width leaves.length height
      · obtain ⟨flagsRight, hashesRight, hr, hright'⟩ := ih (by omega) hright
        exact ⟨_, _, by simp [hl, hr, hrow, hright], readsBack_fork hright hleft hright'⟩
      · exact ⟨_, _, by simp [hl, hrow, hright], readsBack_single hright hleft⟩

/-- The whole partial tree proves the marked leaves, with or without padding after its flags. -/
theorem Full.exists_partialTree (h : t.Full leaves) (marks : List Bool) :
    ∃ flags hashes, t.proof? marks.toArray t.maxDepth 0 = some (flags, hashes) ∧
      ∀ complete rest, complete rest = true →
        parsePartial complete leaves.length (flags ++ rest) hashes =
          .ok ⟨reduce leaves, markedLeaves leaves marks⟩ := by
  have hone := width_depthFor h.shaped.pos
  obtain ⟨flags, hashes, hproof, hreads⟩ := h.exists_proof? marks le_rfl
    (show 0 < width leaves.length (depthFor leaves.length) by omega)
  refine ⟨flags, hashes, by rw [h.maxDepth, hproof], fun complete rest hcomplete => ?_⟩
  obtain ⟨p, hp, hhash, hfeed, hmatched⟩ := hreads rest []
  have hle := (width_le_one_iff leaves.length (depthFor leaves.length)).mp hone.le
  have hend : endOf leaves.length (depthFor leaves.length) 0 = leaves.length := by
    rw [endOf, Nat.zero_add, Nat.one_mul, Nat.min_eq_right hle]
  rw [level_depthFor (List.length_pos_iff.mp h.shaped.pos)] at hhash
  rw [List.append_nil] at hp
  rw [hend, Nat.zero_mul, markedIn, Nat.sub_zero, ← List.range_eq_range'] at hmatched
  have hroot : reduce leaves = p.hash := by simpa using hhash
  rw [parsePartial, hp]
  show (if 0 < p.feed.hashes.length then _ else if complete p.feed.flags then _ else _) = _
  rw [hfeed, hmatched, if_neg (by simp), if_pos hcomplete, markedLeaves, hroot]

end Tree

/-- **Round trip**: the partial tree that the tree over the leaves writes for any marks fills a new tree
over as many leaves, from its flags as they are or packed into bytes; the root is that of the
leaves, and the matches are the marked leaves in their order. -/
theorem populate_partialTree (leaves : List Hash256) (h : leaves ≠ []) (marks : List Bool) :
    ∃ t fresh flags hashes, Tree.ofLeaves leaves = .ok t ∧ Tree.new leaves.length = .ok fresh ∧
      t.proof? marks.toArray t.maxDepth 0 = some (flags, hashes) ∧
      t.partialTree marks = (flags, hashes) ∧
      (fresh.populate flags hashes).2 = .ok ⟨root leaves, markedLeaves leaves marks⟩ ∧
      (fresh.populateFromBytes (packFlags flags) hashes).2 =
        .ok ⟨root leaves, markedLeaves leaves marks⟩ := by
  obtain ⟨t, ht, hfull⟩ := Tree.exists_ofLeaves h
  obtain ⟨flags, hashes, hproof, hparse⟩ := hfull.exists_partialTree marks
  obtain ⟨k, hk, hpacked⟩ := exists_unpackFlags_packFlags flags
  have hpos := hfull.shaped.pos
  obtain ⟨-, t₁, -, hexact⟩ := Tree.exists_populated? hpos flags hashes Tree.noTail_eq
  obtain ⟨-, t₂, -, hbytes⟩ :=
    Tree.exists_populated? hpos (unpackFlags (packFlags flags)) hashes Tree.paddingTail_eq
  have hpadding : isPadding (List.replicate k false) = true := by simp [isPadding, hk]
  refine ⟨t, _, flags, hashes, ht, Tree.new_length h, hproof, ?_, ?_, ?_⟩
  · rw [Tree.partialTree, hproof, Option.get!_some]
  · have hok := hparse List.isEmpty [] rfl
    rw [List.append_nil] at hok
    rw [Tree.populate, hexact, Option.get!_some, hok, root_eq_reduce h]
  · rw [Tree.populateFromBytes, hbytes, Option.get!_some, hpacked, hparse _ _ hpadding,
      root_eq_reduce h]

/-- Three leaves, of which the last one is marked, with a mark too many. -/
theorem populate_partialTree_three :
    [Hash256.zero, Hash256.zero, hashPair Hash256.zero Hash256.zero] ≠ [] ∧
      ∃ t fresh flags hashes,
        Tree.ofLeaves [Hash256.zero, Hash256.zero, hashPair Hash256.zero Hash256.zero] = .ok t ∧
        Tree.new 3 = .ok fresh ∧ t.partialTree [false, false, true, true] = (flags, hashes) ∧
        (fresh.populate flags hashes).2 =
          .ok ⟨root [Hash256.zero, Hash256.zero, hashPair Hash256.zero Hash256.zero],
            [(2, hashPair Hash256.zero Hash256.zero)]⟩ := by
  refine ⟨by simp, ?_⟩
  obtain ⟨t, fresh, flags, hashes, ht, hfresh, -, hpartial, hpopulate, -⟩ := populate_partialTree
    [Hash256.zero, Hash256.zero, hashPair Hash256.zero Hash256.zero] (by simp)
    [false, false, true, true]
  exact ⟨t, fresh, flags, hashes, ht, hfresh, hpartial, hpopulate⟩

end BitcoinPeer.Merkle
