import BitcoinPeer.Merkle.Branch
import BitcoinPeer.Proofs.Merkle.Computed

/-!
# Branches of the computed tree

One step up: the entry for the step from a slot to its parent is the slot's sibling, and it joins the
hash of the slot to that of the parent (`Full.exists_entry`). Hence, by induction on the depth, the
entries from any slot lead to the root (`Full.exists_entries`), from every leaf in particular.
-/

namespace BitcoinPeer.Merkle

open Digest (hashPair)

variable {leaves : List Hash256} {t : Tree} {depth height index : Nat} {a tx : Hash256}

namespace Tree

/-- The other child of a slot's parent, with its side. A slot that has no sibling to its right is its
own sibling, on the left. -/
def sibling? (t : Tree) (depth index : Nat) : Option BranchEntry :=
  if index % 2 = 1 then (t.node? depth (index - 1)).map (⟨·, .left⟩)
  else match t.node? depth (index + 1) with
    | some right => some ⟨right, .right⟩
    | none => (t.node? depth index).map (⟨·, .left⟩)

/-- The entries from a slot with hash `a` to the root. -/
structure BranchFrom (leaves : List Hash256) (t : Tree) (depth index : Nat) (a : Hash256)
    (branch : List BranchEntry) : Prop where
  length : branch.length = depth
  entry : ∀ k < depth, branch[k]? = t.sibling? (depth - k) (index / 2 ^ k)
  root : branchRoot a branch = reduce leaves

/-! ### One step up -/

theorem Full.inside (h : t.Full leaves) (depth index : Nat) :
    (Walk.mk t.maxDepth t.rows depth index).Inside leaves.length :=
  ⟨h.shaped, h.maxDepth⟩

/-- The step from a right child. -/
theorem Full.entry_right (h : t.Full leaves) (hd : depth + 1 + height = depthFor leaves.length)
    (ha : (level leaves height)[2 * index + 1]? = some a) :
    ∃ e, (Walk.mk t.maxDepth t.rows depth index).entry false = some (.ok e) ∧
      t.sibling? (depth + 1) (2 * index + 1) = some e ∧
      (level leaves (height + 1))[index]? = some (e.join a) := by
  obtain ⟨hlt, -⟩ := List.getElem?_eq_some_iff.mp ha
  have hl : (level leaves height)[2 * index]? = some (level leaves height)[2 * index] :=
    List.getElem?_eq_getElem (by omega)
  refine ⟨⟨(level leaves height)[2 * index], .left⟩, ?_, ?_, ?_⟩
  · have hright := (h.inside depth index).hasRight (show depth < depthFor leaves.length by omega)
    have hleft : (Walk.mk t.maxDepth t.rows depth index).leftSlot =
        some (some (level leaves height)[2 * index]) := by
      rw [Walk.leftSlot, h.slot hd, hl, Option.map_some]
    simp [Walk.entry, hleft, hright, BranchEntry.ofSlot]
  · rw [sibling?, if_pos (by omega), Nat.add_sub_cancel, h.node? hd, hl, Option.map_some]
  · rw [getElem?_level, hl, ha, Option.map_some, Option.getD_some, BranchEntry.join]

/-- The step from a left child. -/
theorem Full.entry_left (h : t.Full leaves) (hd : depth + 1 + height = depthFor leaves.length)
    (ha : (level leaves height)[2 * index]? = some a) :
    ∃ e, (Walk.mk t.maxDepth t.rows depth index).entry true = some (.ok e) ∧
      t.sibling? (depth + 1) (2 * index) = some e ∧
      (level leaves (height + 1))[index]? = some (e.join a) := by
  have hright := (h.inside depth index).hasRight (show depth < depthFor leaves.length by omega)
  have hleft : (Walk.mk t.maxDepth t.rows depth index).leftSlot = some (some a) := by
    rw [Walk.leftSlot, h.slot hd, ha, Option.map_some]
  have hslot : (Walk.mk t.maxDepth t.rows depth index).rightSlot =
      (level leaves height)[2 * index + 1]?.map some := by
    rw [Walk.rightSlot, h.slot hd]
  cases hr : (level leaves height)[2 * index + 1]? with
  | none =>
    -- without a right child the entry is the node itself, on the left though it is a left child
    rw [hr, Option.map_none] at hslot
    refine ⟨⟨a, .left⟩, ?_, ?_, ?_⟩
    · simp [Walk.entry, hleft, hright, hslot, BranchEntry.ofSlot]
    · simp [sibling?, h.node? hd, hr, ha]
    · simp [getElem?_level, hr, ha, BranchEntry.join]
  | some r =>
    rw [hr, Option.map_some] at hslot
    refine ⟨⟨r, .right⟩, ?_, ?_, ?_⟩
    · simp [Walk.entry, hleft, hright, hslot, BranchEntry.ofSlot]
    · simp [sibling?, h.node? hd, hr]
    · simp [getElem?_level, hr, ha, BranchEntry.join]

/-- The step from any slot with a parent. -/
theorem Full.exists_entry (h : t.Full leaves) (hd : depth + 1 + height = depthFor leaves.length)
    (ha : (level leaves height)[index]? = some a) :
    ∃ e, (Walk.mk t.maxDepth t.rows depth (index / 2)).entry (index % 2 == 0) = some (.ok e) ∧
      t.sibling? (depth + 1) index = some e ∧
      (level leaves (height + 1))[index / 2]? = some (e.join a) := by
  obtain ⟨i, rfl | rfl⟩ := Nat.even_or_odd' index
  · rw [Nat.mul_div_right i Nat.two_pos, Nat.mul_mod_right]
    exact h.entry_left hd ha
  · rw [show (2 * i + 1) / 2 = i by omega, show ((2 * i + 1) % 2 == 0) = false by simp]
    exact h.entry_right hd ha

/-! ### All the way up -/

theorem branchFrom_nil (h : leaves ≠ []) (hd : height = depthFor leaves.length)
    (ha : (level leaves height)[index]? = some a) : BranchFrom leaves t 0 index a [] where
  length := rfl
  entry := by simp
  root := by
    rw [hd, level_depthFor h, List.getElem?_singleton] at ha
    split at ha <;> simp_all [branchRoot]

theorem BranchFrom.cons {e : BranchEntry} {branch : List BranchEntry}
    (h : BranchFrom leaves t depth (index / 2) (e.join a) branch)
    (he : t.sibling? (depth + 1) index = some e) :
    BranchFrom leaves t (depth + 1) index a (e :: branch) where
  length := by rw [List.length_cons, h.length]
  entry := by
    intro k hk
    cases k with
    | zero => simpa using he.symm
    | succ k =>
      rw [List.getElem?_cons_succ, h.entry k (by omega), Nat.div_div_eq_div_mul, ← Nat.pow_succ',
        Nat.add_sub_add_right]
  root := h.root

/-- From every slot the entries lead to the root. -/
theorem Full.exists_entries (h : t.Full leaves) (hne : leaves ≠ [])
    (hd : depth + height = depthFor leaves.length) (ha : (level leaves height)[index]? = some a) :
    ∃ branch, Walk.entries t.maxDepth t.rows depth index = some (.ok branch) ∧
      BranchFrom leaves t depth index a branch := by
  induction depth generalizing height index a with
  | zero =>
    rw [Nat.zero_add] at hd
    refine ⟨[], ?_, branchFrom_nil hne hd ha⟩
    obtain ⟨hlt, -⟩ := List.getElem?_eq_some_iff.mp ha
    rw [hd, level_depthFor hne, List.length_singleton, Nat.lt_one_iff] at hlt
    rw [hlt, Walk.entries]
  | succ depth ih =>
    obtain ⟨e, hentry, hsibling, hparent⟩ := h.exists_entry hd ha
    have hup : depth + (height + 1) = depthFor leaves.length := by omega
    obtain ⟨branch, hbranch, hfrom⟩ := ih hup hparent
    refine ⟨e :: branch, ?_, hfrom.cons hsibling⟩
    simp [Walk.entries, hentry, hbranch, Except.map]

theorem branch_eq {pos : Nat} {result : Except ProofError (List BranchEntry)}
    (h : t.branch? pos = some result) : t.branch pos = result := by
  rw [branch, h, Option.get!_some]

theorem Full.exists_branch? (h : t.Full leaves) {pos : Nat} (hpos : pos < leaves.length) :
    ∃ branch, t.branch? pos = some (.ok branch) ∧
      BranchFrom leaves t t.maxDepth pos leaves[pos] branch := by
  have hne : leaves ≠ [] := List.ne_nil_of_length_pos (Nat.zero_lt_of_lt hpos)
  have hleaf : (level leaves 0)[pos]? = some leaves[pos] := List.getElem?_eq_getElem hpos
  have hdepth : t.maxDepth + 0 = depthFor leaves.length := h.maxDepth
  obtain ⟨branch, hbranch, hfrom⟩ := h.exists_entries hne hdepth hleaf
  refine ⟨branch, ?_, hfrom⟩
  rw [branch?, if_neg (by rw [h.total]; omega), hbranch]

end Tree

/-! ### Finding the leaf -/

/-- The first leaf that equals `tx` has a branch that leads from `tx` to the root. -/
theorem exists_createBranch (h : tx ∈ leaves) :
    ∃ branch, createBranch tx leaves = .ok branch ∧ branchRoot tx branch = root leaves := by
  have hne := List.ne_nil_of_mem h
  have hany : leaves.any (· == tx) = true := List.any_eq_true.mpr ⟨tx, h, beq_self_eq_true tx⟩
  rw [← List.findIdx?_isSome] at hany
  obtain ⟨pos, hpos⟩ := Option.isSome_iff_exists.mp hany
  obtain ⟨hlt, htx, -⟩ := List.findIdx?_eq_some_iff_getElem.mp hpos
  rw [beq_iff_eq] at htx
  rw [createBranch, hpos, root_eq_reduce hne]
  by_cases hone : leaves.length = 1
  · obtain ⟨leaf, rfl⟩ := List.length_eq_one_iff.mp hone
    refine ⟨[], if_pos hone, ?_⟩
    rw [List.mem_singleton.mp h, reduce, branchRoot, List.foldl_nil]
  · obtain ⟨t, ht, hfull⟩ := Tree.exists_ofLeaves hne
    obtain ⟨branch, hbranch, hfrom⟩ := hfull.exists_branch? hlt
    refine ⟨branch, ?_, htx ▸ hfrom.root⟩
    simp only [if_neg hone, ht]
    exact Tree.branch_eq hbranch

theorem createBranch_of_not_mem (h : tx ∉ leaves) : createBranch tx leaves = .error .txNotFound := by
  have hnone : leaves.findIdx? (· == tx) = none := by
    rw [List.findIdx?_eq_none_iff]
    intro leaf hleaf
    rw [beq_eq_false_iff_ne]
    rintro rfl
    exact h hleaf
  rw [createBranch, hnone]

/-- **Branches**: every leaf of the computed tree has one, with an entry for each level, namely the
sibling of the slot on the way up; and it leads from the leaf to the root. So the branch created for
one of the leaves verifies, and for any other hash there is none. -/
theorem branch_ofLeaves (leaves : List Hash256) (h : leaves ≠ []) :
    (∃ t, Tree.ofLeaves leaves = .ok t ∧ ∀ pos, ∀ hpos : pos < leaves.length, ∃ branch,
      t.branch? pos = some (.ok branch) ∧ t.branch pos = .ok branch ∧
      branch.length = t.maxDepth ∧
      (∀ k < t.maxDepth, branch[k]? = t.sibling? (t.maxDepth - k) (pos / 2 ^ k)) ∧
      branchRoot leaves[pos] branch = root leaves) ∧
    (∀ tx ∈ leaves, ∃ branch, createBranch tx leaves = .ok branch ∧
      verifyBranch tx branch (root leaves) = true) ∧
    (∀ tx ∉ leaves, createBranch tx leaves = .error .txNotFound) := by
  refine ⟨?_, fun tx htx => ?_, fun _ => createBranch_of_not_mem⟩
  · obtain ⟨t, ht, hfull⟩ := Tree.exists_ofLeaves h
    refine ⟨t, ht, fun pos hpos => ?_⟩
    obtain ⟨branch, hbranch, hfrom⟩ := hfull.exists_branch? hpos
    refine ⟨branch, hbranch, Tree.branch_eq hbranch, hfrom.length, hfrom.entry, ?_⟩
    rw [hfrom.root, root_eq_reduce h]
  · obtain ⟨branch, hbranch, hroot⟩ := exists_createBranch htx
    exact ⟨branch, hbranch, by rw [verifyBranch, hroot, beq_self_eq_true]⟩

/-- Three leaves: the last one stands in for the sibling that it does not have. -/
theorem branch_ofLeaves_three :
    [Hash256.zero, Hash256.zero, hashPair Hash256.zero Hash256.zero] ≠ [] ∧
      (∃ t branch,
        Tree.ofLeaves [Hash256.zero, Hash256.zero, hashPair Hash256.zero Hash256.zero] = .ok t ∧
        t.branch 2 = .ok branch ∧ branch.length = 2 ∧
        branch[0]? = some ⟨hashPair Hash256.zero Hash256.zero, .left⟩ ∧
        branchRoot (hashPair Hash256.zero Hash256.zero) branch =
          root [Hash256.zero, Hash256.zero, hashPair Hash256.zero Hash256.zero]) ∧
      ∃ branch, createBranch Hash256.zero
          [Hash256.zero, Hash256.zero, hashPair Hash256.zero Hash256.zero] = .ok branch ∧
        verifyBranch Hash256.zero branch
          (root [Hash256.zero, Hash256.zero, hashPair Hash256.zero Hash256.zero]) = true := by
  have hne : [Hash256.zero, Hash256.zero, hashPair Hash256.zero Hash256.zero] ≠ [] := by simp
  obtain ⟨⟨t, ht, hbranch⟩, hverify, -⟩ := branch_ofLeaves _ hne
  obtain ⟨branch, -, hget, hlen, hentry, hroot⟩ := hbranch 2 (by simp)
  obtain ⟨t', ht', hfull⟩ := Tree.exists_ofLeaves hne
  obtain rfl : t = t' := by
    rw [ht] at ht'
    exact Except.ok.inj ht'
  have hdepth : t.maxDepth = 2 := hfull.maxDepth.trans (by decide)
  have hnode := hfull.node? (show 2 + 0 = _ by decide)
  rw [hdepth] at hlen hentry
  refine ⟨hne, ⟨t, branch, ht, hget, hlen, ?_, hroot⟩, hverify _ (by simp)⟩
  rw [hentry 0 (by decide)]
  simp [Tree.sibling?, hnode, level]

end BitcoinPeer.Merkle
