import BitcoinPeer.Proofs.Merkle.Walk

/-!
# The computed tree

The walk that computes a tree keeps the leaves and writes into a node nothing but the hash of its
known children (`Walk.Computing`); when the root is known, so is every slot below it. Hence the walk
ends with the levels of the leaves, row by row, and the root is their reduction.
-/

namespace BitcoinPeer.Merkle

open Digest (hashPair)

variable {leaves : List Hash256}

namespace Rows

/-- The leaves are known, and a known node above them is the hash of its children. -/
structure Joined (leaves : List Hash256) (rows : Rows) : Prop where
  shaped : rows.Shaped leaves.length
  leaf : ∀ i, rows.slot? (depthFor leaves.length) i = leaves[i]?.map some
  node : ∀ {d i a}, d < depthFor leaves.length → rows.slot? d i = some (some a) →
    rows.childHash d i = some a

variable {rows : Rows} {a : Hash256}

/-- If the root is known, no slot is empty. -/
theorem Joined.known (h : rows.Joined leaves) (hroot : rows.slot? 0 0 = some (some a)) :
    ∀ d i, rows.slot? d i ≠ some none := by
  intro d
  induction d with
  | zero =>
    intro i hi
    rw [h.shaped.index_eq_zero (Option.isSome_of_eq_some hi), hroot] at hi
    cases hi
  | succ d ih =>
    intro i hi
    have hsome := Option.isSome_of_eq_some hi
    obtain ⟨height, hheight⟩ := Nat.exists_eq_add_of_le (h.shaped.depth_le hsome)
    have hlt := (h.shaped.isSome_iff hheight.symm i).mp hsome
    have hparent : (rows.slot? d (i / 2)).isSome := by
      rw [h.shaped.isSome_iff (show d + (height + 1) = depthFor leaves.length by omega), width_succ]
      omega
    obtain ⟨slot, hslot⟩ := Option.isSome_iff_exists.mp hparent
    cases slot with
    | none => exact ih _ hslot
    | some b =>
      -- the parent was joined from both children, so this one is known
      obtain ⟨l, hl, hr⟩ := childHash_eq_some_iff.mp (h.node (by omega) hslot)
      obtain heven | hodd : i = 2 * (i / 2) ∨ i = 2 * (i / 2) + 1 := by omega
      · rw [heven, hl] at hi
        cases hi
      · rw [hodd] at hi
        obtain ⟨hr, -⟩ | ⟨r, hr, -⟩ := hr
        · rw [hr] at hi
          cases hi
        · rw [hr] at hi
          cases hi

/-- If the root is known, the rows are the levels of the leaves. -/
theorem Joined.slot?_eq (h : rows.Joined leaves) (hroot : rows.slot? 0 0 = some (some a))
    {height : Nat} : ∀ {d}, d + height = depthFor leaves.length →
      ∀ i, rows.slot? d i = (level leaves height)[i]?.map some := by
  induction height with
  | zero =>
    intro d hd i
    rw [show d = depthFor leaves.length from hd]
    exact h.leaf i
  | succ height ih =>
    intro d hd i
    have hbelow := ih (d := d + 1) (by omega)
    have hiff := h.shaped.isSome_iff hd i
    cases hslot : rows.slot? d i with
    | none =>
      rw [hslot] at hiff
      rw [List.getElem?_eq_none (by simpa using hiff), Option.map_none]
    | some slot =>
      cases slot with
      | none => exact absurd hslot (h.known hroot d i)
      | some b =>
        obtain ⟨l, hl, hr⟩ := childHash_eq_some_iff.mp (h.node (by omega) hslot)
        rw [hbelow, Option.map_eq_some_iff] at hl
        obtain ⟨_, hl, ⟨⟩⟩ := hl
        rw [hbelow] at hr
        rw [getElem?_level, hl]
        obtain ⟨hr, rfl⟩ | ⟨r, hr, rfl⟩ := hr
        · rw [Option.map_eq_none_iff] at hr
          simp [hr]
        · obtain ⟨_, hr, ⟨⟩⟩ := Option.map_eq_some_iff.mp hr
          simp [hr]

end Rows

namespace Walk

variable {w w' : Walk} {a : Hash256}

/-- The invariant of the walk that computes the tree over the leaves. -/
structure Computing (leaves : List Hash256) (w : Walk) : Prop where
  joined : w.rows.Joined leaves
  open_or_root : w.Open leaves.length ∨ ∃ a, w.root = some (some a)

theorem Computing.left (h : w.Computing leaves) (ho : w.Open leaves.length)
    (hl : w.leftSlot = some none) : w.left.Computing leaves :=
  ⟨h.joined, .inl (ho.left hl)⟩

theorem Computing.right (h : w.Computing leaves) (ho : w.Open leaves.length)
    (hr : w.rightSlot = some none) : w.right.Computing leaves :=
  ⟨h.joined, .inl (ho.right hr)⟩

theorem Computing.settled (h : w.Computing leaves) (ho : w.Open leaves.length)
    (hd : w.depth < depthFor leaves.length)
    (ha : w.rows.childHash w.depth w.index = some a) (hs : Settled leaves.length w a w') :
    w'.Computing leaves := by
  refine ⟨⟨hs.shaped, fun i => ?_, fun {d i b} hlt hb => ?_⟩, ?_⟩
  · rw [hs.slot, if_neg (by omega)]
    exact h.joined.leaf i
  · refine Rows.childHash_of_fill hs.slot ho.here ?_
    rw [hs.slot] at hb
    split at hb
    · rename_i hhere
      cases hb
      rwa [hhere.1, hhere.2]
    · exact h.joined.node hlt hb
  · exact (hs.open_or_root ho).imp_right fun hroot => ⟨a, hroot⟩

/-- Above the leaves, since these are known. -/
theorem Computing.depth_lt (h : w.Computing leaves) (ho : w.Open leaves.length) :
    w.depth < depthFor leaves.length := by
  refine lt_of_le_of_ne ho.depth_le fun heq => ?_
  have hhere := ho.here
  rw [heq, h.joined.leaf, Option.map_eq_some_iff] at hhere
  obtain ⟨_, -, ⟨⟩⟩ := hhere

theorem computeStep_of_computing (h : w.Computing leaves) :
    (∃ w', w.computeStep = some (.inl w') ∧ w'.Computing leaves ∧
      w'.weight leaves.length < w.weight leaves.length) ∨
      ∃ rows, w.computeStep = some (.inr rows) ∧ rows.Joined leaves ∧
        ∃ a, rows.slot? 0 0 = some (some a) := by
  obtain ho | ⟨a, ha⟩ := h.open_or_root
  · have hd := h.depth_lt ho
    have hleaf : w.isLeaf = false := by simp [ho.isLeaf, hd.ne]
    obtain ⟨slot, hslot⟩ := Option.isSome_iff_exists.mp (ho.leftSlot hd)
    left
    cases slot with
    | none =>
      refine ⟨w.left, ?_, h.left ho hslot, ho.weight_left hslot⟩
      simp [computeStep, ho.root, hleaf, hslot]
    | some l =>
      obtain hr | ⟨a, ha⟩ := childHash_of_leftSlot hslot
      · have hjoin := ho.join_right hd hr l
        refine ⟨w.right, ?_, h.right ho hr, ho.weight_right hr⟩
        simp [computeStep, ho.root, hleaf, hslot, hjoin]
      · obtain ⟨w', hjoin, hs⟩ := ho.join_settle hd hslot ha
        refine ⟨w', ?_, h.settled ho hd ha hs, hs.weight_lt ho⟩
        simp [computeStep, ho.root, hleaf, hslot, hjoin]
  · exact .inr ⟨w.rows, by simp [computeStep, ha], h.joined, a, ha⟩

end Walk

/-! ### The tree over the leaves -/

namespace Tree

/-- The tree over the leaves with every slot holding the hash of its level. -/
structure Full (leaves : List Hash256) (t : Tree) : Prop where
  total : t.total = leaves.length
  shaped : t.rows.Shaped leaves.length
  slot : ∀ {d height}, d + height = depthFor leaves.length →
    ∀ i, t.rows.slot? d i = (level leaves height)[i]?.map some

variable {t : Tree}

/-- The rows from which the tree is computed: the leaves, and above them the empty rows. -/
theorem exists_start (hpos : 0 < leaves.length) :
    ∃ rows, (Rows.empty leaves.length).replaceRow (depthFor leaves.length)
        (leaves.map some).toArray = some rows ∧ rows.Shaped leaves.length ∧
      (∀ i, rows.slot? (depthFor leaves.length) i = leaves[i]?.map some) ∧
      ∀ {d}, d < depthFor leaves.length → ∀ i,
        rows.slot? d i = (Rows.empty leaves.length).slot? d i := by
  have hsize := Rows.size_empty leaves.length
  have hlast : depthFor leaves.length < (Rows.empty leaves.length).size := by omega
  obtain ⟨rows, hrows, hlen, hget⟩ := Rows.exists_replaceRow hlast (leaves.map some).toArray
  refine ⟨rows, hrows, ⟨hpos, hlen.trans hsize, fun {d height} hd => ?_⟩, ?_, fun {d} hd i => ?_⟩
  · rw [Rows.size?, hget]
    split
    · rename_i heq
      rw [show height = 0 by omega]
      simp
    · exact (Rows.shaped_empty hpos).row hd
  · simp [Rows.slot?, hget]
  · rw [Rows.slot?, hget, if_neg hd.ne, Rows.slot?]

/-- The invariant holds before the first step. -/
theorem computing_walk (h : leaves ≠ []) :
    ∃ rows, (Rows.empty leaves.length).replaceRow (depthFor leaves.length)
        (leaves.map some).toArray = some rows ∧
      (walk ⟨leaves.length, rows⟩).Computing leaves := by
  have hpos : 0 < leaves.length := List.length_pos_iff.mpr h
  obtain ⟨rows, hrows, hshaped, hleaf, habove⟩ := exists_start hpos
  have hunknown : ∀ {d i a}, d < depthFor leaves.length → rows.slot? d i ≠ some (some a) := by
    intro d i a hd
    rw [habove hd]
    exact Rows.slot?_empty_ne _ d i a
  refine ⟨rows, hrows, ⟨⟨hshaped, hleaf, fun hd hslot => absurd hslot (hunknown hd)⟩, ?_⟩⟩
  by_cases hdepth : depthFor leaves.length = 0
  · -- the only leaf is the root, so there is nothing to compute
    right
    refine ⟨leaves[0], ?_⟩
    have htop := hleaf 0
    rwa [hdepth, List.getElem?_eq_getElem hpos] at htop
  · left
    have hone := width_depthFor hpos
    have hroot := habove (Nat.pos_of_ne_zero hdepth) 0
    rw [Rows.slot?_empty (Nat.zero_add _) (by omega)] at hroot
    exact Walk.open_walk hshaped hroot

/-- The walk over the tree ends, with every slot known. -/
theorem exists_computed? (h : leaves ≠ []) :
    ∃ start t, (Rows.empty leaves.length).replaceRow (depthFor leaves.length)
        (leaves.map some).toArray = some start ∧
      Ends Walk.computeStep (walk ⟨leaves.length, start⟩) t.rows ∧
      (Tree.mk leaves.length (Rows.empty leaves.length)).computed? leaves = some t ∧
      t.Full leaves := by
  obtain ⟨start, hstart, hwalk⟩ := computing_walk h
  obtain ⟨rows, hend, hjoined, a, ha⟩ := exists_ends (Walk.Computing leaves)
    (Walk.weight leaves.length)
    (fun rows : Rows => rows.Joined leaves ∧ ∃ a, rows.slot? 0 0 = some (some a))
    (fun _ => Walk.computeStep_of_computing) _ hwalk
  refine ⟨start, ⟨leaves.length, rows⟩, hstart, hend, ?_, rfl, hjoined.shaped,
    fun hd => hjoined.slot?_eq ha hd⟩
  simp [computed?, maxDepth, hstart, hend.repeatM_eq]

theorem new_length (h : leaves ≠ []) :
    Tree.new leaves.length = .ok ⟨leaves.length, Rows.empty leaves.length⟩ :=
  if_neg (by simpa using h)

theorem ofLeaves_eq (h : leaves ≠ [])
    (ht : (Tree.mk leaves.length (Rows.empty leaves.length)).computed? leaves = some t) :
    Tree.ofLeaves leaves = .ok t := by
  rw [ofLeaves, new_length h]
  show Except.ok (Option.get! _) = _
  rw [ht, Option.get!_some]

theorem exists_ofLeaves (h : leaves ≠ []) : ∃ t, Tree.ofLeaves leaves = .ok t ∧ t.Full leaves := by
  obtain ⟨-, t, -, -, ht, hfull⟩ := exists_computed? h
  exact ⟨t, ofLeaves_eq h ht, hfull⟩

namespace Full

theorem maxDepth (h : t.Full leaves) : t.maxDepth = depthFor leaves.length := by
  rw [Tree.maxDepth, h.total]

theorem node? {d height : Nat} (h : t.Full leaves) (hd : d + height = depthFor leaves.length)
    (i : Nat) : t.node? d i = (level leaves height)[i]? := by
  rw [Tree.node?, h.slot hd]
  cases (level leaves height)[i]? <;> rfl

theorem levels (h : t.Full leaves) :
    t.levels = (List.range (depthFor leaves.length + 1)).map fun d =>
      (level leaves (depthFor leaves.length - d)).map some := by
  refine List.ext_getElem? fun d => ?_
  by_cases hd : d ≤ depthFor leaves.length
  · have hheight : d + (depthFor leaves.length - d) = depthFor leaves.length := by omega
    obtain ⟨row, hrow, -⟩ := Option.map_eq_some_iff.mp (h.shaped.row hheight)
    have hlist : row.toList = (level leaves (depthFor leaves.length - d)).map some := by
      refine List.ext_getElem? fun i => ?_
      have hslot := h.slot hheight i
      simpa [Rows.slot?, hrow] using hslot
    simp [Tree.levels, hrow, hlist, Nat.lt_succ_of_le hd]
  · have hnone : t.rows[d]? = none := h.shaped.getElem?_eq_none (not_le.mp hd)
    have hrange : (List.range (depthFor leaves.length + 1))[d]? = none := by
      simp only [List.getElem?_eq_none_iff, List.length_range]
      omega
    simp [Tree.levels, hnone, hrange]

theorem rootHash (h : t.Full leaves) (hne : leaves ≠ []) : t.rootHash = some (reduce leaves) := by
  rw [Tree.rootHash, h.node? (Nat.zero_add _), level_depthFor hne]
  rfl

end Full

end Tree

theorem root_eq_reduce (h : leaves ≠ []) : root leaves = reduce leaves := by
  obtain ⟨t, ht, hfull⟩ := Tree.exists_ofLeaves h
  rw [root, ht]
  simp [hfull.rootHash h]

/-- The Merkle root is the reduction, for no leaves too. -/
theorem root_eq (leaves : List Hash256) : root leaves = reduce leaves := by
  cases leaves with
  | nil =>
    rw [reduce]
    rfl
  | cons a rest => exact root_eq_reduce (List.cons_ne_nil a rest)

/-- **The computed tree**: the walk over the rows that hold the leaves and nothing else ends, without
ever leaving them; the result holds in every row the level of the leaves at that height, hence in
every slot above the leaves the hash of the slots below it; and the root is the reduction of the
leaves. -/
theorem ofLeaves_eq_levels (leaves : List Hash256) (h : leaves ≠ []) :
    ∃ fresh start t, Tree.new leaves.length = .ok fresh ∧
      fresh.rows.replaceRow fresh.maxDepth (leaves.map some).toArray = some start ∧
      Ends Walk.computeStep { fresh with rows := start }.walk t.rows ∧
      fresh.computed? leaves = some t ∧ Tree.ofLeaves leaves = .ok t ∧
      t.total = leaves.length ∧ t.maxDepth = Nat.clog 2 leaves.length ∧
      t.levels = (List.range (t.maxDepth + 1)).map
        (fun d => (level leaves (t.maxDepth - d)).map some) ∧
      (∀ d ≤ t.maxDepth, (t.levels.getD d []).length = leaves.length ⌈/⌉ 2 ^ (t.maxDepth - d)) ∧
      (∀ i, t.node? t.maxDepth i = leaves[i]?) ∧
      (∀ d < t.maxDepth, ∀ i < (t.levels.getD d []).length, ∃ l,
        t.node? (d + 1) (2 * i) = some l ∧
        t.node? d i = some (hashPair l ((t.node? (d + 1) (2 * i + 1)).getD l))) ∧
      t.rootHash = some (reduce leaves) ∧ root leaves = reduce leaves := by
  obtain ⟨start, t, hstart, hend, ht, hfull⟩ := Tree.exists_computed? h
  have hwidth : ∀ d ≤ depthFor leaves.length, (t.levels.getD d []).length =
      width leaves.length (depthFor leaves.length - d) := by
    intro d hd
    rw [hfull.levels]
    simp [Nat.lt_succ_of_le hd]
  refine ⟨_, start, t, Tree.new_length h, hstart, hend, ht, Tree.ofLeaves_eq h ht, hfull.total,
    ?_, ?_, ?_, ?_, ?_, hfull.rootHash h, root_eq_reduce h⟩
  · rw [hfull.maxDepth, depthFor_eq_clog]
  · rw [hfull.maxDepth, hfull.levels]
  · intro d hd
    rw [hfull.maxDepth] at hd ⊢
    rw [hwidth d hd, width_eq_ceilDiv]
  · intro i
    rw [hfull.maxDepth, hfull.node? (Nat.add_zero _), level]
  · intro d hd i hi
    rw [hfull.maxDepth] at hd
    obtain ⟨height, hheight⟩ : ∃ height, d + 1 + height = depthFor leaves.length :=
      ⟨_, Nat.add_sub_of_le hd⟩
    have hnode := hfull.node? (show d + (height + 1) = depthFor leaves.length by omega) i
    rw [hwidth d hd.le, show depthFor leaves.length - d = height + 1 by omega, width_succ] at hi
    have hlt : 2 * i < (level leaves height).length := by
      rw [length_level]
      omega
    refine ⟨(level leaves height)[2 * i], ?_, ?_⟩
    · rw [hfull.node? hheight, List.getElem?_eq_getElem hlt]
    · rw [hnode, hfull.node? hheight, getElem?_level, List.getElem?_eq_getElem hlt, Option.map_some]

/-- Three leaves: the last one has no partner. -/
theorem ofLeaves_eq_levels_three :
    [Hash256.zero, hashPair Hash256.zero Hash256.zero, Hash256.zero] ≠ [] ∧
      ∃ t, Tree.ofLeaves [Hash256.zero, hashPair Hash256.zero Hash256.zero, Hash256.zero] = .ok t ∧
        t.maxDepth = 2 ∧ t.rootHash = some (reduce
          [Hash256.zero, hashPair Hash256.zero Hash256.zero, Hash256.zero]) := by
  refine ⟨by simp, ?_⟩
  obtain ⟨-, -, t, -, -, -, -, ht, -, hdepth, -, -, -, -, hroot, -⟩ := ofLeaves_eq_levels
    [Hash256.zero, hashPair Hash256.zero Hash256.zero, Hash256.zero] (by simp)
  refine ⟨t, ht, ?_, hroot⟩
  rw [hdepth]
  decide

end BitcoinPeer.Merkle
