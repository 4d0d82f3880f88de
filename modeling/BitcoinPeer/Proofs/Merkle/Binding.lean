import BitcoinPeer.Proofs.Merkle.Moves

/-!
# What a root binds

A partial tree that is read with the root of some leaves is part of the tree over them, unless two
different pairs of hashes, each of them joined while the tree was computed or while the partial tree
was read, have the same hash (`Collision`). The argument goes down from the root: where the two trees
agree on a node, the pair that was read and the pair that was computed have the same hash, so they are
the same pair.

The number of leaves that a partial tree claims is not bound. In a larger tree of the same depth a
node may have a right child where the tree over the leaves takes its left child twice; then the two
children are equal, and what is read below the right one are the hashes below the left one once more.
`standIn` follows this: it leads to the node of the tree over the leaves that a node of the larger
tree repeats (`Grounded.standsIn`).
-/

namespace BitcoinPeer.Merkle

open Digest (hashPair)

variable {total d i height : Nat} {leaves : List Hash256} {t : Tree} {rows : Rows}
  {J : Hash256 × Hash256 → Prop} {a : Hash256}

/-- Two different pairs of hashes with a property have the same hash. -/
def Collision (J : Hash256 × Hash256 → Prop) : Prop :=
  ∃ p q, J p ∧ J q ∧ p ≠ q ∧ hashPair p.1 p.2 = hashPair q.1 q.2

/-! ### The pairs that are joined -/

namespace Tree

/-- The two hashes are joined while the tree over the leaves is computed. -/
def JoinsComputing (leaves : List Hash256) (p : Hash256 × Hash256) : Prop :=
  ∃ start, (Rows.empty leaves.length).replaceRow (depthFor leaves.length)
      (leaves.map some).toArray = some start ∧
    Joins Walk.computeStep id (walk ⟨leaves.length, start⟩) p

/-- The two hashes are joined while the tree is filled from these flags and hashes. -/
def JoinsReading (t : Tree) (flags : List Bool) (hashes : List Hash256) (p : Hash256 × Hash256) :
    Prop :=
  Joins Reader.step Reader.toWalk (t.reader flags hashes) p

theorem Full.pair? (h : t.Full leaves) (hd : d + (height + 1) = depthFor leaves.length)
    {l : Hash256} (hl : (level leaves height)[2 * i]? = some l) :
    t.rows.pair? d i = some (l, (level leaves height)[2 * i + 1]?.getD l) := by
  have hbelow := h.slot (show d + 1 + height = depthFor leaves.length by omega)
  rw [Rows.pair?_eq_some_iff, hbelow, hbelow, hl]
  refine ⟨rfl, ?_⟩
  cases (level leaves height)[2 * i + 1]? with
  | none => exact .inl ⟨rfl, rfl⟩
  | some r => exact .inr rfl

/-- Before the first step no node above the leaves is known. -/
theorem traced_start {start : Rows} (hpos : 0 < leaves.length)
    (hstart : (Rows.empty leaves.length).replaceRow (depthFor leaves.length)
      (leaves.map some).toArray = some start) : start.Traced J := by
  obtain ⟨rows, hrows, hshaped, -, habove⟩ := exists_start hpos
  obtain rfl : rows = start := by
    rw [hrows] at hstart
    exact Option.some.inj hstart
  rintro d i a ha ⟨b, hb⟩
  have hle := hshaped.depth_le (Option.isSome_of_eq_some hb)
  rw [habove (by omega)] at ha
  exact absurd ha (Rows.slot?_empty_ne _ d i a)

/-- The walk that joins the pairs, from its first state to the full tree. -/
theorem exists_computing (hne : leaves ≠ []) :
    ∃ start : Rows, ∃ t : Tree, (walk ⟨leaves.length, start⟩).Computing leaves ∧
      Ends Walk.computeStep (walk ⟨leaves.length, start⟩) t.rows ∧ t.Full leaves ∧
      (∀ J, start.Traced J) ∧
      ∀ p, JoinsComputing leaves p ↔ Joins Walk.computeStep id (walk ⟨leaves.length, start⟩) p := by
  obtain ⟨start, t, hstart, hends, -, hfull⟩ := exists_computed? hne
  obtain ⟨start', hstart', hcomputing⟩ := computing_walk hne
  obtain rfl : start = start' := Option.some.inj (hstart.symm.trans hstart')
  refine ⟨start, t, hcomputing, hends, hfull, ?_, ?_⟩
  · intro J
    exact traced_start (List.length_pos_iff.mpr hne) hstart
  · intro p
    constructor
    · rintro ⟨rows, hrows, hp⟩
      obtain rfl : start = rows := Option.some.inj (hstart.symm.trans hrows)
      exact hp
    · exact fun hp => ⟨start, hstart, hp⟩

/-- The pairs that are joined while the tree over the leaves is computed are the children of its
nodes. -/
theorem joinsComputing_iff (hne : leaves ≠ []) {p : Hash256 × Hash256} :
    JoinsComputing leaves p ↔ ∃ height i l, height < depthFor leaves.length ∧
      (level leaves height)[2 * i]? = some l ∧ p = (l, (level leaves height)[2 * i + 1]?.getD l) := by
  obtain ⟨start, t, hcomputing, hends, hfull, htraced, hjoins⟩ := exists_computing hne
  rw [hjoins]
  constructor
  · rintro ⟨w, hsteps, hp⟩
    -- the pair is still there when the loop ends, with the rows of the full tree
    obtain ⟨last, hto, hlast⟩ := (hends.of_steps hsteps).exists_last
    have hpair := Walk.pair?_of_steps (Walk.computing_of_steps hcomputing hsteps)
      (Walk.pair?_rows hp) hto
    rw [← (Walk.root_of_computeStep hlast).1] at hpair
    obtain ⟨hleft, -⟩ := Rows.pair?_eq_some_iff.mp hpair
    obtain ⟨height, hheight⟩ :=
      Nat.exists_eq_add_of_le (hfull.shaped.depth_le (Option.isSome_of_eq_some hleft))
    rw [hfull.slot hheight.symm, Option.map_eq_some_iff] at hleft
    obtain ⟨l, hl, -⟩ := hleft
    rw [hfull.pair? (by omega) hl] at hpair
    exact ⟨height, _, l, by omega, hl, (Option.some.inj hpair).symm⟩
  · rintro ⟨height, i, l, hheight, hl, rfl⟩
    obtain ⟨d, hd⟩ := Nat.exists_eq_add_of_le (show height + 1 ≤ depthFor leaves.length from hheight)
    obtain ⟨w, hsteps, hlast⟩ := hends.exists_last
    have htraced := Walk.traced_of_steps hcomputing (htraced _) (fun p hp => hp) hsteps
    -- in the full tree every node is known, and so are its children
    rw [← (Walk.root_of_computeStep hlast).1] at htraced
    have hnode := hfull.slot (show d + (height + 1) = depthFor leaves.length by omega) i
    rw [getElem?_level, hl] at hnode
    have hleft : t.rows.Known (d + 1) (2 * i) :=
      ⟨l, by rw [hfull.slot (show d + 1 + height = depthFor leaves.length by omega), hl]; rfl⟩
    obtain ⟨p, hp, hpair, -⟩ := htraced d i _ hnode hleft
    rw [hfull.pair? (by omega) hl] at hpair
    obtain rfl := Option.some.inj hpair
    exact hp

end Tree

/-! ### What is read -/

/-- In the rows of a tree that was read as far as its root, every known node hangs from the root, and
a node with a known child is the hash of its children, which have a property. -/
structure Rows.Grounded (total : Nat) (J : Hash256 × Hash256 → Prop) (rows : Rows) : Prop where
  shaped : rows.Shaped total
  above : ∀ {d i}, rows.Known (d + 1) i → rows.Known d (i / 2)
  joined : ∀ {d i a}, rows.slot? d (i / 2) = some (some a) → rows.Known (d + 1) i →
    ∃ p, J p ∧ rows.pair? d (i / 2) = some p ∧ a = hashPair p.1 p.2

theorem Reader.Reading.grounded {r : Reader} (h : r.Reading total J) (hdone : r.toWalk.Done) :
    r.rows.Grounded total J where
  shaped := h.shaped
  above := by
    intro d i hk
    rcases h.rooted.above hk with habove | ⟨k, hd, hi⟩
    · exact habove
    · -- above the cursor there is only the root, which is known
      obtain ⟨rfl, rfl⟩ : d = 0 ∧ k = 0 := by
        have hzero := hdone.depth
        omega
      rw [hi, hdone.index]
      exact hdone.root
  joined := by
    intro d i a ha hk
    refine h.traced d (i / 2) a ha ?_
    obtain heven | hodd : i = 2 * (i / 2) ∨ i = 2 * (i / 2) + 1 := by omega
    · rwa [← heven]
    · rw [hodd] at hk
      exact h.rooted.first hk

/-- What a tree holds after a partial tree was read into it successfully. -/
structure Tree.Filled (total : Nat) (J : Hash256 × Hash256 → Prop) (t : Tree) (m : Matches) : Prop where
  grounded : t.rows.Grounded total J
  root : t.rows.slot? 0 0 = some (some m.root)
  matched : ∀ i a, (i, a) ∈ m.matched → t.rows.slot? (depthFor total) i = some (some a)

theorem Reader.found_eq_ok {tail : List Bool → Except ProofError Unit} {r : Reader} {m : Matches}
    (h : r.found tail = .ok m) : r.root.join = some m.root ∧ m.matched = r.matched.toList := by
  unfold found at h
  split at h
  · cases h
  · split at h
    · cases h
    · cases h
    · rename_i hroot
      cases h
      exact ⟨hroot, rfl⟩

/-- A new tree that was filled successfully. -/
theorem Tree.filled_of_populated? (h : 0 < total) {flags : List Bool} {hashes : List Hash256}
    {tail : List Bool → Except ProofError Unit} {m : Matches}
    (hpop : populated? tail ⟨total, Rows.empty total⟩ flags hashes = some (t, .ok m)) :
    t.Filled total (JoinsReading ⟨total, Rows.empty total⟩ flags hashes) m := by
  obtain ⟨⟨r, outcome⟩, -, hends, -⟩ := exists_populated? h flags hashes noTail_eq
  rw [populated?, hends.repeatM_eq] at hpop
  obtain ⟨rfl, hfound⟩ := Prod.mk.inj (Option.some.inj hpop)
  obtain ⟨⟨⟩, rfl, hfound⟩ := exists_of_bind_eq_ok hfound
  obtain ⟨hroot, hmatched⟩ := Reader.found_eq_ok hfound
  rw [Option.join_eq_some_iff] at hroot
  obtain ⟨r', hsteps, hlast⟩ := hends.exists_last
  have hreading := Reader.reading_of_steps h hsteps
  obtain ⟨rfl, hdone⟩ := hreading.done hlast
  refine ⟨hreading.grounded hdone, hroot, ?_⟩
  intro i a hmem
  rw [hmatched] at hmem
  exact hreading.matched (i, a) hmem

/-! ### Going down from the root -/

/-- The index at which one arrives when going down to the node at a depth and index by the nodes of a
tree over so many leaves, which takes the left child again where there is no right one. -/
def standIn (total : Nat) : (depth index : Nat) → Nat
  | 0, _ => 0
  | depth + 1, index =>
    min (2 * standIn total depth (index / 2) + index % 2)
      (width total (depthFor total - (depth + 1)) - 1)

/-- In its own tree a node stands for itself. -/
theorem standIn_of_lt {index : Nat} (hpos : 0 < total) (hd : d + height = depthFor total)
    (hi : index < width total height) : standIn total d index = index := by
  induction d generalizing height index with
  | zero =>
    rw [show height = depthFor total by omega, width_depthFor hpos] at hi
    rw [standIn]
    omega
  | succ d ih =>
    have habove : index / 2 < width total (height + 1) := by
      rw [width_succ]
      omega
    rw [standIn, ih (by omega) habove, show depthFor total - (d + 1) = height by omega]
    omega

/-- No two pairs with the property collide. -/
theorem eq_of_not_collision (h : ¬ Collision J) {p q : Hash256 × Hash256} (hp : J p) (hq : J q)
    (heq : hashPair p.1 p.2 = hashPair q.1 q.2) : p = q := by
  by_contra hne
  exact h ⟨p, q, hp, hq, hne, heq⟩

/-- If the hashes of some pairs differ, there is no collision among them. -/
theorem not_collision_of_nodup {pairs : List (Hash256 × Hash256)}
    (h : (pairs.map fun p => hashPair p.1 p.2).Nodup) (hJ : ∀ p, J p → p ∈ pairs) : ¬ Collision J := by
  rintro ⟨p, q, hp, hq, hne, heq⟩
  exact hne (List.inj_on_of_nodup_map h (hJ p hp) (hJ q hq) heq)

/-- The pairs that the levels of the leaves join have a property. -/
def LevelsJoin (leaves : List Hash256) (J : Hash256 × Hash256 → Prop) : Prop :=
  ∀ height i l, height < depthFor leaves.length → (level leaves height)[2 * i]? = some l →
    J (l, (level leaves height)[2 * i + 1]?.getD l)

theorem LevelsJoin.mono {J' : Hash256 × Hash256 → Prop} (h : LevelsJoin leaves J)
    (hJ : ∀ p, J p → J' p) : LevelsJoin leaves J' := by
  intro height i l hheight hl
  exact hJ _ (h height i l hheight hl)

/-- The pairs that the levels join are joined while the tree is computed. -/
theorem Tree.levelsJoin_computing (hne : leaves ≠ []) :
    LevelsJoin leaves (JoinsComputing leaves) := by
  intro height i l hheight hl
  exact (joinsComputing_iff hne).mpr ⟨height, i, l, hheight, hl, rfl⟩

/-- On the way from the root to a node there are two equal siblings, of which the right one is just
beyond the tree over so many leaves, where that tree takes the left one twice. -/
def Rows.Doubled (rows : Rows) (count depth index : Nat) : Prop :=
  ∃ d k i a, d + 1 + k = depth ∧ index / 2 ^ k = 2 * i + 1 ∧
    2 * i + 1 = width count (depthFor count - (d + 1)) ∧
    rows.slot? (d + 1) (2 * i) = some (some a) ∧ rows.slot? (d + 1) (2 * i + 1) = some (some a)

namespace Rows.Grounded

variable {index : Nat}

/-- One level down: where the two trees agree on a node, they have the same pair below it. -/
theorem pair (h : rows.Grounded total J) (hjoin : LevelsJoin leaves J) (hno : ¬ Collision J)
    (hheight : height < depthFor leaves.length) (hk : rows.Known (d + 1) i) {j : Nat}
    (hslot : rows.slot? d (i / 2) = some (some a)) (hlevel : (level leaves (height + 1))[j]? = some a) :
    ∃ l, (level leaves height)[2 * j]? = some l ∧
      rows.pair? d (i / 2) = some (l, (level leaves height)[2 * j + 1]?.getD l) := by
  rw [getElem?_level, Option.map_eq_some_iff] at hlevel
  obtain ⟨l, hl, hhash⟩ := hlevel
  obtain ⟨p, hp, hpair, heq⟩ := h.joined hslot hk
  refine ⟨l, hl, ?_⟩
  rw [hpair, eq_of_not_collision hno hp (hjoin height j l hheight hl) (heq.symm.trans hhash.symm)]

/-- **Going down**: in a tree that was read with the root of the leaves, a known node is the hash of
the node of their own tree that stands in for it. -/
theorem standsIn (h : rows.Grounded total J) (hne : leaves ≠ [])
    (hroot : rows.slot? 0 0 = some (some (reduce leaves))) (hjoin : LevelsJoin leaves J)
    (hno : ¬ Collision J) (hd : d + height = depthFor leaves.length)
    (ha : rows.slot? d index = some (some a)) :
    (level leaves height)[standIn leaves.length d index]? = some a := by
  induction d generalizing height index a with
  | zero =>
    obtain rfl := h.shaped.index_eq_zero (Option.isSome_of_eq_some ha)
    rw [ha] at hroot
    rw [show height = depthFor leaves.length by omega, level_depthFor hne, standIn]
    simpa using hroot.symm
  | succ d ih =>
    obtain ⟨b, hb⟩ := h.above ⟨a, ha⟩
    have habove := ih (show d + (height + 1) = depthFor leaves.length by omega) hb
    obtain ⟨l, hl, hpair⟩ := h.pair hjoin hno (by omega) ⟨a, ha⟩ hb habove
    have hheight : depthFor leaves.length - (d + 1) = height := by omega
    have hlt := (List.getElem?_eq_some_iff.mp hl).1
    rw [length_level] at hlt
    rw [standIn, hheight]
    rcases slot?_of_pair? hpair rfl ha with ⟨heven, rfl⟩ | ⟨hodd, rfl⟩
    · have hstand : min (2 * standIn leaves.length d (index / 2) + index % 2)
          (width leaves.length height - 1) = 2 * standIn leaves.length d (index / 2) := by omega
      rw [hstand, hl]
    · by_cases hright : 2 * standIn leaves.length d (index / 2) + 1 < width leaves.length height
      · have hstand : min (2 * standIn leaves.length d (index / 2) + index % 2)
            (width leaves.length height - 1) = 2 * standIn leaves.length d (index / 2) + 1 := by omega
        rw [hstand]
        rw [← length_level] at hright
        simp [List.getElem?_eq_getElem hright]
      · -- the tree over the leaves has no right child here, and takes the left one again
        have hstand : min (2 * standIn leaves.length d (index / 2) + index % 2)
            (width leaves.length height - 1) = 2 * standIn leaves.length d (index / 2) := by omega
        rw [hstand, hl]
        rw [← length_level, not_lt] at hright
        simp [List.getElem?_eq_none hright]

/-- **Twins**: where a known node is none of the leaves' own tree, the tree that was read has two equal
siblings at or above it. -/
theorem doubled (h : rows.Grounded total J) (hne : leaves ≠ [])
    (hroot : rows.slot? 0 0 = some (some (reduce leaves))) (hjoin : LevelsJoin leaves J)
    (hno : ¬ Collision J) (hd : d + height = depthFor leaves.length) (hk : rows.Known d index)
    (hbeyond : width leaves.length height ≤ index) : rows.Doubled leaves.length d index := by
  have hpos : 0 < leaves.length := List.length_pos_iff.mpr hne
  induction d generalizing height index with
  | zero =>
    obtain ⟨a, ha⟩ := hk
    obtain rfl := h.shaped.index_eq_zero (Option.isSome_of_eq_some ha)
    rw [show height = depthFor leaves.length by omega, width_depthFor hpos] at hbeyond
    omega
  | succ d ih =>
    have hup : d + (height + 1) = depthFor leaves.length := by omega
    obtain ⟨b, hb⟩ := h.above hk
    by_cases habove : width leaves.length (height + 1) ≤ index / 2
    · obtain ⟨d', k, i, a, hd', hi, hrest⟩ := ih hup ⟨b, hb⟩ habove
      refine ⟨d', k + 1, i, a, by omega, ?_, hrest⟩
      rw [← hi, Nat.div_div_eq_div_mul, Nat.pow_succ']
    · -- the node above is in the leaves' tree, where it has no right child
      rw [not_le] at habove
      have hlevel := h.standsIn hne hroot hjoin hno hup hb
      rw [standIn_of_lt hpos hup habove] at hlevel
      obtain ⟨l, hl, hpair⟩ := h.pair hjoin hno (by omega) hk hb hlevel
      rw [width_succ] at habove
      have hright : (level leaves height)[2 * (index / 2) + 1]? = none := by
        rw [List.getElem?_eq_none_iff, length_level]
        omega
      rw [hright, Option.getD_none, pair?_eq_some_iff] at hpair
      obtain ⟨hleft, ⟨hnone, -⟩ | hsame⟩ := hpair
      · obtain ⟨a, ha⟩ := hk
        rw [show index = 2 * (index / 2) + 1 by omega, hnone] at ha
        cases ha
      · refine ⟨d, 0, index / 2, l, rfl, ?_, ?_, hleft, hsame⟩
        · rw [Nat.pow_zero, Nat.div_one]
          omega
        · rw [show depthFor leaves.length - (d + 1) = height by omega]
          omega

theorem mono {J' : Hash256 × Hash256 → Prop} (h : rows.Grounded total J) (hJ : ∀ p, J p → J' p) :
    rows.Grounded total J' where
  shaped := h.shaped
  above := h.above
  joined := by
    intro d i a ha hk
    obtain ⟨p, hp, hpair, heq⟩ := h.joined ha hk
    exact ⟨p, hJ p hp, hpair, heq⟩

end Rows.Grounded

/-! ### Reading with the root of the leaves -/

/-- The two hashes are joined while the tree over the leaves is computed, or while the other tree is
filled from these flags and hashes. -/
def Tree.JoinsEither (leaves : List Hash256) (t : Tree) (flags : List Bool) (hashes : List Hash256)
    (p : Hash256 × Hash256) : Prop :=
  JoinsComputing leaves p ∨ t.JoinsReading flags hashes p

namespace Tree

variable {full : Tree} {m : Matches} {flags : List Bool} {hashes : List Hash256}

theorem levelsJoin (hne : leaves ≠ []) (t : Tree) (flags : List Bool) (hashes : List Hash256) :
    LevelsJoin leaves (JoinsEither leaves t flags hashes) :=
  (levelsJoin_computing hne).mono fun _ hp => .inl hp

/-- What a tree of any size holds after it was filled with the root of the leaves: every known node is
that of their tree which stands in for it, and beyond their tree it is below equal siblings. -/
theorem Filled.standsIn
    (h : t.Filled total (JoinsReading ⟨total, Rows.empty total⟩ flags hashes) m) (hne : leaves ≠ [])
    (hroot : m.root = Merkle.root leaves)
    (hno : ¬ Collision (JoinsEither leaves ⟨total, Rows.empty total⟩ flags hashes))
    (hd : d + height = depthFor leaves.length) (ha : t.rows.slot? d i = some (some a)) :
    (level leaves height)[standIn leaves.length d i]? = some a ∧
      (width leaves.length height ≤ i → t.rows.Doubled leaves.length d i) := by
  have hgrounded : t.rows.Grounded total
      (JoinsEither leaves ⟨total, Rows.empty total⟩ flags hashes) :=
    h.grounded.mono fun p hp => .inr hp
  have hreduce : t.rows.slot? 0 0 = some (some (reduce leaves)) := by
    rw [h.root, hroot, root_eq_reduce hne]
  have hjoin := levelsJoin hne ⟨total, Rows.empty total⟩ flags hashes
  exact ⟨hgrounded.standsIn hne hreduce hjoin hno hd ha,
    hgrounded.doubled hne hreduce hjoin hno hd ⟨a, ha⟩⟩

theorem populated?_noTail (h : 0 < total) (flags : List Bool) (hashes : List Hash256) :
    populated? noTail ⟨total, Rows.empty total⟩ flags hashes =
      some (populate ⟨total, Rows.empty total⟩ flags hashes) := by
  obtain ⟨-, t, -, ht⟩ := exists_populated? h flags hashes noTail_eq
  rw [populate, ht, Option.get!_some]

theorem populated?_paddingTail (h : 0 < total) (bytes : Bytes) (hashes : List Hash256) :
    populated? paddingTail ⟨total, Rows.empty total⟩ (unpackFlags bytes) hashes =
      some (populateFromBytes ⟨total, Rows.empty total⟩ bytes hashes) := by
  obtain ⟨-, t, -, ht⟩ := exists_populated? h (unpackFlags bytes) hashes paddingTail_eq
  rw [populateFromBytes, ht, Option.get!_some]

/-- Nothing in the tree disagrees with the full tree over the leaves, and the matches are leaves at
their positions. -/
structure Agrees (leaves : List Hash256) (full t : Tree) (m : Matches) : Prop where
  matched : ∀ i a, (i, a) ∈ m.matched → i < leaves.length ∧ leaves[i]? = some a
  node : ∀ d i a, t.node? d i = some a → full.node? d i = some a

theorem Filled.agrees
    (h : t.Filled leaves.length
      (JoinsReading ⟨leaves.length, Rows.empty leaves.length⟩ flags hashes) m)
    (hne : leaves ≠ []) (hroot : m.root = Merkle.root leaves) (hfull : full.Full leaves)
    (hno : ¬ Collision
      (JoinsEither leaves ⟨leaves.length, Rows.empty leaves.length⟩ flags hashes)) :
    Agrees leaves full t m := by
  have hpos : 0 < leaves.length := List.length_pos_iff.mpr hne
  -- in a tree of the same size every node stands for itself
  have hown : ∀ {d height i a}, d + height = depthFor leaves.length →
      t.rows.slot? d i = some (some a) → (level leaves height)[i]? = some a := by
    intro d height i a hd ha
    have hi := (h.grounded.shaped.isSome_iff hd i).mp (Option.isSome_of_eq_some ha)
    obtain ⟨hlevel, -⟩ := h.standsIn hne hroot hno hd ha
    rwa [standIn_of_lt hpos hd hi] at hlevel
  constructor
  · intro i a hmem
    have hleaf := hown (Nat.add_zero _) (h.matched i a hmem)
    exact ⟨(List.getElem?_eq_some_iff.mp hleaf).1, hleaf⟩
  · intro d i a ha
    rw [node?, Option.join_eq_some_iff] at ha
    have hd := Nat.add_sub_of_le (h.grounded.shaped.depth_le (Option.isSome_of_eq_some ha))
    rw [hfull.node? hd, hown hd ha]

end Tree

/-- **Soundness**: a new tree that is filled, by whatever flags and hashes, with the root of the leaves
holds only hashes of the tree over them, and its matches are leaves at their positions; or else two
different pairs of hashes that were joined on the way have the same hash. -/
theorem populate_binds (leaves : List Hash256) (h : leaves ≠ []) :
    ∃ full fresh, Tree.ofLeaves leaves = .ok full ∧ Tree.new leaves.length = .ok fresh ∧
      ∀ hashes t m, m.root = root leaves →
        (∀ flags, fresh.populate flags hashes = (t, .ok m) →
          Tree.Agrees leaves full t m ∨
            Collision (Tree.JoinsEither leaves fresh flags hashes)) ∧
        ∀ bytes, fresh.populateFromBytes bytes hashes = (t, .ok m) →
          Tree.Agrees leaves full t m ∨
            Collision (Tree.JoinsEither leaves fresh (unpackFlags bytes) hashes) := by
  have hpos : 0 < leaves.length := List.length_pos_iff.mpr h
  obtain ⟨full, hof, hfull⟩ := Tree.exists_ofLeaves h
  refine ⟨full, _, hof, Tree.new_length h, ?_⟩
  intro hashes t m hroot
  have hfilled : ∀ flags, t.Filled leaves.length
      (Tree.JoinsReading ⟨leaves.length, Rows.empty leaves.length⟩ flags hashes) m →
        Tree.Agrees leaves full t m ∨ Collision
          (Tree.JoinsEither leaves ⟨leaves.length, Rows.empty leaves.length⟩ flags hashes) := by
    intro flags ht
    rw [or_iff_not_imp_right]
    exact ht.agrees h hroot hfull
  constructor
  · intro flags hpopulate
    have hpopulated := Tree.populated?_noTail hpos flags hashes
    rw [hpopulate] at hpopulated
    exact hfilled flags (Tree.filled_of_populated? hpos hpopulated)
  · intro bytes hpopulate
    have hpopulated := Tree.populated?_paddingTail hpos bytes hashes
    rw [hpopulate] at hpopulated
    exact hfilled (unpackFlags bytes) (Tree.filled_of_populated? hpos hpopulated)

/-- Three leaves, of which the last one is matched. -/
theorem populate_binds_three :
    [Hash256.zero, hashPair Hash256.zero Hash256.zero, Hash256.zero] ≠ [] ∧
      ∃ full fresh t m,
        Tree.ofLeaves [Hash256.zero, hashPair Hash256.zero Hash256.zero, Hash256.zero] = .ok full ∧
        Tree.new 3 = .ok fresh ∧
        fresh.populate [true, false, true, true]
          [hashPair Hash256.zero (hashPair Hash256.zero Hash256.zero), Hash256.zero] = (t, .ok m) ∧
        m.root = root [Hash256.zero, hashPair Hash256.zero Hash256.zero, Hash256.zero] ∧
        m.matched = [(2, Hash256.zero)] ∧
        (Tree.Agrees [Hash256.zero, hashPair Hash256.zero Hash256.zero, Hash256.zero] full t m ∨
          Collision (Tree.JoinsEither [Hash256.zero, hashPair Hash256.zero Hash256.zero, Hash256.zero]
            fresh [true, false, true, true]
            [hashPair Hash256.zero (hashPair Hash256.zero Hash256.zero), Hash256.zero])) := by
  refine ⟨by simp, ?_⟩
  obtain ⟨full, fresh, hof, hnew, hbinds⟩ := populate_binds
    [Hash256.zero, hashPair Hash256.zero Hash256.zero, Hash256.zero] (by simp)
  obtain rfl := Except.ok.inj hnew
  obtain ⟨-, t, -, ht⟩ := Tree.exists_populated? (show 0 < 3 by decide) [true, false, true, true]
    [hashPair Hash256.zero (hashPair Hash256.zero Hash256.zero), Hash256.zero] Tree.noTail_eq
  have hpopulate : Tree.populate ⟨3, Rows.empty 3⟩ [true, false, true, true]
      [hashPair Hash256.zero (hashPair Hash256.zero Hash256.zero), Hash256.zero] =
        (t, .ok ⟨hashPair (hashPair Hash256.zero (hashPair Hash256.zero Hash256.zero))
          (hashPair Hash256.zero Hash256.zero), [(2, Hash256.zero)]⟩) := by
    rw [Tree.populate, ht, Option.get!_some]
    rfl
  have hroot : hashPair (hashPair Hash256.zero (hashPair Hash256.zero Hash256.zero))
      (hashPair Hash256.zero Hash256.zero) =
        root [Hash256.zero, hashPair Hash256.zero Hash256.zero, Hash256.zero] := by
    rw [root_eq_reduce (by simp)]
    simp [reduce, parents]
  refine ⟨full, _, t, _, hof, rfl, hpopulate, hroot, rfl, ?_⟩
  exact (hbinds _ t _ hroot).1 _ hpopulate

end BitcoinPeer.Merkle
