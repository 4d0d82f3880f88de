import Mathlib.Data.Finset.Prod
import Mathlib.Logic.Relation
import Mathlib.Order.Interval.Finset.Nat
import BitcoinPeer.Proofs.Merkle.Levels

/-!
# Walks inside a tree

The invariant of every walk that fills a tree: the rows keep their sizes, and nothing is known from
the root down to the cursor (`Walk.Open`). Under it every look at a slot and every move has a result
(`Open.left`, `Open.right`, `Open.settle`, `Open.join_settle`), and each move lowers `Walk.weight`, which
counts an empty slot twice and a level below the cursor once.
-/

namespace BitcoinPeer.Merkle

open Digest (hashPair)

/-! ### Loops -/

section loops
variable {σ ρ : Type}

/-- The loop from `s` on takes finitely many steps, and the last one gives `r`. -/
inductive Ends (step : σ → Option (σ ⊕ ρ)) : σ → ρ → Prop where
  | last {s : σ} {r : ρ} (h : step s = some (.inr r)) : Ends step s r
  | next {s s' : σ} {r : ρ} (h : step s = some (.inl s')) (rest : Ends step s' r) : Ends step s r

/-- The loop gets from one state to another. -/
def Steps (step : σ → Option (σ ⊕ ρ)) : σ → σ → Prop :=
  Relation.ReflTransGen fun s s' => step s = some (.inl s')

variable {step : σ → Option (σ ⊕ ρ)} {s s' : σ} {r : ρ}

theorem Steps.ends (h : Steps step s s') (hend : Ends step s' r) : Ends step s r := by
  induction h using Relation.ReflTransGen.head_induction_on with
  | refl => exact hend
  | head hstep _ ih => exact .next hstep ih

theorem Ends.repeatM_eq [Nonempty ρ] (h : Ends step s r) : repeatM step s = some r := by
  induction h with
  | last h => rw [repeatM_eq_of_monadTail, repeatM.body, h]; rfl
  | next h _ ih => rw [repeatM_eq_of_monadTail, repeatM.body, h]; exact ih

/-- A loop ends with a result that satisfies `post` if every step either keeps the invariant and lowers
the weight, or gives such a result. -/
theorem exists_ends (inv : σ → Prop) (weight : σ → Nat) (post : ρ → Prop)
    (hstep : ∀ s, inv s → (∃ s', step s = some (.inl s') ∧ inv s' ∧ weight s' < weight s) ∨
      ∃ r, step s = some (.inr r) ∧ post r) :
    ∀ s, inv s → ∃ r, Ends step s r ∧ post r := by
  intro s
  induction s using (measure weight).wf.induction with | _ s ih
  intro hs
  obtain ⟨s', hnext, hinv, hlt⟩ | ⟨r, hend, hpost⟩ := hstep s hs
  · obtain ⟨r, hr, hpost⟩ := ih s' hlt hinv
    exact ⟨r, .next hnext hr, hpost⟩
  · exact ⟨r, .last hend, hpost⟩

end loops

/-! ### Rows of the right sizes -/

variable {total depth height index : Nat}

namespace Rows

/-- The rows have the sizes of a tree over `total` leaves. -/
structure Shaped (total : Nat) (rows : Rows) : Prop where
  pos : 0 < total
  size : rows.size = depthFor total + 1
  row : ∀ {depth height}, depth + height = depthFor total →
    rows.size? depth = some (width total height)

/-- The slots that are still empty. -/
def unknown (total : Nat) (rows : Rows) : Finset (Nat × Nat) :=
  (Finset.range (depthFor total + 1) ×ˢ Finset.range total).filter fun p =>
    rows.slot? p.1 p.2 = some none

/-- The hash of a node from its children, if these are known. -/
def childHash (rows : Rows) (depth index : Nat) : Option Hash256 := do
  let left ← (rows.slot? (depth + 1) (2 * index)).join
  match rows.slot? (depth + 1) (2 * index + 1) with
  | none => return hashPair left left
  | some right => return hashPair left (← right)

variable {rows rows' : Rows}

theorem shaped_empty (h : 0 < total) : (empty total).Shaped total where
  pos := h
  size := size_empty total
  row hd := by simp [size?, getElem?_empty hd]

theorem slot?_empty (hd : depth + height = depthFor total) (hi : index < width total height) :
    (empty total).slot? depth index = some none := by
  simp [slot?, getElem?_empty hd, hi]

theorem slot?_empty_ne (total d i : Nat) (a : Hash256) :
    (empty total).slot? d i ≠ some (some a) := by
  by_cases hd : d ≤ depthFor total
  · obtain ⟨height, hheight⟩ := Nat.exists_eq_add_of_le hd
    rw [slot?, getElem?_empty hheight.symm, Option.bind_some, Array.getElem?_replicate]
    split <;> simp
  · have hnone : (empty total)[d]? = none := by
      rw [Array.getElem?_eq_none_iff, size_empty]
      omega
    simp [slot?, hnone]

theorem Shaped.isSome_iff (h : rows.Shaped total) (hd : depth + height = depthFor total)
    (index : Nat) : (rows.slot? depth index).isSome ↔ index < width total height :=
  slot?_isSome_iff (h.row hd)

/-- There is one slot at the top. -/
theorem Shaped.index_eq_zero (h : rows.Shaped total) (hs : (rows.slot? 0 index).isSome) :
    index = 0 := by
  have hlt := (h.isSome_iff (Nat.zero_add (depthFor total)) index).mp hs
  rwa [width_depthFor h.pos, Nat.lt_one_iff] at hlt

theorem Shaped.getElem?_eq_none (h : rows.Shaped total) (hd : depthFor total < depth) :
    rows[depth]? = none := by
  rw [Array.getElem?_eq_none_iff, h.size]
  omega

theorem Shaped.depth_le (h : rows.Shaped total) (hs : (rows.slot? depth index).isSome) :
    depth ≤ depthFor total := by
  by_contra hlt
  simp [slot?, h.getElem?_eq_none (not_le.mp hlt)] at hs

theorem Shaped.mem_unknown (h : rows.Shaped total) (hs : rows.slot? depth index = some none) :
    (depth, index) ∈ rows.unknown total := by
  have hsome : (rows.slot? depth index).isSome := by simp [hs]
  have hdepth := h.depth_le hsome
  have hlt := (h.isSome_iff (Nat.add_sub_of_le hdepth) index).mp hsome
  have hle := width_le total (depthFor total - depth)
  simp only [unknown, Finset.mem_filter, Finset.mem_product, Finset.mem_range]
  exact ⟨⟨by omega, by omega⟩, hs⟩

theorem childHash_eq_some_iff {a : Hash256} :
    rows.childHash depth index = some a ↔
      ∃ l, rows.slot? (depth + 1) (2 * index) = some (some l) ∧
        (rows.slot? (depth + 1) (2 * index + 1) = none ∧ a = hashPair l l ∨
          ∃ r, rows.slot? (depth + 1) (2 * index + 1) = some (some r) ∧ a = hashPair l r) := by
  simp only [childHash, Option.bind_eq_bind, Option.bind_eq_some_iff, Option.join_eq_some_iff,
    Option.pure_def]
  refine exists_congr fun l => and_congr_right fun _ => ?_
  cases rows.slot? (depth + 1) (2 * index + 1) with
  | none => simp [eq_comm]
  | some right => cases right <;> simp [eq_comm]

/-- Filling an empty slot leaves the hash of known children as it is. -/
theorem childHash_of_fill {d i : Nat} {a b : Hash256}
    (hslot : ∀ d i, rows'.slot? d i =
      if d = depth ∧ i = index then some (some b) else rows.slot? d i)
    (hempty : rows.slot? depth index = some none) (h : rows.childHash d i = some a) :
    rows'.childHash d i = some a := by
  have hkeep : ∀ {d i}, rows.slot? d i ≠ some none → rows'.slot? d i = rows.slot? d i := by
    intro d i hne
    rw [hslot, if_neg]
    rintro ⟨rfl, rfl⟩
    exact hne hempty
  rw [childHash_eq_some_iff] at h ⊢
  obtain ⟨l, hl, ⟨hr, ha⟩ | ⟨r, hr, ha⟩⟩ := h
  · exact ⟨l, by rw [hkeep (by simp [hl]), hl], .inl ⟨by rw [hkeep (by simp [hr]), hr], ha⟩⟩
  · exact ⟨l, by rw [hkeep (by simp [hl]), hl], .inr ⟨r, by rw [hkeep (by simp [hr]), hr], ha⟩⟩

end Rows

/-! ### The invariant -/

namespace Walk

variable {w w' : Walk} {a l : Hash256}

/-- A walk over a tree with `total` leaves. -/
structure Inside (total : Nat) (w : Walk) : Prop where
  shaped : w.rows.Shaped total
  maxDepth : w.maxDepth = depthFor total

/-- Neither the slot under the cursor nor any slot above it is known. -/
structure Open (total : Nat) (w : Walk) : Prop extends Inside total w where
  path : ∀ {d k}, d + k = w.depth → w.rows.slot? d (w.index / 2 ^ k) = some none

/-- What a walk has still to do at most. -/
def weight (total : Nat) (w : Walk) : Nat :=
  2 * (w.rows.unknown total).card + (depthFor total - w.depth)

/-- `w'` is `w` after `a` was written into the slot under the cursor and the cursor went up, if it
could. -/
structure Settled (total : Nat) (w : Walk) (a : Hash256) (w' : Walk) : Prop
    extends Inside total w' where
  depth : w'.depth = w.depth - 1
  index : w'.index = w.index / 2
  slot : ∀ d i, w'.rows.slot? d i =
    if d = w.depth ∧ i = w.index then some (some a) else w.rows.slot? d i

/-- A walk starts open if the root is not known. -/
theorem open_walk {rows : Rows} (h : rows.Shaped total) (hroot : rows.slot? 0 0 = some none) :
    (Tree.walk ⟨total, rows⟩).Open total where
  shaped := h
  maxDepth := rfl
  path := by
    intro d k hdk
    obtain ⟨rfl, rfl⟩ : d = 0 ∧ k = 0 := Nat.add_eq_zero_iff.mp hdk
    simpa [Tree.walk] using hroot

theorem Open.here (h : w.Open total) : w.rows.slot? w.depth w.index = some none := by
  simpa using h.path (d := w.depth) (k := 0) rfl

theorem Open.depth_le (h : w.Open total) : w.depth ≤ depthFor total :=
  h.shaped.depth_le (Option.isSome_of_eq_some h.here)

theorem Open.index_lt (h : w.Open total) (hd : w.depth + height = depthFor total) :
    w.index < width total height :=
  (h.shaped.isSome_iff hd w.index).mp (Option.isSome_of_eq_some h.here)

theorem Open.index_eq_zero (h : w.Open total) (hd : w.depth = 0) : w.index = 0 := by
  have hhere := Option.isSome_of_eq_some h.here
  rw [hd] at hhere
  exact h.shaped.index_eq_zero hhere

theorem Open.root (h : w.Open total) : w.root = some none := by
  have htop := h.path (Nat.zero_add w.depth)
  rwa [h.shaped.index_eq_zero (Option.isSome_of_eq_some htop)] at htop

theorem Open.isLeaf (h : w.Open total) : w.isLeaf = decide (w.depth = depthFor total) := by
  rw [Walk.isLeaf, h.maxDepth, beq_eq_decide]

/-! ### Looking below the cursor -/

/-- Every node above the leaves has a left child. -/
theorem Inside.leftSlot (h : w.Inside total) (hd : w.depth + (height + 1) = depthFor total)
    (hi : w.index < width total (height + 1)) : w.leftSlot.isSome := by
  rw [width_succ] at hi
  exact (h.shaped.isSome_iff (show w.depth + 1 + height = depthFor total by omega) _).mpr (by omega)

theorem Open.leftSlot (h : w.Open total) (hd : w.depth < depthFor total) :
    w.leftSlot.isSome := by
  obtain ⟨height, hheight⟩ : ∃ height, w.depth + (height + 1) = depthFor total :=
    ⟨depthFor total - w.depth - 1, by omega⟩
  exact h.toInside.leftSlot hheight (h.index_lt hheight)

theorem Inside.hasRight (h : w.Inside total) (hd : w.depth < depthFor total) :
    w.hasRight = some w.rightSlot.isSome := by
  obtain ⟨height, hheight⟩ : ∃ height, w.depth + 1 + height = depthFor total :=
    ⟨_, Nat.add_sub_of_le hd⟩
  have hiff := h.shaped.isSome_iff hheight (2 * w.index + 1)
  rw [Walk.hasRight, h.shaped.row hheight, Option.map_some, Option.some_inj, rightSlot,
    Bool.eq_iff_iff, hiff, decide_eq_true_iff]

/-! ### Moves -/

theorem Open.left (h : w.Open total) (hl : w.leftSlot = some none) : w.left.Open total where
  toInside := ⟨h.shaped, h.maxDepth⟩
  path := by
    intro d k hdk
    cases k with
    | zero =>
      rw [show d = w.depth + 1 from hdk, Nat.pow_zero, Nat.div_one]
      exact hl
    | succ k =>
      have hdiv : 2 * w.index / 2 ^ (k + 1) = w.index / 2 ^ k := by
        rw [Nat.pow_succ', Nat.mul_div_mul_left _ _ Nat.two_pos]
      have hup : d + k = w.depth := by
        have : d + (k + 1) = w.depth + 1 := hdk
        omega
      simpa [Walk.left, hdiv] using h.path hup

theorem Open.right (h : w.Open total) (hr : w.rightSlot = some none) : w.right.Open total where
  toInside := ⟨h.shaped, h.maxDepth⟩
  path := by
    intro d k hdk
    cases k with
    | zero =>
      rw [show d = w.depth + 1 from hdk, Nat.pow_zero, Nat.div_one]
      exact hr
    | succ k =>
      have hdiv : (2 * w.index + 1) / 2 ^ (k + 1) = w.index / 2 ^ k := by
        rw [Nat.pow_succ', ← Nat.div_div_eq_div_mul]
        congr 1
        omega
      have hup : d + k = w.depth := by
        have : d + (k + 1) = w.depth + 1 := hdk
        omega
      simpa [Walk.right, hdiv] using h.path hup

theorem Open.settle (h : w.Open total) (a : Hash256) :
    ∃ w', w.settle a = some w' ∧ Settled total w a w' := by
  have hsome : (w.rows.slot? w.depth w.index).isSome := Option.isSome_of_eq_some h.here
  obtain ⟨rows', hfill, hsize, hrow, hslot⟩ := Rows.exists_fill hsome a
  have hshaped : rows'.Shaped total := ⟨h.shaped.pos, hsize.trans h.shaped.size, fun hd =>
    (hrow _).trans (h.shaped.row hd)⟩
  cases hd : w.depth with
  | zero =>
    have hi := h.index_eq_zero hd
    refine ⟨{ w with rows := rows' }, ?_, ⟨hshaped, h.maxDepth⟩, ?_, ?_, hslot⟩
    · rw [hd, hi] at hfill
      simp [Walk.settle, hfill, atRoot, hd, hi]
    · simp [hd]
    · simp [hi]
  | succ d =>
    refine ⟨{ w with rows := rows', depth := d, index := w.index / 2 }, ?_,
      ⟨hshaped, h.maxDepth⟩, ?_, rfl, hslot⟩
    · rw [hd] at hfill
      simp [Walk.settle, hfill, atRoot, hd, up]
    · simp [hd]

theorem Settled.here (h : Settled total w a w') :
    w'.rows.slot? w.depth w.index = some (some a) := by
  rw [h.slot, if_pos ⟨rfl, rfl⟩]

/-- At the root, the walk is over once the slot is filled. -/
theorem Settled.root (h : Settled total w a w') (ho : w.Open total) (hd : w.depth = 0) :
    w'.root = some (some a) := by
  have hhere := h.here
  rwa [hd, ho.index_eq_zero hd] at hhere

theorem Settled.open (h : Settled total w a w') (ho : w.Open total) (hd : w.depth ≠ 0) :
    w'.Open total where
  toInside := h.toInside
  path := by
    intro d k hdk
    rw [h.depth] at hdk
    -- the slot just filled is below the parent, and so not on its path
    rw [h.slot, if_neg (by omega), h.index, Nat.div_div_eq_div_mul, ← Nat.pow_succ']
    exact ho.path (by omega)

/-- Either the walk goes on or the root is known. -/
theorem Settled.open_or_root (h : Settled total w a w') (ho : w.Open total) :
    w'.Open total ∨ w'.root = some (some a) := by
  by_cases hd : w.depth = 0
  · exact .inr (h.root ho hd)
  · exact .inl (h.open ho hd)

/-- From a node whose left child is known the walk goes to the right child while that is unknown. -/
theorem Open.join_right (h : w.Open total) (hd : w.depth < depthFor total)
    (hr : w.rightSlot = some none) (l : Hash256) : w.join l = some w.right := by
  simp [Walk.join, h.hasRight hd, hr]

/-- A node whose children are known is settled with their hash. -/
theorem Open.join_settle (h : w.Open total) (hd : w.depth < depthFor total)
    (hl : w.leftSlot = some (some l)) (ha : w.rows.childHash w.depth w.index = some a) :
    ∃ w', w.join l = some w' ∧ Settled total w a w' := by
  obtain ⟨w', hsettle, hw'⟩ := h.settle a
  refine ⟨w', ?_, hw'⟩
  obtain ⟨l', hl', hr⟩ := Rows.childHash_eq_some_iff.mp ha
  obtain rfl : l' = l := by
    rw [Walk.leftSlot, hl'] at hl
    simpa using hl
  obtain ⟨hr, rfl⟩ | ⟨r, hr, rfl⟩ := hr
  · have hnone : w.rightSlot = none := hr
    simpa [Walk.join, h.hasRight hd, hnone] using hsettle
  · have hsome : w.rightSlot = some (some r) := hr
    simpa [Walk.join, h.hasRight hd, hsome] using hsettle

theorem childHash_of_leftSlot (hl : w.leftSlot = some (some l)) :
    w.rightSlot = some none ∨ ∃ a, w.rows.childHash w.depth w.index = some a := by
  cases hr : w.rightSlot with
  | none => exact .inr ⟨_, Rows.childHash_eq_some_iff.mpr ⟨l, hl, .inl ⟨hr, rfl⟩⟩⟩
  | some slot => cases slot with
    | none => exact .inl rfl
    | some r => exact .inr ⟨_, Rows.childHash_eq_some_iff.mpr ⟨l, hl, .inr ⟨r, hr, rfl⟩⟩⟩

/-! ### The weight -/

theorem Open.weight_left (h : w.Open total) (hl : w.leftSlot = some none) :
    w.left.weight total < w.weight total := by
  have hle : w.depth + 1 ≤ depthFor total := (h.left hl).depth_le
  simp only [weight, Walk.left]
  omega

theorem Open.weight_right (h : w.Open total) (hr : w.rightSlot = some none) :
    w.right.weight total < w.weight total := by
  have hle : w.depth + 1 ≤ depthFor total := (h.right hr).depth_le
  simp only [weight, Walk.right]
  omega

theorem Settled.weight_lt (h : Settled total w a w') (ho : w.Open total) :
    w'.weight total < w.weight total := by
  have hmem := ho.shaped.mem_unknown ho.here
  have herase : w'.rows.unknown total = (w.rows.unknown total).erase (w.depth, w.index) := by
    ext ⟨d, i⟩
    simp only [Rows.unknown, Finset.mem_filter, Finset.mem_erase, ne_eq, Prod.mk.injEq, h.slot]
    split <;> simp [*]
  have hcard := Finset.card_erase_of_mem hmem
  have hpos : 0 < (w.rows.unknown total).card := Finset.card_pos.mpr ⟨_, hmem⟩
  simp only [weight, herase, hcard, h.depth]
  omega

end Walk

end BitcoinPeer.Merkle
