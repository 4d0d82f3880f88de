import BitcoinPeer.Proofs.Merkle.Computed
import BitcoinPeer.Proofs.Merkle.Populated

/-!
# Moves of a walk, and the pairs they join

Both loops over a tree move in one of four ways (`Walk.Move`): down to an unknown left child, on to
the right one, up with a hash that was given, or up with the hash of the children. Only the last one
joins two hashes, those of `Walk.pair?`, and a loop joins a pair (`Joins`) if it comes to a walk of
which that is the pair.

Two invariants follow from what a move can do. A known node whose children are known is the hash of a
pair that was joined (`Rows.Traced`). While a tree is read, a node is known only if the one above it
is, or is still to be settled (`Walk.Rooted`). So when the root is known, every slot that the reading
filled hangs from it by pairs that were joined (`Rows.Grounded`).
-/

namespace BitcoinPeer.Merkle

open Digest (hashPair)

variable {total depth index d i : Nat}

/-! ### Runs of a loop -/

section loops
variable {σ ρ : Type} {step : σ → Option (σ ⊕ ρ)} {s s' : σ} {r : ρ}

/-- The state from which the last step of a loop is taken. -/
theorem Ends.exists_last (h : Ends step s r) : ∃ s', Steps step s s' ∧ step s' = some (.inr r) := by
  induction h with
  | last h => exact ⟨_, .refl, h⟩
  | next h _ ih =>
    obtain ⟨s', hsteps, hlast⟩ := ih
    exact ⟨s', .head h hsteps, hlast⟩

/-- From every state that it comes to, a loop ends as it does from its first one. -/
theorem Ends.of_steps (h : Ends step s r) (hs : Steps step s s') : Ends step s' r := by
  induction hs with
  | refl => exact h
  | tail _ hlast ih =>
    cases ih with
    | last hend =>
      rw [hlast] at hend
      cases hend
    | next hnext hrest =>
      rw [hlast] at hnext
      obtain rfl := Sum.inl.inj (Option.some.inj hnext)
      exact hrest

/-- What a step keeps, the loop keeps. -/
theorem Steps.invariant (h : Steps step s s') (inv : σ → Prop)
    (hstep : ∀ s₁ s₂, Steps step s s₁ → inv s₁ → step s₁ = some (.inl s₂) → inv s₂) (hs : inv s) :
    inv s' := by
  induction h with
  | refl => exact hs
  | tail hsteps hlast ih => exact hstep _ _ hsteps ih hlast

end loops

/-! ### Children -/

namespace Rows

/-- The hash of a slot is known. -/
def Known (rows : Rows) (depth index : Nat) : Prop :=
  ∃ a, rows.slot? depth index = some (some a)

/-- The children of a node, if they are known. A node without a right child has its left child
twice. -/
def pair? (rows : Rows) (depth index : Nat) : Option (Hash256 × Hash256) := do
  let left ← (rows.slot? (depth + 1) (2 * index)).join
  match rows.slot? (depth + 1) (2 * index + 1) with
  | none => return (left, left)
  | some right => return (left, ← right)

variable {rows rows' : Rows} {p : Hash256 × Hash256} {a b : Hash256}

theorem pair?_eq_some_iff :
    rows.pair? depth index = some p ↔
      rows.slot? (depth + 1) (2 * index) = some (some p.1) ∧
        (rows.slot? (depth + 1) (2 * index + 1) = none ∧ p.2 = p.1 ∨
          rows.slot? (depth + 1) (2 * index + 1) = some (some p.2)) := by
  obtain ⟨l, r⟩ := p
  simp only [pair?, Option.bind_eq_bind, Option.bind_eq_some_iff, Option.join_eq_some_iff,
    Option.pure_def]
  constructor
  · rintro ⟨l', hl, h⟩
    cases hr : rows.slot? (depth + 1) (2 * index + 1) with
    | none =>
      obtain ⟨rfl, rfl⟩ : l' = l ∧ l' = r := by simpa [hr] using h
      exact ⟨hl, .inl ⟨rfl, rfl⟩⟩
    | some right =>
      cases right with
      | none => simp [hr] at h
      | some r' =>
        obtain ⟨rfl, rfl⟩ : l' = l ∧ r' = r := by simpa [hr] using h
        exact ⟨hl, .inr rfl⟩
  · rintro ⟨hl, ⟨hr, heq⟩ | hr⟩
    · exact ⟨l, hl, by simp [hr, show r = l from heq]⟩
    · exact ⟨l, hl, by simp [hr]⟩

theorem childHash_eq (rows : Rows) (depth index : Nat) :
    rows.childHash depth index = (rows.pair? depth index).map fun p => hashPair p.1 p.2 := by
  unfold childHash pair?
  cases (rows.slot? (depth + 1) (2 * index)).join with
  | none => rfl
  | some l =>
    cases rows.slot? (depth + 1) (2 * index + 1) with
    | none => rfl
    | some right => cases right <;> rfl

/-- A known child is the left or the right one of the pair. -/
theorem slot?_of_pair? (h : rows.pair? depth index = some p) {child : Nat}
    (hchild : child / 2 = index) (hknown : rows.slot? (depth + 1) child = some (some a)) :
    child = 2 * index ∧ a = p.1 ∨ child = 2 * index + 1 ∧ a = p.2 := by
  obtain ⟨hl, hr⟩ := pair?_eq_some_iff.mp h
  obtain rfl | rfl : child = 2 * index ∨ child = 2 * index + 1 := by omega
  · rw [hl] at hknown
    simp_all
  · rcases hr with ⟨hr, -⟩ | hr
    · simp [hr] at hknown
    · rw [hr] at hknown
      simp_all

/-- Every known node with a known left child is the hash of its children, and these have a property. -/
def Traced (J : Hash256 × Hash256 → Prop) (rows : Rows) : Prop :=
  ∀ d i a, rows.slot? d i = some (some a) → rows.Known (d + 1) (2 * i) →
    ∃ p, J p ∧ rows.pair? d i = some p ∧ a = hashPair p.1 p.2

end Rows

/-! ### Moves -/

namespace Walk

open Rows (Known)

variable {w w' : Walk} {a : Hash256} {p : Hash256 × Hash256} {J : Hash256 × Hash256 → Prop}

/-- The two hashes that the next step joins, if it joins any: nothing is joined once the root is
known, nor at a leaf. -/
def pair? (w : Walk) : Option (Hash256 × Hash256) :=
  if w.root = some none ∧ w.isLeaf = false then w.rows.pair? w.depth w.index else none

/-- What one step may do to a walk. -/
inductive Move (total : Nat) (w : Walk) : Walk → Prop where
  | left (hl : w.leftSlot = some none) : Move total w w.left
  | right (hl : Known w.rows (w.depth + 1) (2 * w.index)) (hr : w.rightSlot = some none) :
    Move total w w.right
  /-- A hash is given to a leaf, or to a node of which no child is known. -/
  | given {a : Hash256} {w' : Walk} (h : w.depth = depthFor total ∨ w.leftSlot = some none)
    (hs : Settled total w a w') : Move total w w'
  | joined {p : Hash256 × Hash256} {w' : Walk} (hp : w.pair? = some p)
    (hs : Settled total w (hashPair p.1 p.2) w') : Move total w w'

theorem Open.pair?_eq (h : w.Open total) (hd : w.depth < depthFor total) :
    w.pair? = w.rows.pair? w.depth w.index := by
  rw [pair?, if_pos ⟨h.root, by simp [h.isLeaf, hd.ne]⟩]

theorem pair?_rows (h : w.pair? = some p) : w.rows.pair? w.depth w.index = some p := by
  unfold pair? at h
  split at h
  · exact h
  · cases h

/-- At a node whose left child is known, either loop goes on to the right child or joins the two. -/
theorem Open.exists_join (h : w.Open total) (hd : w.depth < depthFor total) {l : Hash256}
    (hl : w.leftSlot = some (some l)) : ∃ w', w.join l = some w' ∧ Move total w w' := by
  obtain hr | ⟨a, ha⟩ := childHash_of_leftSlot hl
  · exact ⟨w.right, h.join_right hd hr l, .right ⟨l, hl⟩ hr⟩
  · obtain ⟨w', hjoin, hs⟩ := h.join_settle hd hl ha
    rw [Rows.childHash_eq, Option.map_eq_some_iff] at ha
    obtain ⟨p, hp, rfl⟩ := ha
    exact ⟨w', hjoin, .joined ((h.pair?_eq hd).trans hp) hs⟩

/-! ### What moves keep -/

/-- The walk is over: the root is known and the cursor stands on it. -/
structure Done (w : Walk) : Prop where
  depth : w.depth = 0
  index : w.index = 0
  root : Known w.rows 0 0

theorem Settled.open_or_done (h : Settled total w a w') (ho : w.Open total) :
    w'.Open total ∨ w'.Done := by
  by_cases hd : w.depth = 0
  · refine .inr ⟨?_, ?_, a, h.root ho hd⟩
    · rw [h.depth, hd]
    · rw [h.index, ho.index_eq_zero hd]
  · exact .inl (h.open ho hd)

theorem Move.open_or_done (h : Move total w w') (ho : w.Open total) : w'.Open total ∨ w'.Done := by
  cases h with
  | left hl => exact .inl (ho.left hl)
  | right _ hr => exact .inl (ho.right hr)
  | given _ hs => exact hs.open_or_done ho
  | joined _ hs => exact hs.open_or_done ho

theorem Move.shaped (h : Move total w w') (ho : w.Open total) : w'.rows.Shaped total := by
  cases h with
  | left _ => exact ho.shaped
  | right _ _ => exact ho.shaped
  | given _ hs => exact hs.shaped
  | joined _ hs => exact hs.shaped

/-- Only the empty slot under the cursor is filled. -/
theorem Settled.slot?_eq (h : Settled total w a w') (ho : w.Open total)
    (hne : w.rows.slot? d i ≠ some none) : w'.rows.slot? d i = w.rows.slot? d i := by
  rw [h.slot, if_neg]
  rintro ⟨rfl, rfl⟩
  exact hne ho.here

theorem Move.slot?_eq (h : Move total w w') (ho : w.Open total)
    (hne : w.rows.slot? d i ≠ some none) : w'.rows.slot? d i = w.rows.slot? d i := by
  cases h with
  | left _ => rfl
  | right _ _ => rfl
  | given _ hs => exact hs.slot?_eq ho hne
  | joined _ hs => exact hs.slot?_eq ho hne

theorem Move.pair?_eq (h : Move total w w') (ho : w.Open total)
    (hp : w.rows.pair? d i = some p) : w'.rows.pair? d i = some p := by
  rw [Rows.pair?_eq_some_iff] at hp ⊢
  obtain ⟨hl, hr⟩ := hp
  rw [h.slot?_eq ho (by simp [hl])]
  refine ⟨hl, ?_⟩
  rcases hr with ⟨hr, heq⟩ | hr
  · exact .inl ⟨by rw [h.slot?_eq ho (by simp [hr]), hr], heq⟩
  · exact .inr (by rw [h.slot?_eq ho (by simp [hr]), hr])

theorem Settled.known_iff (h : Settled total w a w') :
    w'.rows.Known d i ↔ (d = w.depth ∧ i = w.index) ∨ w.rows.Known d i := by
  unfold Known
  rw [h.slot]
  by_cases hhere : d = w.depth ∧ i = w.index
  · simp [hhere]
  · simp [hhere]

/-- The node above the cursor is unknown. -/
theorem Open.not_known_above (ho : w.Open total) (hd : d + 1 = w.depth) (hi : i = w.index / 2) :
    ¬ w.rows.Known d i := by
  rintro ⟨a, ha⟩
  have hpath := ho.path (d := d) (k := 1) hd
  rw [Nat.pow_one, ← hi, ha] at hpath
  cases hpath

/-- After the slot under the cursor was filled, the nodes known before are traced as they were. -/
theorem Settled.traced (hm : Move total w w') (hs : Settled total w a w') (ho : w.Open total)
    (h : w.rows.Traced J)
    (hhere : Known w.rows (w.depth + 1) (2 * w.index) →
      ∃ p, J p ∧ w.rows.pair? w.depth w.index = some p ∧ a = hashPair p.1 p.2) :
    w'.rows.Traced J := by
  intro d i b hb hleft
  have hold : w.rows.Known (d + 1) (2 * i) → ∃ p, J p ∧ w.rows.pair? d i = some p ∧
      b = hashPair p.1 p.2 := by
    intro hl
    rw [hs.slot] at hb
    split at hb
    · rename_i heq
      obtain ⟨rfl, rfl⟩ := heq
      cases hb
      exact hhere hl
    · exact h d i b hb hl
  rcases hs.known_iff.mp hleft with ⟨hd, hi⟩ | hl
  · -- the left child was just filled, and the node above it is known: it was not on the path
    rcases hs.known_iff.mp ⟨b, hb⟩ with ⟨hd', -⟩ | hknown
    · omega
    · exact absurd hknown (ho.not_known_above hd (by omega))
  · obtain ⟨p, hJ, hp, heq⟩ := hold hl
    exact ⟨p, hJ, hm.pair?_eq ho hp, heq⟩

/-- **Tracing**: a move keeps every known node the hash of a pair that was joined. -/
theorem Move.traced (hm : Move total w w') (ho : w.Open total) (h : w.rows.Traced J)
    (hJ : ∀ p, w.pair? = some p → J p) : w'.rows.Traced J := by
  have hmove := hm
  cases hm with
  | left _ => exact h
  | right _ _ => exact h
  | given hgiven hs =>
    refine hs.traced hmove ho h ?_
    rintro ⟨l, hl⟩
    -- no child of the node is known
    rcases hgiven with hd | hleft
    · have hle := ho.shaped.depth_le (Option.isSome_of_eq_some hl)
      omega
    · rw [leftSlot, hl] at hleft
      cases hleft
  | joined hp hs => exact hs.traced hmove ho h fun _ => ⟨_, hJ _ hp, pair?_rows hp, rfl⟩

/-- While a tree is read, the right child of a node is known only if the left one is, also where the
cursor is below the right one; and a node is known only if the one above it is known or stands above
the cursor. -/
structure Rooted (w : Walk) : Prop where
  first : ∀ {d i}, w.rows.Known (d + 1) (2 * i + 1) → w.rows.Known (d + 1) (2 * i)
  beside : ∀ {d i k}, d + 1 + k = w.depth → w.index / 2 ^ k = 2 * i + 1 →
    w.rows.Known (d + 1) (2 * i)
  above : ∀ {d i}, w.rows.Known (d + 1) i →
    w.rows.Known d (i / 2) ∨ ∃ k, d + k = w.depth ∧ i / 2 = w.index / 2 ^ k

theorem Rooted.left (h : w.Rooted) : w.left.Rooted where
  first := h.first
  beside := by
    intro d i k hd hi
    cases k with
    | zero =>
      simp only [Walk.left] at hi
      omega
    | succ k =>
      have hdiv : 2 * w.index / 2 ^ (k + 1) = w.index / 2 ^ k := by
        rw [Nat.pow_succ', Nat.mul_div_mul_left _ _ Nat.two_pos]
      have hup : d + 1 + (k + 1) = w.depth + 1 := hd
      exact h.beside (by omega) (hdiv.symm.trans hi)
  above := by
    intro d i hk
    rcases h.above hk with hk | ⟨k, hd, hi⟩
    · exact .inl hk
    · refine .inr ⟨k + 1, show d + (k + 1) = w.depth + 1 by omega, ?_⟩
      rw [hi, Walk.left, Nat.pow_succ', Nat.mul_div_mul_left _ _ Nat.two_pos]

theorem Rooted.right (h : w.Rooted) (hl : Known w.rows (w.depth + 1) (2 * w.index)) :
    w.right.Rooted where
  first := h.first
  beside := by
    intro d i k hd hi
    have hup : d + 1 + k = w.depth + 1 := hd
    cases k with
    | zero =>
      have heq : 2 * w.index + 1 = 2 * i + 1 := by simpa [Walk.right] using hi
      obtain rfl : i = w.index := by omega
      obtain rfl : d = w.depth := by omega
      exact hl
    | succ k =>
      have hdiv : (2 * w.index + 1) / 2 ^ (k + 1) = w.index / 2 ^ k := by
        rw [Nat.pow_succ', ← Nat.div_div_eq_div_mul, show (2 * w.index + 1) / 2 = w.index by omega]
      exact h.beside (by omega) (hdiv.symm.trans hi)
  above := by
    intro d i hk
    rcases h.above hk with hk | ⟨k, hd, hi⟩
    · exact .inl hk
    · refine .inr ⟨k + 1, show d + (k + 1) = w.depth + 1 by omega, ?_⟩
      have hdiv : (2 * w.index + 1) / 2 = w.index := by omega
      rw [hi, Walk.right, Nat.pow_succ', ← Nat.div_div_eq_div_mul, hdiv]

theorem Settled.rooted (hs : Settled total w a w') (h : w.Rooted) : w'.Rooted where
  first := by
    intro d i hk
    rw [hs.known_iff] at hk ⊢
    rcases hk with ⟨hd, hi⟩ | hk
    · exact .inr (h.beside (k := 0) hd (by simp [hi]))
    · exact .inr (h.first hk)
  beside := by
    intro d i k hd hi
    rw [hs.depth] at hd
    rw [hs.index, Nat.div_div_eq_div_mul, ← Nat.pow_succ'] at hi
    exact hs.known_iff.mpr (.inr (h.beside (by omega) hi))
  above := by
    intro d i hk
    rw [hs.known_iff] at hk ⊢
    rw [hs.depth, hs.index]
    rcases hk with ⟨hd, hi⟩ | hk
    · exact .inr ⟨0, by omega, by rw [hi, Nat.pow_zero, Nat.div_one]⟩
    · rcases h.above hk with hk | ⟨k, hd, hi⟩
      · exact .inl (.inr hk)
      · cases k with
        | zero => exact .inl (.inl ⟨hd, by rw [hi, Nat.pow_zero, Nat.div_one]⟩)
        | succ k =>
          refine .inr ⟨k, by omega, ?_⟩
          rw [hi, Nat.div_div_eq_div_mul, Nat.pow_succ']

theorem Move.rooted (hm : Move total w w') (h : w.Rooted) : w'.Rooted := by
  cases hm with
  | left _ => exact h.left
  | right hl _ => exact h.right hl
  | given _ hs => exact hs.rooted h
  | joined _ hs => exact hs.rooted h

end Walk

/-! ### The loop that computes a tree -/

section joins
variable {σ ρ : Type} {step : σ → Option (σ ⊕ ρ)} {walk : σ → Walk} {s s' : σ}
  {p : Hash256 × Hash256}

/-- A loop comes to a walk whose next step joins these two hashes. -/
def Joins (step : σ → Option (σ ⊕ ρ)) (walk : σ → Walk) (s : σ) (p : Hash256 × Hash256) : Prop :=
  ∃ s', Steps step s s' ∧ (walk s').pair? = some p

theorem joins_iff_of_step (h : step s = some (.inl s')) :
    Joins step walk s p ↔ (walk s).pair? = some p ∨ Joins step walk s' p := by
  constructor
  · rintro ⟨s₂, hsteps, hp⟩
    obtain rfl | ⟨s₁, hfirst, htail⟩ := Relation.ReflTransGen.cases_head hsteps
    · exact .inl hp
    · rw [h] at hfirst
      obtain rfl := Sum.inl.inj (Option.some.inj hfirst)
      exact .inr ⟨s₂, htail, hp⟩
  · rintro (hp | ⟨s₂, hsteps, hp⟩)
    · exact ⟨s, .refl, hp⟩
    · exact ⟨s₂, .head h hsteps, hp⟩

theorem joins_iff_of_stop (h : ∀ s', step s ≠ some (.inl s')) :
    Joins step walk s p ↔ (walk s).pair? = some p := by
  constructor
  · rintro ⟨s₂, hsteps, hp⟩
    obtain rfl | ⟨s₁, hfirst, -⟩ := Relation.ReflTransGen.cases_head hsteps
    · exact hp
    · exact absurd hfirst (h s₁)
  · intro hp
    exact ⟨s, .refl, hp⟩

/-- The pairs that a loop joins, in order, if it stops within so many steps. -/
def joined? (step : σ → Option (σ ⊕ ρ)) (walk : σ → Walk) :
    (fuel : Nat) → σ → Option (List (Hash256 × Hash256))
  | 0, _ => none
  | fuel + 1, s =>
    match step s with
    | some (.inl s') => (joined? step walk fuel s').map ((walk s).pair?.toList ++ ·)
    | some (.inr _) | none => some (walk s).pair?.toList

theorem joins_iff_mem {fuel : Nat} {pairs : List (Hash256 × Hash256)}
    (h : joined? step walk fuel s = some pairs) : Joins step walk s p ↔ p ∈ pairs := by
  induction fuel generalizing s pairs with
  | zero => cases h
  | succ fuel ih =>
    unfold joined? at h
    split at h
    · rename_i s' hstep
      obtain ⟨rest, hrest, rfl⟩ := Option.map_eq_some_iff.mp h
      rw [joins_iff_of_step hstep, ih hrest, List.mem_append, Option.mem_toList]
    · rename_i hstep
      cases h
      rw [joins_iff_of_stop (by simp [hstep]), Option.mem_toList]
    · rename_i hstep
      cases h
      rw [joins_iff_of_stop (by simp [hstep]), Option.mem_toList]

end joins

namespace Walk

variable {leaves : List Hash256} {w w' : Walk} {J : Hash256 × Hash256 → Prop}

theorem move_of_computeStep (h : w.Computing leaves) (hstep : w.computeStep = some (.inl w')) :
    Move leaves.length w w' ∧ w.Open leaves.length ∧ w'.Computing leaves := by
  rcases computeStep_of_computing h with ⟨w₁, hw₁, hnext, -⟩ | ⟨rows, hlast, -⟩
  · obtain rfl : w₁ = w' := by
      rw [hw₁] at hstep
      exact Sum.inl.inj (Option.some.inj hstep)
    refine ⟨?_, ?_, hnext⟩
    all_goals rcases h.open_or_root with ho | ⟨a, ha⟩
    · have hd := h.depth_lt ho
      have hleaf : w.isLeaf = false := by simp [ho.isLeaf, hd.ne]
      obtain ⟨slot, hslot⟩ := Option.isSome_iff_exists.mp (ho.leftSlot hd)
      cases slot with
      | none =>
        obtain rfl : w.left = w₁ := by simpa [computeStep, ho.root, hleaf, hslot] using hw₁
        exact .left hslot
      | some l =>
        obtain ⟨w₂, hjoin, hmove⟩ := ho.exists_join hd hslot
        obtain rfl : w₂ = w₁ := by simpa [computeStep, ho.root, hleaf, hslot, hjoin] using hw₁
        exact hmove
    · simp [computeStep, ha] at hw₁
    · exact ho
    · simp [computeStep, ha] at hw₁
  · rw [hlast] at hstep
    cases hstep

theorem root_of_computeStep {rows : Rows} (h : w.computeStep = some (.inr rows)) :
    rows = w.rows ∧ ∃ a, w.root = some (some a) := by
  unfold computeStep at h
  simp only [Option.bind_eq_bind, Option.bind_eq_some_iff] at h
  obtain ⟨slot, hroot, h⟩ := h
  cases slot with
  | some a =>
    cases h
    exact ⟨rfl, a, hroot⟩
  | none =>
    -- a step from an unknown root never ends the loop
    simp only at h
    split at h
    · simp [Option.bind_eq_some_iff] at h
    · obtain ⟨slot, -, h⟩ := Option.bind_eq_some_iff.mp h
      cases slot <;> simp [Option.bind_eq_some_iff] at h

theorem computing_of_steps (hstart : w.Computing leaves) (h : Steps computeStep w w') :
    w'.Computing leaves := by
  refine h.invariant (Computing leaves) ?_ hstart
  intro w₁ w₂ _ hcomp hstep
  exact (move_of_computeStep hcomp hstep).2.2

/-- The loop leaves known children as they are. -/
theorem pair?_of_steps (hstart : w.Computing leaves) {p : Hash256 × Hash256}
    (hp : w.rows.pair? d i = some p) (h : Steps computeStep w w') : w'.rows.pair? d i = some p := by
  refine h.invariant (·.rows.pair? d i = some p) ?_ hp
  intro w₁ w₂ hsteps hpair hstep
  obtain ⟨hmove, ho, -⟩ := move_of_computeStep (computing_of_steps hstart hsteps) hstep
  exact hmove.pair?_eq ho hpair

/-- All along the loop every known node above the leaves is the hash of a pair that was joined. -/
theorem traced_of_steps (hstart : w.Computing leaves) (htraced : w.rows.Traced J)
    (hJ : ∀ p, Joins computeStep id w p → J p) (h : Steps computeStep w w') : w'.rows.Traced J := by
  refine h.invariant (·.rows.Traced J) ?_ htraced
  intro w₁ w₂ hsteps htr hstep
  obtain ⟨hmove, ho, -⟩ := move_of_computeStep (computing_of_steps hstart hsteps) hstep
  exact hmove.traced ho htr fun p hp => hJ p ⟨w₁, hsteps, hp⟩

end Walk

/-! ### The loop that reads a tree -/

namespace Reader

open Rows (Known)

variable {r r' : Reader} {feed : Feed} {isMatch : Bool} {J : Hash256 × Hash256 → Prop}

theorem settled_of_take (ho : r.toWalk.Open total) (h : r.take isMatch feed = some (.ok r')) :
    ∃ a, Walk.Settled total r.toWalk a r'.toWalk ∧
      r'.matched.toList = r.matched.toList ++ if isMatch then [(r.index, a)] else [] := by
  cases hhash : feed.nextHash with
  | error e =>
    rw [take_of_error isMatch hhash] at h
    cases h
  | ok next =>
    obtain ⟨a, feed'⟩ := next
    obtain ⟨r₁, htake, hs, -, hmatched⟩ := exists_take ho isMatch hhash
    obtain rfl : r₁ = r' := by
      rw [htake] at h
      exact Except.ok.inj (Option.some.inj h)
    exact ⟨a, hs, hmatched⟩

/-- The matched leaves are known. -/
def MatchesKnown (total : Nat) (r : Reader) : Prop :=
  ∀ m ∈ r.matched.toList, r.rows.slot? (depthFor total) m.1 = some (some m.2)

/-- One step of an open reader is a move, and a match is recorded only of a leaf that it fills. -/
theorem move_of_step (ho : r.toWalk.Open total) (h : r.step = some (.inl r')) :
    Walk.Move total r.toWalk r'.toWalk ∧ (r.MatchesKnown total → r'.MatchesKnown total) := by
  have hadvance : r.advance = some (.ok r') := by
    simp only [step, ho.root] at h
    cases hadv : r.advance with
    | none => simp [hadv] at h
    | some result => cases result <;> simp_all
  have hkeep : Walk.Move total r.toWalk r'.toWalk → r'.matched = r.matched →
      r.MatchesKnown total → r'.MatchesKnown total := by
    intro hmove hmatched hknown m hm
    rw [hmatched] at hm
    have hslot := hknown m hm
    rw [hmove.slot?_eq ho (by simp [hslot]), hslot]
  by_cases hd : r.depth = depthFor total
  · rw [advance_leaf ho hd] at hadvance
    cases hflag : r.feed.nextFlag with
    | error e => simp [hflag] at hadvance
    | ok next =>
      obtain ⟨flag, feed⟩ := next
      rw [hflag] at hadvance
      obtain ⟨a, hs, hmatched⟩ := settled_of_take ho hadvance
      have hmove : Walk.Move total r.toWalk r'.toWalk := .given (.inl hd) hs
      refine ⟨hmove, ?_⟩
      intro hknown m hm
      rw [hmatched, List.mem_append] at hm
      rcases hm with hm | hm
      · have hslot := hknown m hm
        rw [hmove.slot?_eq ho (by simp [hslot]), hslot]
      · obtain rfl : m = (r.index, a) := by
          cases flag
          · cases hm
          · exact List.mem_singleton.mp hm
        rw [← hd, hs.here]
  · have hlt : r.depth < depthFor total := lt_of_le_of_ne ho.depth_le hd
    obtain ⟨slot, hslot⟩ := Option.isSome_iff_exists.mp (ho.leftSlot hlt)
    cases slot with
    | none =>
      rw [advance_unknown ho hlt hslot] at hadvance
      cases hflag : r.feed.nextFlag with
      | error e => simp [hflag] at hadvance
      | ok next =>
        obtain ⟨flag, feed⟩ := next
        rw [hflag] at hadvance
        cases flag with
        | true =>
          obtain rfl : { r with toWalk := r.left, feed } = r' :=
            Except.ok.inj (Option.some.inj hadvance)
          exact ⟨.left hslot, hkeep (.left hslot) rfl⟩
        | false =>
          obtain ⟨a, hs, hmatched⟩ := settled_of_take ho hadvance
          have hmove : Walk.Move total r.toWalk r'.toWalk := .given (.inr hslot) hs
          refine ⟨hmove, hkeep hmove ?_⟩
          simpa using hmatched
    | some l =>
      obtain ⟨w', hjoin, hmove⟩ := ho.exists_join hlt hslot
      rw [advance_join ho hlt hslot hjoin] at hadvance
      obtain rfl : { r with toWalk := w' } = r' := Except.ok.inj (Option.some.inj hadvance)
      exact ⟨hmove, hkeep hmove rfl⟩

/-- The invariant of the loop that reads a tree. -/
structure Reading (total : Nat) (J : Hash256 × Hash256 → Prop) (r : Reader) : Prop where
  shaped : r.rows.Shaped total
  open_or_done : r.toWalk.Open total ∨ r.toWalk.Done
  traced : r.rows.Traced J
  rooted : r.toWalk.Rooted
  matched : r.MatchesKnown total

theorem step_of_done (h : r.toWalk.Done) : r.step = some (.inr (r, .ok ())) := by
  obtain ⟨a, ha⟩ := h.root
  simp [step, show r.root = some (some a) from ha]

/-- The loop ends in time only when it is done. -/
theorem Reading.done (h : r.Reading total J) (hlast : r.step = some (.inr (r', .ok ()))) :
    r' = r ∧ r.toWalk.Done := by
  rcases h.open_or_done with ho | hdone
  · simp only [step, ho.root] at hlast
    cases hadv : r.advance with
    | none => simp [hadv] at hlast
    | some result => cases result <;> simp [hadv] at hlast
  · rw [step_of_done hdone] at hlast
    cases hlast
    exact ⟨rfl, hdone⟩

/-- **One step** keeps the invariant, if the pair that it joins has the property. -/
theorem Reading.step (h : r.Reading total J) (hJ : ∀ p, r.pair? = some p → J p)
    (hstep : r.step = some (.inl r')) : r'.Reading total J := by
  rcases h.open_or_done with ho | hdone
  · obtain ⟨hmove, hmatched⟩ := move_of_step ho hstep
    exact ⟨hmove.shaped ho, hmove.open_or_done ho, hmove.traced ho h.traced hJ,
      hmove.rooted h.rooted, hmatched h.matched⟩
  · rw [step_of_done hdone] at hstep
    cases hstep

/-- The reader of a tree of which nothing is known. -/
theorem reading_new (h : 0 < total) (flags : List Bool) (hashes : List Hash256) :
    Reading total J (Tree.reader ⟨total, Rows.empty total⟩ flags hashes) := by
  have hnot : ∀ d i, ¬ (Rows.empty total).Known d i := by
    rintro d i ⟨a, ha⟩
    exact Rows.slot?_empty_ne total d i a ha
  refine ⟨Rows.shaped_empty h, .inl (Tree.open_new h), ?_, ⟨?_, ?_, ?_⟩, ?_⟩
  · intro d i a ha
    exact absurd ⟨a, ha⟩ (hnot d i)
  · intro d i hk
    exact absurd hk (hnot _ _)
  · intro d i k hd
    have hzero : d + 1 + k = 0 := hd
    omega
  · intro d i hk
    exact absurd hk (hnot _ _)
  · intro m hm
    cases List.not_mem_nil hm

/-- **The whole loop** keeps it, with the pairs that the loop joins. -/
theorem reading_of_steps (h : 0 < total) {flags : List Bool} {hashes : List Hash256}
    (hsteps : Steps Reader.step (Tree.reader ⟨total, Rows.empty total⟩ flags hashes) r) :
    Reading total (Joins Reader.step Reader.toWalk
      (Tree.reader ⟨total, Rows.empty total⟩ flags hashes)) r := by
  refine hsteps.invariant (Reading total _) ?_ (reading_new h flags hashes)
  intro r₁ r₂ hto hreading hstep
  exact hreading.step (fun p hp => ⟨r₁, hto, hp⟩) hstep

end Reader

end BitcoinPeer.Merkle
