import BitcoinPeer.Hash256

/-!
# Rows of slots

A Merkle tree keeps its hashes in rows of slots, the root's row first and the leaves' row last. The
slots below the one at `(depth, index)` are those at `(depth + 1, 2 * index)` and, if there is such a
slot, `(depth + 1, 2 * index + 1)`.
-/

namespace BitcoinPeer.Merkle

/-- The number of levels above the leaves in a tree of so many leaves. -/
def depthFor (total : Nat) : Nat :=
  if total ≤ 1 then 0 else Nat.log2 (total - 1) + 1

/-- The number of nodes so many levels above the leaves of a tree. -/
def width (total height : Nat) : Nat :=
  (total + 1 <<< height - 1) / 1 <<< height

@[simp] theorem width_zero (total : Nat) : width total 0 = total := by
  simp [width]

/-- Two nodes share a parent, and a last one without a partner has its own. -/
theorem width_succ (total height : Nat) : width total (height + 1) = (width total height + 1) / 2 := by
  have hpos : 0 < 2 ^ height := Nat.two_pow_pos height
  have hsplit : total + 2 ^ (height + 1) - 1 = (total + 2 ^ height - 1) + 2 ^ height := by
    rw [Nat.pow_succ]
    omega
  rw [width, width, Nat.one_shiftLeft, Nat.one_shiftLeft, hsplit, Nat.pow_succ,
    ← Nat.div_div_eq_div_mul, Nat.add_div_right _ hpos]

abbrev Rows := Array (Array (Option Hash256))

namespace Rows

/-- The rows of a tree of which nothing is known. -/
def empty (total : Nat) : Rows :=
  (Array.range (depthFor total + 1)).map fun depth =>
    Array.replicate (width total (depthFor total - depth)) none

/-- The number of slots in a row; nothing for a depth that has no row. -/
def size? (rows : Rows) (depth : Nat) : Option Nat :=
  rows[depth]?.map Array.size

/-- What a slot holds; nothing for a slot that does not exist. -/
def slot? (rows : Rows) (depth index : Nat) : Option (Option Hash256) :=
  rows[depth]?.bind fun row => row[index]?

/-- Writes a hash into a slot, which has to exist. -/
def fill (rows : Rows) (depth index : Nat) (a : Hash256) : Option Rows :=
  if (rows.slot? depth index).isSome then
    some (rows.modify depth (·.setIfInBounds index (some a)))
  else none

/-- Replaces a row, which has to exist. -/
def replaceRow (rows : Rows) (depth : Nat) (row : Array (Option Hash256)) : Option Rows :=
  if depth < rows.size then some (rows.setIfInBounds depth row) else none

variable {rows : Rows} {depth index n : Nat}

theorem slot?_isSome_iff (h : rows.size? depth = some n) :
    (rows.slot? depth index).isSome ↔ index < n := by
  obtain ⟨row, hrow, rfl⟩ := Option.map_eq_some_iff.mp h
  simp [slot?, hrow]

/-- A slot that exists can be filled, and that changes no other slot. -/
theorem exists_fill (h : (rows.slot? depth index).isSome) (a : Hash256) :
    ∃ rows', rows.fill depth index a = some rows' ∧ rows'.size = rows.size ∧
      (∀ d, rows'.size? d = rows.size? d) ∧
      ∀ d i, rows'.slot? d i = if d = depth ∧ i = index then some (some a) else rows.slot? d i := by
  refine ⟨_, if_pos h, Array.size_modify, fun d => ?_, fun d i => ?_⟩
  · by_cases hd : depth = d
    · simp [size?, Array.getElem?_modify, hd, Function.comp_def]
    · simp [size?, Array.getElem?_modify, hd]
  · by_cases hd : depth = d
    · subst hd
      cases hrow : rows[depth]? with
      | none => simp [slot?, hrow] at h
      | some row =>
        have hlt : index < row.size := by simpa [slot?, hrow] using h
        by_cases hi : index = i
        · subst hi
          simp [slot?, Array.getElem?_modify, hrow, hlt]
        · simp [slot?, Array.getElem?_modify, hrow, hi, Ne.symm hi]
    · simp [slot?, Array.getElem?_modify, hd, Ne.symm hd]

/-- A row that exists can be replaced, and that changes no other row. -/
theorem exists_replaceRow (h : depth < rows.size) (row : Array (Option Hash256)) :
    ∃ rows', rows.replaceRow depth row = some rows' ∧ rows'.size = rows.size ∧
      ∀ d, rows'[d]? = if d = depth then some row else rows[d]? := by
  refine ⟨_, if_pos h, Array.size_setIfInBounds, fun d => ?_⟩
  by_cases hd : depth = d
  · simp [hd ▸ h, hd]
  · simp [hd, Ne.symm hd]

theorem size_empty (total : Nat) : (empty total).size = depthFor total + 1 := by
  simp [empty]

theorem getElem?_empty {total depth height : Nat} (h : depth + height = depthFor total) :
    (empty total)[depth]? = some (Array.replicate (width total height) none) := by
  have hlt : depth < depthFor total + 1 := by omega
  have hheight : depthFor total - depth = height := by omega
  simp [empty, hlt, hheight]

end Rows

end BitcoinPeer.Merkle
