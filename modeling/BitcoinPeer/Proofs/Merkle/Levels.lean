import Mathlib.Algebra.Order.Floor.Div
import Mathlib.Data.Nat.Log
import Mathlib.GroupTheory.GroupAction.Ring
import BitcoinPeer.Merkle.Tree

/-!
# Levels of a Merkle tree

The reference for every walk over a tree: the level above a list of hashes joins them pairwise, a
last one without a partner with itself, and `reduce` goes up until one hash is left. `getElem?_level`
ties the hash at an index of a level to those below it, and `level_depthFor` says that the level
`depthFor` steps above the leaves holds just `reduce`.
-/

namespace BitcoinPeer.Merkle

open Digest (hashPair)

/-! ### Widths -/

theorem width_le (total height : Nat) : width total height ≤ total := by
  induction height with
  | zero => simp
  | succ height ih =>
    rw [width_succ]
    omega

theorem width_pos {total : Nat} (h : 0 < total) (height : Nat) : 0 < width total height := by
  induction height with
  | zero => simpa using h
  | succ height ih =>
    rw [width_succ]
    omega

theorem width_eq_ceilDiv (total height : Nat) : width total height = total ⌈/⌉ 2 ^ height := by
  rw [width, Nat.one_shiftLeft, Nat.ceilDiv_eq_add_pred_div]

theorem width_le_one_iff (total height : Nat) : width total height ≤ 1 ↔ total ≤ 2 ^ height := by
  have hpos : 0 < 2 ^ height := Nat.two_pow_pos height
  rw [width_eq_ceilDiv, ceilDiv_le_iff_le_smul hpos, smul_eq_mul, Nat.mul_one]

theorem depthFor_eq_clog (total : Nat) : depthFor total = Nat.clog 2 total := by
  rw [depthFor]
  split
  · rename_i h
    rw [Nat.clog_of_right_le_one h]
  · rename_i h
    rw [Nat.log2_eq_log_two]
    refine le_antisymm ?_ ?_
    · have hle := Nat.pow_log_le_self 2 (x := total - 1) (by omega)
      exact (Nat.lt_clog_iff_pow_lt Nat.one_lt_two).mpr (by omega)
    · have hlt := Nat.lt_pow_succ_log_self Nat.one_lt_two (total - 1)
      exact Nat.clog_le_of_le_pow (by omega)

/-- The row at the top has one slot. -/
theorem width_depthFor {total : Nat} (h : 0 < total) : width total (depthFor total) = 1 := by
  have hpos := width_pos h (depthFor total)
  have hle : width total (depthFor total) ≤ 1 := by
    rw [width_le_one_iff, depthFor_eq_clog]
    exact Nat.le_pow_clog Nat.one_lt_two total
  omega

theorem one_lt_width {total height : Nat} (h : height < depthFor total) : 1 < width total height := by
  rw [depthFor_eq_clog, Nat.lt_clog_iff_pow_lt Nat.one_lt_two] at h
  by_contra hle
  rw [not_lt, width_le_one_iff] at hle
  omega

/-! ### The level above a list of hashes -/

/-- Hashes joined pairwise, a last one without a partner with itself. -/
def parents : List Hash256 → List Hash256
  | [] => []
  | [a] => [hashPair a a]
  | a :: b :: rest => hashPair a b :: parents rest

theorem length_parents (hashes : List Hash256) :
    (parents hashes).length = (hashes.length + 1) / 2 := by
  induction hashes using parents.induct with
  | case1 => rfl
  | case2 a => simp [parents]
  | case3 a b rest ih =>
    simp only [parents, List.length_cons, ih]
    omega

theorem getElem?_parents (hashes : List Hash256) (i : Nat) :
    (parents hashes)[i]? =
      hashes[2 * i]?.map fun a => hashPair a (hashes[2 * i + 1]?.getD a) := by
  induction hashes using parents.induct generalizing i with
  | case1 => simp [parents]
  | case2 a => cases i with
    | zero => rfl
    | succ i => simp [parents, Nat.mul_add]
  | case3 a b rest ih => cases i with
    | zero => rfl
    | succ i => simpa [parents, Nat.mul_add] using ih i

/-- The hashes so many levels above the leaves. -/
def level (leaves : List Hash256) : Nat → List Hash256
  | 0 => leaves
  | height + 1 => parents (level leaves height)

@[simp] theorem length_level (leaves : List Hash256) (height : Nat) :
    (level leaves height).length = width leaves.length height := by
  induction height with
  | zero => simp [level]
  | succ height ih => rw [level, length_parents, ih, width_succ]

/-- A hash of a level joins its two children, or its left child with itself. -/
theorem getElem?_level (leaves : List Hash256) (height i : Nat) :
    (level leaves (height + 1))[i]? =
      (level leaves height)[2 * i]?.map fun a =>
        hashPair a ((level leaves height)[2 * i + 1]?.getD a) :=
  getElem?_parents (level leaves height) i

/-! ### The reduction -/

/-- The hash that is left when a list of hashes is joined level by level; zero for no hashes. -/
def reduce : List Hash256 → Hash256
  | [] => Hash256.zero
  | [a] => a
  | a :: b :: rest => reduce (parents (a :: b :: rest))
termination_by hashes => hashes.length
decreasing_by
  rw [length_parents]
  simp only [List.length_cons]
  omega

theorem reduce_parents {hashes : List Hash256} (h : 1 < hashes.length) :
    reduce (parents hashes) = reduce hashes := by
  match hashes, h with
  | a :: b :: rest, _ => rw [reduce.eq_3]

theorem reduce_level (leaves : List Hash256) {height : Nat} (h : height ≤ depthFor leaves.length) :
    reduce (level leaves height) = reduce leaves := by
  induction height with
  | zero => rfl
  | succ height ih =>
    have hlt : 1 < (level leaves height).length := by
      rw [length_level]
      exact one_lt_width h
    rw [level, reduce_parents hlt, ih (by omega)]

/-- The level at the top holds the reduction of the leaves and nothing else. -/
theorem level_depthFor {leaves : List Hash256} (h : leaves ≠ []) :
    level leaves (depthFor leaves.length) = [reduce leaves] := by
  have hlen : (level leaves (depthFor leaves.length)).length = 1 := by
    rw [length_level, width_depthFor (List.length_pos_iff.mpr h)]
  obtain ⟨a, ha⟩ := List.length_eq_one_iff.mp hlen
  have hreduce := reduce_level leaves le_rfl
  rw [ha, reduce] at hreduce
  rw [ha, hreduce]

end BitcoinPeer.Merkle
