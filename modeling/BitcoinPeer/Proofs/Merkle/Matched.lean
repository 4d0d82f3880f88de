import BitcoinPeer.Proofs.Merkle.Binding
import BitcoinPeer.Proofs.Merkle.Branches

/-!
# Branches of matched leaves

A tree that was filled from a partial tree has empty slots, but none on the way from a known slot to
the root: its parent is known, and so is the pair of which the parent is the hash. So the entry for
one step up joins the hash of the slot to that of its parent (`Rows.Grounded.exists_entry`), and by
induction on the depth the entries lead from every known slot to the root, from the matched leaves in
particular.
-/

namespace BitcoinPeer.Merkle

open Digest (hashPair)

variable {total d index : Nat} {rows : Rows} {J : Hash256 × Hash256 → Prop} {a : Hash256}

/-- The entry for a step up to a node whose children are known. -/
theorem Walk.Inside.entry_of_pair? {w : Walk} {p : Hash256 × Hash256} (h : w.Inside total)
    (hd : w.depth < depthFor total) (hp : w.rows.pair? w.depth w.index = some p) (fromLeft : Bool) :
    w.entry fromLeft =
      some (.ok (if w.rightSlot.isSome && fromLeft then ⟨p.2, .right⟩ else ⟨p.1, .left⟩)) := by
  have hright := h.hasRight hd
  obtain ⟨hl, ⟨hr, -⟩ | hr⟩ := Rows.pair?_eq_some_iff.mp hp
  · have hleft : w.leftSlot = some (some p.1) := hl
    have hnone : w.rightSlot = none := hr
    simp [Walk.entry, hleft, hright, hnone, BranchEntry.ofSlot]
  · have hleft : w.leftSlot = some (some p.1) := hl
    have hsome : w.rightSlot = some (some p.2) := hr
    cases fromLeft <;> simp [Walk.entry, hleft, hright, hsome, BranchEntry.ofSlot]

namespace Rows.Grounded

/-- **One step up**: the entry for the step from a known slot joins its hash to that of the parent. -/
theorem exists_entry (h : rows.Grounded total J) (ha : rows.slot? (d + 1) index = some (some a)) :
    ∃ e, (Walk.mk (depthFor total) rows d (index / 2)).entry (index % 2 == 0) = some (.ok e) ∧
      rows.slot? d (index / 2) = some (some (e.join a)) := by
  obtain ⟨b, hb⟩ := h.above ⟨a, ha⟩
  obtain ⟨p, -, hpair, rfl⟩ := h.joined hb ⟨a, ha⟩
  have hd : d < depthFor total := h.shaped.depth_le (Option.isSome_of_eq_some ha)
  have hinside : (Walk.mk (depthFor total) rows d (index / 2)).Inside total := ⟨h.shaped, rfl⟩
  refine ⟨_, hinside.entry_of_pair? hd hpair _, hb.trans (congrArg (some ∘ some) ?_)⟩
  have hright := (Rows.pair?_eq_some_iff.mp hpair).2
  obtain ⟨heven, rfl⟩ | ⟨hodd, rfl⟩ := slot?_of_pair? hpair rfl ha
  · have hparity : (index % 2 == 0) = true := by simpa using (by omega : index % 2 = 0)
    obtain ⟨hnone, htwice⟩ | hsome := hright
    · simp [Walk.rightSlot, hnone, hparity, htwice, BranchEntry.join]
    · simp [Walk.rightSlot, hsome, hparity, BranchEntry.join]
  · have hparity : (index % 2 == 0) = false := by simpa using (by omega : index % 2 = 1)
    simp [hparity, BranchEntry.join]

/-- **All the way up**: from every known slot the entries lead to the root. -/
theorem exists_entries (h : rows.Grounded total J) (ha : rows.slot? d index = some (some a)) :
    ∃ branch, Walk.entries (depthFor total) rows d index = some (.ok branch) ∧ branch.length = d ∧
      rows.slot? 0 0 = some (some (branchRoot a branch)) := by
  induction d generalizing index a with
  | zero =>
    obtain rfl := h.shaped.index_eq_zero (Option.isSome_of_eq_some ha)
    exact ⟨[], by rw [Walk.entries], rfl, ha⟩
  | succ d ih =>
    obtain ⟨e, hentry, hparent⟩ := h.exists_entry ha
    obtain ⟨branch, hbranch, hlength, hroot⟩ := ih hparent
    refine ⟨e :: branch, ?_, by rw [List.length_cons, hlength], hroot⟩
    simp [Walk.entries, hentry, hbranch, Except.map]

end Rows.Grounded

namespace Tree

variable {t t' : Tree} {m : Matches} {i : Nat} {flags : List Bool} {hashes : List Hash256}
  {tail : List Bool → Except ProofError Unit} {outcome : Except ProofError Matches}

/-- Filling a tree adds no leaves. -/
theorem total_of_populated? (h : populated? tail t flags hashes = some (t', outcome)) :
    t'.total = t.total := by
  obtain ⟨_, -, h⟩ := Option.bind_eq_some_iff.mp h
  cases h
  rfl

/-- The branch of a matched leaf. -/
theorem exists_branch_of_populated? (h : 0 < total)
    (hpop : populated? tail ⟨total, Rows.empty total⟩ flags hashes = some (t, .ok m))
    (hmem : (i, a) ∈ m.matched) :
    ∃ branch, t.branch? i = some (.ok branch) ∧ t.branch i = .ok branch ∧
      branch.length = t.maxDepth ∧ branchRoot a branch = m.root := by
  have hfilled := filled_of_populated? h hpop
  have htotal : t.total = total := total_of_populated? hpop
  have hleaf := hfilled.matched i a hmem
  have hlt := (hfilled.grounded.shaped.isSome_iff (Nat.add_zero _) i).mp
    (Option.isSome_of_eq_some hleaf)
  rw [width_zero] at hlt
  obtain ⟨branch, hentries, hlength, hroot⟩ := hfilled.grounded.exists_entries hleaf
  have hbranch : t.branch? i = some (.ok branch) := by
    rw [branch?, if_neg (by omega), maxDepth, htotal, hentries]
  refine ⟨branch, hbranch, branch_eq hbranch, ?_, ?_⟩
  · rw [hlength, maxDepth, htotal]
  · rw [hfilled.root] at hroot
    exact (Option.some.inj (Option.some.inj hroot)).symm

end Tree

/-- **Every match can be proved**: when a new tree was filled successfully, with flags or with packed
flags, every matched leaf has a branch in it, with an entry for each level, that leads from the hash of
the match to the root that was read. -/
theorem branch_of_matched (total : Nat) (h : 0 < total) :
    ∃ fresh, Tree.new total = .ok fresh ∧ ∀ hashes t m,
      ((∃ flags, fresh.populate flags hashes = (t, .ok m)) ∨
        ∃ bytes, fresh.populateFromBytes bytes hashes = (t, .ok m)) →
      t.total = total ∧ ∀ i a, (i, a) ∈ m.matched →
        ∃ branch, t.branch? i = some (.ok branch) ∧ t.branch i = .ok branch ∧
          branch.length = t.maxDepth ∧ branchRoot a branch = m.root := by
  refine ⟨_, if_neg h.ne', ?_⟩
  rintro hashes t m (⟨flags, hpopulate⟩ | ⟨bytes, hpopulate⟩)
  · have hpop := Tree.populated?_noTail h flags hashes
    rw [hpopulate] at hpop
    exact ⟨Tree.total_of_populated? hpop, fun _ _ => Tree.exists_branch_of_populated? h hpop⟩
  · have hpop := Tree.populated?_paddingTail h bytes hashes
    rw [hpopulate] at hpop
    exact ⟨Tree.total_of_populated? hpop, fun _ _ => Tree.exists_branch_of_populated? h hpop⟩

/-- Three leaves, all of them visited though only the last one is matched, which has no sibling. -/
theorem branch_of_matched_three :
    0 < 3 ∧ ∃ fresh t m branch, Tree.new 3 = .ok fresh ∧
      fresh.populateFromBytes [0x33]
          [Hash256.zero, Hash256.zero, hashPair Hash256.zero Hash256.zero] = (t, .ok m) ∧
        m.matched = [(2, hashPair Hash256.zero Hash256.zero)] ∧ t.branch 2 = .ok branch ∧
        branch.length = 2 ∧ branchRoot (hashPair Hash256.zero Hash256.zero) branch = m.root := by
  obtain ⟨fresh, hnew, hbranch⟩ := branch_of_matched 3 (by decide)
  obtain rfl := Except.ok.inj hnew
  obtain ⟨-, t, -, ht⟩ := Tree.exists_populated? (show 0 < 3 by decide) (unpackFlags [0x33])
    [Hash256.zero, Hash256.zero, hashPair Hash256.zero Hash256.zero] Tree.paddingTail_eq
  have hpopulate : Tree.populateFromBytes ⟨3, Rows.empty 3⟩ [0x33]
      [Hash256.zero, Hash256.zero, hashPair Hash256.zero Hash256.zero] =
        (t, .ok ⟨hashPair (hashPair Hash256.zero Hash256.zero)
          (hashPair (hashPair Hash256.zero Hash256.zero) (hashPair Hash256.zero Hash256.zero)),
          [(2, hashPair Hash256.zero Hash256.zero)]⟩) := by
    rw [Tree.populateFromBytes, ht, Option.get!_some]
    rfl
  obtain ⟨htotal, hmatched⟩ := hbranch _ t _ (.inr ⟨_, hpopulate⟩)
  obtain ⟨branch, -, hbranch, hlength, hroot⟩ := hmatched 2 _ List.mem_cons_self
  refine ⟨by decide, _, t, _, branch, rfl, hpopulate, rfl, hbranch, ?_, hroot⟩
  rw [hlength, Tree.maxDepth, htotal]
  rfl

end BitcoinPeer.Merkle
