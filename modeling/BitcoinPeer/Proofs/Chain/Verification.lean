import BitcoinPeer.Chain.MerkleBlock
import BitcoinPeer.Proofs.Merkle.Binding

/-!
# What a filtered block proves

A filtered block that verifies against the root of some transactions proves only hashes of these
transactions, each at its own position, unless two different pairs of hashes that were joined have
the same hash. The number of transactions that it claims is not checked against the root, though. If
it claims more than there are, but so few that the tree is no deeper, it may also prove a hash at a
position beyond the last transaction: the node that the tree over the transactions takes twice for
want of a right child is then given twice, and what is below it is proved a second time
(`not_lt_of_verify`). The hash is still that of a transaction (`verify_binds`).
-/

namespace BitcoinPeer.MerkleBlock

open Digest (hashPair)
open Merkle (Collision Matches Rows Tree depthFor parsePartial standIn unpackFlags)

variable {mb : MerkleBlock} {m : Matches}

/-! ### The steps of a verification -/

theorem checkBounds_eq_ok_iff : mb.checkBounds = .ok () ↔
    0 < mb.totalTransactions.toNat ∧
      mb.totalTransactions.toNat ≤ maxMerkleBlockTransactions.toNat ∧
      mb.hashes.length ≤ mb.totalTransactions.toNat ∧ mb.hashes.length ≤ mb.flags.length * 8 := by
  unfold checkBounds
  rw [Nat.pos_iff_ne_zero, ne_eq, ← UInt32.toNat_zero, UInt32.toNat_inj, ← UInt32.le_iff_toNat_le,
    ← UInt32.not_lt]
  split_ifs with hzero hmany hhashes hflags
  · simp [hzero]
  · simp [hmany]
  · simp [Nat.not_le.mpr hhashes]
  · simp [Nat.not_le.mpr hflags]
  · simp [hzero, hmany, Nat.not_lt.mp hhashes, Nat.not_lt.mp hflags]

/-- Within the bounds, the partial tree is read into a new tree. -/
theorem extractMatches_eq (h : mb.checkBounds = .ok ()) :
    Tree.new mb.totalTransactions.toNat =
        .ok ⟨mb.totalTransactions.toNat, Rows.empty mb.totalTransactions.toNat⟩ ∧
      mb.extractMatches =
        (Tree.populateFromBytes ⟨mb.totalTransactions.toNat, Rows.empty mb.totalTransactions.toNat⟩
          mb.flags mb.hashes).2 := by
  obtain ⟨hpos, -⟩ := checkBounds_eq_ok_iff.mp h
  have hnew : Tree.new mb.totalTransactions.toNat =
      .ok ⟨mb.totalTransactions.toNat, Rows.empty mb.totalTransactions.toNat⟩ := if_neg hpos.ne'
  refine ⟨hnew, ?_⟩
  rw [extractMatches, h, hnew]
  rfl

/-- It is read as it is parsed. -/
theorem extractMatches_eq_parsePartial (h : mb.checkBounds = .ok ()) :
    mb.extractMatches = parsePartial Merkle.isPadding mb.totalTransactions.toNat
      (unpackFlags mb.flags) mb.hashes := by
  obtain ⟨hpos, -⟩ := checkBounds_eq_ok_iff.mp h
  obtain ⟨-, t, -, ht⟩ :=
    Tree.exists_populated? hpos (unpackFlags mb.flags) mb.hashes Tree.paddingTail_eq
  rw [(extractMatches_eq h).2, Tree.populateFromBytes, ht, Option.get!_some]

theorem verify_eq_true_iff :
    mb.verify = true ↔ ∃ m, mb.extractMatches = .ok m ∧ m.root = mb.header.merkleRoot := by
  unfold verify
  cases mb.extractMatches <;> simp

theorem checkBounds_of_extractMatches (h : mb.extractMatches = .ok m) : mb.checkBounds = .ok () := by
  unfold extractMatches at h
  obtain ⟨⟨⟩, hbounds, -⟩ := Merkle.exists_of_bind_eq_ok h
  exact hbounds

/-! ### The hashes that are proved -/

/-- **What verifies**: every hash that is proved is that of the leaf standing in for its position, which
is the leaf at the position if there is one; and a hash is proved at a position beyond the last leaf
only below two equal siblings, unless two different pairs of hashes that were joined on the way have
the same hash. -/
theorem verify_binds (leaves : List Hash256) (mb : MerkleBlock) (hne : leaves ≠ [])
    (hroot : mb.header.merkleRoot = Merkle.root leaves)
    (hdepth : depthFor mb.totalTransactions.toNat = depthFor leaves.length)
    (h : mb.verify = true) :
    ∃ fresh t m, Tree.new mb.totalTransactions.toNat = .ok fresh ∧
      fresh.populateFromBytes mb.flags mb.hashes = (t, .ok m) ∧
      mb.extractMatches = .ok m ∧ m.root = Merkle.root leaves ∧
      ((∀ i a, (i, a) ∈ m.matched →
          leaves[standIn leaves.length (depthFor leaves.length) i]? = some a ∧
          (i < leaves.length → leaves[i]? = some a) ∧
          (leaves.length ≤ i → t.rows.Doubled leaves.length (depthFor leaves.length) i)) ∨
        Collision (Tree.JoinsEither leaves fresh (unpackFlags mb.flags) mb.hashes)) := by
  obtain ⟨m, hm, hfound⟩ := verify_eq_true_iff.mp h
  rw [hroot] at hfound
  have hbounds := checkBounds_of_extractMatches hm
  obtain ⟨hpos, -⟩ := checkBounds_eq_ok_iff.mp hbounds
  obtain ⟨hnew, hextract⟩ := extractMatches_eq hbounds
  obtain ⟨t, ht⟩ : ∃ t, Tree.populateFromBytes
      ⟨mb.totalTransactions.toNat, Rows.empty mb.totalTransactions.toNat⟩ mb.flags mb.hashes =
        (t, .ok m) :=
    ⟨_, Prod.ext rfl (hextract.symm.trans hm)⟩
  have hpopulated := Tree.populated?_paddingTail hpos mb.flags mb.hashes
  rw [ht] at hpopulated
  have hfilled := Tree.filled_of_populated? hpos hpopulated
  refine ⟨_, t, m, hnew, ht, hm, hfound, ?_⟩
  rw [or_iff_not_imp_right]
  intro hno i a hmem
  have hslot := hfilled.matched i a hmem
  rw [hdepth] at hslot
  obtain ⟨hstands, hbeyond⟩ := hfilled.standsIn hne hfound hno (Nat.add_zero _) hslot
  rw [Merkle.level] at hstands
  rw [Merkle.width_zero] at hbeyond
  refine ⟨hstands, ?_, hbeyond⟩
  intro hi
  rwa [Merkle.standIn_of_lt (List.length_pos_iff.mpr hne) (Nat.add_zero _)
    (by rwa [Merkle.width_zero])] at hstands

/-! ### A position that does not exist -/

/-- A filtered block over three transactions that claims four of them, and proves the third one at the
fourth position. -/
def overstated (a b c : Hash256) : MerkleBlock where
  header := { merkleRoot := hashPair (hashPair a b) (hashPair c c) }
  totalTransactions := 4
  hashes := [hashPair a b, c, c]
  flags := [0x15]

variable (a b c : Hash256)

theorem unpackFlags_overstated : unpackFlags (overstated a b c).flags =
    [true, false, true, false, true, false, false, false] := by
  show unpackFlags [0x15] = _
  decide

theorem extractMatches_overstated :
    (overstated a b c).extractMatches =
      .ok ⟨hashPair (hashPair a b) (hashPair c c), [(3, c)]⟩ := by
  rw [extractMatches_eq_parsePartial rfl, unpackFlags_overstated,
    show (overstated a b c).totalTransactions.toNat = 4 from rfl]
  rfl

theorem verify_overstated : (overstated a b c).verify = true :=
  verify_eq_true_iff.mpr ⟨_, extractMatches_overstated a b c, rfl⟩

theorem root_overstated : (overstated a b c).header.merkleRoot = Merkle.root [a, b, c] := by
  rw [Merkle.root_eq_reduce (by simp)]
  simp [overstated, Merkle.reduce, Merkle.parents]

/-- A hash of which the number is the first byte. -/
def sample (n : UInt8) : Hash256 :=
  ⟨⟨n :: List.replicate 31 0, rfl⟩⟩

/-- Three transactions, of which the last one is proved at the fourth position. -/
theorem verify_binds_overstated :
    [sample 0, sample 1, sample 2] ≠ [] ∧
      (overstated (sample 0) (sample 1) (sample 2)).header.merkleRoot =
        Merkle.root [sample 0, sample 1, sample 2] ∧
      depthFor (overstated (sample 0) (sample 1) (sample 2)).totalTransactions.toNat =
        depthFor [sample 0, sample 1, sample 2].length ∧
      (overstated (sample 0) (sample 1) (sample 2)).verify = true ∧
      ∃ fresh t m, Tree.new 4 = .ok fresh ∧
        fresh.populateFromBytes [0x15] [hashPair (sample 0) (sample 1), sample 2, sample 2] =
          (t, .ok m) ∧
        m.matched = [(3, sample 2)] ∧
        (t.rows.Doubled 3 2 3 ∨
          Collision (Tree.JoinsEither [sample 0, sample 1, sample 2] fresh (unpackFlags [0x15])
            [hashPair (sample 0) (sample 1), sample 2, sample 2])) := by
  have hroot := root_overstated (sample 0) (sample 1) (sample 2)
  have hverify := verify_overstated (sample 0) (sample 1) (sample 2)
  refine ⟨by simp, hroot, by decide, hverify, ?_⟩
  obtain ⟨fresh, t, m, hnew, hpopulate, hextract, -, hmatched⟩ :=
    verify_binds [sample 0, sample 1, sample 2] (overstated (sample 0) (sample 1) (sample 2))
      (by simp) hroot (by decide) hverify
  rw [extractMatches_overstated] at hextract
  obtain rfl := Except.ok.inj hextract
  refine ⟨fresh, t, _, hnew, hpopulate, rfl, ?_⟩
  rcases hmatched with hmatched | hcollision
  · exact .inl ((hmatched 3 (sample 2) (by simp)).2.2 (by simp))
  · exact .inr hcollision

theorem joinsComputing_three {p : Hash256 × Hash256} (h : Tree.JoinsComputing [a, b, c] p) :
    p ∈ [(a, b), (c, c), (hashPair a b, hashPair c c)] := by
  obtain ⟨height, i, l, hheight, hl, rfl⟩ := (Merkle.Tree.joinsComputing_iff (by simp)).mp h
  rw [show [a, b, c].length = 3 from rfl, show depthFor 3 = 2 from rfl] at hheight
  obtain rfl | rfl : height = 0 ∨ height = 1 := by omega
  · obtain rfl | rfl | hi : i = 0 ∨ i = 1 ∨ 3 ≤ 2 * i := by omega
    · obtain rfl := Option.some.inj hl
      simp [Merkle.level]
    · obtain rfl := Option.some.inj hl
      simp [Merkle.level]
    · rw [Merkle.level, List.getElem?_eq_none hi] at hl
      cases hl
  · obtain rfl | hi : i = 0 ∨ 2 ≤ 2 * i := by omega
    · obtain rfl := Option.some.inj hl
      simp [Merkle.level, Merkle.parents]
    · rw [Merkle.level, Merkle.level, List.getElem?_eq_none hi] at hl
      cases hl

/-- Nothing collides while the three transactions are proved as four. -/
theorem not_collision_overstated :
    ¬ Collision (Tree.JoinsEither [sample 0, sample 1, sample 2] ⟨4, Rows.empty 4⟩
      (unpackFlags (overstated (sample 0) (sample 1) (sample 2)).flags)
      (overstated (sample 0) (sample 1) (sample 2)).hashes) := by
  have hjoined : Merkle.joined? Merkle.Reader.step Merkle.Reader.toWalk 20
      (Tree.reader ⟨4, Rows.empty 4⟩
        (unpackFlags (overstated (sample 0) (sample 1) (sample 2)).flags)
        (overstated (sample 0) (sample 1) (sample 2)).hashes) =
      some [(sample 2, sample 2),
        (hashPair (sample 0) (sample 1), hashPair (sample 2) (sample 2))] := by
    decide +kernel
  have hdistinct : ([(sample 0, sample 1), (sample 2, sample 2),
      (hashPair (sample 0) (sample 1), hashPair (sample 2) (sample 2))].map
        fun p => hashPair p.1 p.2).Nodup := by
    decide +kernel
  refine Merkle.not_collision_of_nodup hdistinct ?_
  rintro p (hp | hp)
  · exact joinsComputing_three _ _ _ hp
  · exact List.mem_cons_of_mem _ ((Merkle.joins_iff_mem hjoined).mp hp)

/-- A filtered block may prove a position beyond the last transaction, with nothing colliding. -/
theorem not_lt_of_verify :
    ¬ ∀ (leaves : List Hash256) (mb : MerkleBlock), leaves.Nodup →
      mb.header.merkleRoot = Merkle.root leaves →
      leaves.length < mb.totalTransactions.toNat →
      depthFor mb.totalTransactions.toNat = depthFor leaves.length → mb.verify = true →
      ∃ fresh m, Tree.new mb.totalTransactions.toNat = .ok fresh ∧ mb.extractMatches = .ok m ∧
        ((∀ i a, (i, a) ∈ m.matched → i < leaves.length) ∨
          Collision (Tree.JoinsEither leaves fresh (unpackFlags mb.flags) mb.hashes)) := by
  intro h
  obtain ⟨fresh, m, hnew, hextract, hmatched⟩ :=
    h [sample 0, sample 1, sample 2] (overstated (sample 0) (sample 1) (sample 2)) (by decide)
      (root_overstated _ _ _) (by decide) (by decide) (verify_overstated _ _ _)
  rw [extractMatches_overstated] at hextract
  obtain rfl := Except.ok.inj hextract
  obtain rfl : ⟨4, Rows.empty 4⟩ = fresh := Except.ok.inj hnew
  rcases hmatched with hmatched | hcollision
  · exact absurd (hmatched 3 (sample 2) (by simp)) (by simp)
  · exact not_collision_overstated hcollision

end BitcoinPeer.MerkleBlock
