import BitcoinPeer.Proofs.Chain.Verification
import BitcoinPeer.Proofs.Merkle.Spending

/-!
# The bounds of a filtered block refuse no partial tree

The numbers of a filtered block are checked before its tree is built. If the number of transactions is
allowed at all, the checks refuse nothing that the tree could be filled from: what fills a tree uses no
more hashes than there are leaves and no fewer flags than hashes (`Tree.exists_spent`), and those are
the bounds that are checked.
-/

namespace BitcoinPeer.MerkleBlock

open Digest (hashPair)
open Merkle (Ends Matches Reader Rows Tree length_unpackFlags unpackFlags)

variable {mb : MerkleBlock} {found : Matches} {total : Nat} {flags : List Bool} {bytes : Bytes}
  {hashes : List Hash256}

/-- What exact flags fill a tree from keeps the bounds. -/
theorem lengths_of_populate (hpos : 0 < total)
    (h : (Tree.populate ⟨total, Rows.empty total⟩ flags hashes).2 = .ok found) :
    hashes.length ≤ total ∧ hashes.length ≤ flags.length := by
  obtain ⟨-, t, -, ht⟩ := Tree.exists_populated? hpos flags hashes Tree.noTail_eq
  rw [Tree.populate, ht, Option.get!_some] at h
  rw [show Merkle.parsePartial List.isEmpty total flags hashes = .ok found from h] at ht
  obtain ⟨r, used, -, -, -, hflags, htotal, hused⟩ := Tree.exists_spent hpos ht
  refine ⟨htotal, ?_⟩
  rw [hflags, List.length_append]
  omega

/-- What packed flags fill a tree from: where the walk ends, and what it has used until then. -/
theorem exists_spent_of_populateFromBytes (hpos : 0 < total)
    (h : (Tree.populateFromBytes ⟨total, Rows.empty total⟩ bytes hashes).2 = .ok found) :
    ∃ r used, Ends Reader.step (Tree.reader ⟨total, Rows.empty total⟩ (unpackFlags bytes) hashes)
        (r, .ok ()) ∧ r.feed.hashes = [] ∧ unpackFlags bytes = used ++ r.feed.flags ∧
      hashes.length ≤ total ∧ hashes.length ≤ used.length := by
  obtain ⟨-, t, -, ht⟩ := Tree.exists_populated? hpos (unpackFlags bytes) hashes Tree.paddingTail_eq
  rw [Tree.populateFromBytes, ht, Option.get!_some] at h
  rw [show Merkle.parsePartial Merkle.isPadding total (unpackFlags bytes) hashes = .ok found from h]
    at ht
  obtain ⟨r, used, hend, hhashes, -, hflags, hlengths⟩ := Tree.exists_spent hpos ht
  exact ⟨r, used, hend, hhashes, hflags, hlengths⟩

/-- What fills the tree keeps the bounds that are checked before. -/
theorem checkBounds_of_populateFromBytes (hpos : 0 < mb.totalTransactions.toNat)
    (hmax : mb.totalTransactions.toNat ≤ maxMerkleBlockTransactions.toNat)
    (h : (Tree.populateFromBytes
      ⟨mb.totalTransactions.toNat, Rows.empty mb.totalTransactions.toNat⟩ mb.flags mb.hashes).2 =
        .ok found) :
    mb.checkBounds = .ok () := by
  obtain ⟨r, used, -, -, hflags, htotal, hused⟩ := exists_spent_of_populateFromBytes hpos h
  refine checkBounds_eq_ok_iff.mpr ⟨hpos, hmax, htotal, ?_⟩
  have hlength := congrArg List.length hflags
  rw [length_unpackFlags, List.length_append] at hlength
  omega

/-- **Early checks**: if the number of transactions is allowed, what is extracted is exactly what
filling a new tree finds; and whatever fills a tree of so many leaves uses at most as many hashes as
there are leaves, and at least as many flags as hashes. -/
theorem extractMatches_iff_populated (mb : MerkleBlock) (hpos : 0 < mb.totalTransactions)
    (hmax : mb.totalTransactions ≤ maxMerkleBlockTransactions) :
    ∃ fresh, Tree.new mb.totalTransactions.toNat = .ok fresh ∧
      (∀ found, mb.extractMatches = .ok found ↔
        (fresh.populateFromBytes mb.flags mb.hashes).2 = .ok found) ∧
      (∀ bytes hashes found, (fresh.populateFromBytes bytes hashes).2 = .ok found →
        ∃ r used, Ends Reader.step (fresh.reader (unpackFlags bytes) hashes) (r, .ok ()) ∧
          r.feed.hashes = [] ∧ unpackFlags bytes = used ++ r.feed.flags ∧
          hashes.length ≤ mb.totalTransactions.toNat ∧ hashes.length ≤ used.length) ∧
      ∀ flags hashes found, (fresh.populate flags hashes).2 = .ok found →
        hashes.length ≤ mb.totalTransactions.toNat ∧ hashes.length ≤ flags.length := by
  have hpos' : 0 < mb.totalTransactions.toNat := UInt32.lt_iff_toNat_lt.mp hpos
  have hmax' := UInt32.le_iff_toNat_le.mp hmax
  refine ⟨_, if_neg hpos'.ne', fun found => ⟨fun h => ?_, fun h => ?_⟩,
    fun bytes hashes found h => ?_, fun flags hashes found h => ?_⟩
  · rwa [← (extractMatches_eq (checkBounds_of_extractMatches h)).2]
  · rwa [(extractMatches_eq (checkBounds_of_populateFromBytes hpos' hmax' h)).2]
  · exact exists_spent_of_populateFromBytes hpos' h
  · exact lengths_of_populate hpos' h

/-- Three transactions, of which the second one is matched: six flags for three hashes, in one byte. -/
def secondOfThree : MerkleBlock where
  totalTransactions := 3
  hashes := [sample 0, sample 1, sample 2]
  flags := [0x1b]

theorem extractMatches_secondOfThree :
    secondOfThree.extractMatches =
      .ok ⟨hashPair (hashPair (sample 0) (sample 1)) (hashPair (sample 2) (sample 2)),
        [(1, sample 1)]⟩ := by
  have hflags : unpackFlags secondOfThree.flags =
      [true, true, false, true, true, false, false, false] := by decide
  rw [extractMatches_eq_parsePartial rfl, hflags,
    show secondOfThree.totalTransactions.toNat = 3 from rfl]
  rfl

/-- It is extracted, so a new tree can be filled from it, which takes no more than it carries. -/
theorem extractMatches_iff_populated_three :
    0 < secondOfThree.totalTransactions ∧
      secondOfThree.totalTransactions ≤ maxMerkleBlockTransactions ∧
      ∃ fresh, Tree.new 3 = .ok fresh ∧
        (fresh.populateFromBytes secondOfThree.flags secondOfThree.hashes).2 =
          .ok ⟨hashPair (hashPair (sample 0) (sample 1)) (hashPair (sample 2) (sample 2)),
            [(1, sample 1)]⟩ ∧
        ∃ r used, Ends Reader.step
            (fresh.reader (unpackFlags secondOfThree.flags) secondOfThree.hashes) (r, .ok ()) ∧
          r.feed.hashes = [] ∧ unpackFlags secondOfThree.flags = used ++ r.feed.flags ∧
          3 ≤ used.length := by
  have hpos : 0 < secondOfThree.totalTransactions := by decide
  have hmax : secondOfThree.totalTransactions ≤ maxMerkleBlockTransactions := by decide
  obtain ⟨fresh, hnew, hiff, hspent, -⟩ := extractMatches_iff_populated secondOfThree hpos hmax
  have hfilled := (hiff _).mp extractMatches_secondOfThree
  obtain ⟨r, used, hend, hhashes, hflags, -, hused⟩ := hspent _ _ _ hfilled
  exact ⟨hpos, hmax, fresh, hnew, hfilled, r, used, hend, hhashes, hflags, hused⟩

end BitcoinPeer.MerkleBlock
