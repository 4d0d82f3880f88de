import BitcoinPeer.Chain.Validity
import BitcoinPeer.Proofs.Chain.Encoding
import BitcoinPeer.Proofs.Chain.Verification
import BitcoinPeer.Proofs.Merkle.Sizes

/-!
# Filtering a block

The filtered block of a block with at most as many transactions as one may claim comes back from its
encoding, and proves just the wanted transactions with the block's own Merkle root
(`ofBlock_proves`). The partial tree is read back by `Full.exists_partialTree`; what is left are the
bounds that are checked before it is read, which follow from the sizes of partial trees.

A block with more transactions is filtered all the same, and the result is refused
(`extractMatches_of_large`).
-/

namespace BitcoinPeer

open Merkle (ProofError Tree isPadding markedLeaves packFlags parsePartial)

/-- The remembered hash, if there is one, is that of the contents. -/
def Hashed.UpToDate {α : Type} [Codec α] (x : Hashed α) : Prop :=
  ∀ h, x.remembered = some h → h = identity x.contents

theorem Hashed.UpToDate.hash_eq {α : Type} [Codec α] {x : Hashed α} (h : x.UpToDate) :
    x.hash.1 = identity x.contents := by
  unfold hash
  cases hx : x.remembered with
  | none => rfl
  | some a => exact h a hx

theorem HashedBlock.txHashes_eq {b : HashedBlock} (h : ∀ t ∈ b.txs, t.UpToDate) :
    b.txHashes.1 = b.txs.map fun t => identity t.contents := by
  refine List.map_congr_left ?_
  intro t ht
  exact (h t ht).hash_eq

/-! ### The matches -/

/-- The wanted hashes in a list, each with its position. -/
def positioned (wanted hashes : List Hash256) : List (Nat × Hash256) :=
  (hashes.zipIdx.filter fun p => wanted.contains p.1).map Prod.swap

theorem markedLeaves_eq (wanted leaves : List Hash256) :
    markedLeaves leaves (leaves.map wanted.contains) = positioned wanted leaves := by
  have hrange : (List.range leaves.length).map (fun i : Nat => leaves[i]?.map (·, i)) =
      leaves.zipIdx.map some := by
    refine List.ext_getElem? ?_
    intro i
    by_cases hi : i < leaves.length <;> simp [hi]
  have hpick : ∀ i : Nat, (if (leaves.map wanted.contains)[i]?.getD false then leaves[i]?.map (i, ·)
      else none) = (leaves[i]?.map (·, i)).bind
        fun p => if wanted.contains p.1 then some p.swap else none := by
    intro i
    rw [List.getElem?_map]
    cases leaves[i]? with
    | none => rfl
    | some a => cases wanted.contains a <;> simp
  calc markedLeaves leaves (leaves.map wanted.contains)
    _ = ((List.range leaves.length).map fun i : Nat => leaves[i]?.map (·, i)).filterMap fun o =>
        o.bind fun p => if wanted.contains p.1 then some p.swap else none := by
      rw [List.filterMap_map, markedLeaves]
      exact congrArg (List.filterMap · _) (funext hpick)
    _ = leaves.zipIdx.filterMap fun p => if wanted.contains p.1 then some p.swap else none := by
      rw [hrange, List.filterMap_map]
      rfl
    _ = positioned wanted leaves := by
      rw [positioned, ← List.filterMap_eq_map, List.filterMap_filter]
      rfl

namespace MerkleBlock

variable {b : HashedBlock} {wanted : List Hash256} {mb : MerkleBlock}

/-! ### What is built -/

/-- What `ofBlock` makes of the tree over the transactions. -/
theorem ofBlock_fst (b : HashedBlock) (wanted : List Hash256) :
    (ofBlock b wanted).1 = (Tree.ofLeaves b.txHashes.1).map fun t =>
      { header := b.header.contents
        totalTransactions := UInt32.ofNat b.txHashes.1.length
        hashes := (t.partialTree (b.txHashes.1.map wanted.contains)).2
        flags := packFlags (t.partialTree (b.txHashes.1.map wanted.contains)).1 } := by
  show (Tree.ofLeaves b.txHashes.1).bind _ = _
  cases Tree.ofLeaves b.txHashes.1 <;> rfl

theorem ofBlock_eq_emptyTree (h : b.txs = []) : (ofBlock b wanted).1 = .error .emptyTree := by
  have hleaves : b.txHashes.1 = [] := by simp [HashedBlock.txHashes, h]
  rw [ofBlock_fst, hleaves]
  rfl

/-- The header, the number of transactions and the partial tree of the full tree. -/
theorem exists_ofBlock (h : b.txs ≠ []) (wanted : List Hash256) :
    ∃ (t : Tree) (flags : List Bool) (hashes : List Hash256), t.Full b.txHashes.1 ∧
      t.proof? (b.txHashes.1.map wanted.contains).toArray t.maxDepth 0 = some (flags, hashes) ∧
      (∀ complete rest, complete rest = true →
        parsePartial complete b.txHashes.1.length (flags ++ rest) hashes =
          .ok ⟨Merkle.reduce b.txHashes.1, positioned wanted b.txHashes.1⟩) ∧
      (ofBlock b wanted).1 = .ok
        { header := b.header.contents, totalTransactions := UInt32.ofNat b.txHashes.1.length, hashes,
          flags := packFlags flags } := by
  have hleaves : b.txHashes.1 ≠ [] := by simpa [HashedBlock.txHashes] using h
  obtain ⟨t, ht, hfull⟩ := Tree.exists_ofLeaves hleaves
  obtain ⟨flags, hashes, hproof, hparse⟩ :=
    hfull.exists_partialTree (b.txHashes.1.map wanted.contains)
  have hpartial : t.partialTree (b.txHashes.1.map wanted.contains) = (flags, hashes) := by
    rw [Tree.partialTree, hproof, Option.get!_some]
  rw [markedLeaves_eq] at hparse
  refine ⟨t, flags, hashes, hfull, hproof, hparse, ?_⟩
  rw [ofBlock_fst, ht, Except.map, hpartial]

/-- A filtered block is built of every block that has transactions. -/
theorem ofBlock_ok_iff : (∃ mb, (ofBlock b wanted).1 = .ok mb) ↔ b.txs ≠ [] := by
  constructor
  · rintro ⟨mb, hmb⟩ hnil
    rw [ofBlock_eq_emptyTree hnil] at hmb
    cases hmb
  · intro h
    obtain ⟨t, flags, hashes, -, -, -, hmb⟩ := exists_ofBlock h wanted
    exact ⟨_, hmb⟩

/-! ### The bounds -/

theorem maxMerkleBlockTransactions_toNat : maxMerkleBlockTransactions.toNat = 34952 := rfl

theorem toNat_ofNat_of_le_max {n : Nat} (h : n ≤ maxMerkleBlockTransactions.toNat) :
    (UInt32.ofNat n).toNat = n :=
  UInt32.toNat_ofNat_of_lt' (Nat.lt_of_le_of_lt h maxMerkleBlockTransactions.toNat_lt)

variable {t : Tree} {leaves : List Hash256} {marks : Array Bool} {flags : List Bool}
  {hashes : List Hash256}

/-- The partial tree of a full tree that is not too large is within the bounds. -/
theorem checkBounds_of_proof? (hfull : t.Full leaves)
    (hproof : t.proof? marks t.maxDepth 0 = some (flags, hashes))
    (hmax : leaves.length ≤ maxMerkleBlockTransactions.toNat) (header : BlockHeader) :
    checkBounds ⟨header, UInt32.ofNat leaves.length, hashes, packFlags flags⟩ = .ok () := by
  obtain ⟨hleaves, hflags, -⟩ := Tree.proofSize_root (hfull.total ▸ hfull.shaped) hproof
  obtain ⟨hpacked, -⟩ := Merkle.length_packFlags flags
  rw [hfull.total] at hleaves
  rw [checkBounds_eq_ok_iff]
  dsimp only
  rw [toNat_ofNat_of_le_max hmax]
  exact ⟨hfull.shaped.pos, hmax, hleaves, by omega⟩

/-- It may be written, too. -/
theorem fits_of_proof? (hfull : t.Full leaves)
    (hproof : t.proof? marks t.maxDepth 0 = some (flags, hashes))
    (hmax : leaves.length ≤ maxMerkleBlockTransactions.toNat) (header : BlockHeader) :
    Fits ⟨header, UInt32.ofNat leaves.length, hashes, packFlags flags⟩ := by
  obtain ⟨hleaves, -, hflags⟩ := Tree.proofSize_root (hfull.total ▸ hfull.shaped) hproof
  obtain ⟨-, hpacked⟩ := Merkle.length_packFlags flags
  rw [maxMerkleBlockTransactions_toNat] at hmax
  have hdepth : t.maxDepth ≤ 16 := by
    rw [hfull.maxDepth, Merkle.depthFor_eq_clog]
    exact Nat.clog_le_of_le_pow (by omega)
  have hnodes : 2 ^ (t.maxDepth + 1) ≤ 2 ^ 17 := Nat.pow_le_pow_right Nat.two_pos (by omega)
  have hlength : maxLength.toNat = 2 ^ 32 := rfl
  rw [hfull.total] at hleaves
  constructor
  · show hashes.length ≤ maxLength.toNat
    omega
  · show (packFlags flags).length ≤ maxLength.toNat
    omega

/-! ### What is proved -/

/-- **Filtering proves what is wanted**: of a block whose transactions have no outdated hash, and that
are no more than may be claimed, the filtered block comes back from its encoding, and reading it gives
the Merkle root of the block and the wanted transactions in their order. -/
theorem ofBlock_proves (b : HashedBlock) (wanted : List Hash256) (h : ∀ t ∈ b.txs, t.UpToDate)
    (hmax : b.txs.length ≤ maxMerkleBlockTransactions.toNat) :
    ((∃ mb, (ofBlock b wanted).1 = .ok mb) ↔ b.txs ≠ []) ∧
      ∀ mb, (ofBlock b wanted).1 = .ok mb →
        (Codec.decode : Decoder MerkleBlock).run (Codec.encode mb) = .ok (mb, []) ∧
        mb.header = b.header.contents ∧
        mb.extractMatches = .ok
          ⟨b.merkleRoot.1, positioned wanted (b.txs.map fun t => identity t.contents)⟩ ∧
        (mb.header.merkleRoot = b.merkleRoot.1 → mb.verify = true) := by
  refine ⟨ofBlock_ok_iff, ?_⟩
  intro mb hmb
  obtain ⟨t, flags, hashes, hfull, hproof, hparse, hbuilt⟩ :=
    exists_ofBlock (ofBlock_ok_iff.mp ⟨mb, hmb⟩) wanted
  obtain rfl := Except.ok.inj (hbuilt.symm.trans hmb)
  have hlen : b.txHashes.1.length ≤ maxMerkleBlockTransactions.toNat := by
    simpa [HashedBlock.txHashes] using hmax
  have hbounds := checkBounds_of_proof? hfull hproof hlen b.header.contents
  have hfits := fits_of_proof? hfull hproof hlen b.header.contents
  have hroot : Merkle.reduce b.txHashes.1 = b.merkleRoot.1 :=
    (Merkle.root_eq_reduce (List.length_pos_iff.mp hfull.shaped.pos)).symm
  have hwanted : positioned wanted b.txHashes.1 =
      positioned wanted (b.txs.map fun t => identity t.contents) :=
    congrArg (positioned wanted) (HashedBlock.txHashes_eq h)
  have hextract : extractMatches ⟨b.header.contents, UInt32.ofNat b.txHashes.1.length, hashes,
      packFlags flags⟩ =
        .ok ⟨b.merkleRoot.1, positioned wanted (b.txs.map fun t => identity t.contents)⟩ := by
    -- the padding of the last byte is left over
    obtain ⟨k, hk, hunpack⟩ := Merkle.exists_unpackFlags_packFlags flags
    rw [extractMatches_eq_parsePartial hbounds]
    dsimp only
    rw [toNat_ofNat_of_le_max hlen, hunpack, hparse isPadding _ (by simp [isPadding, hk]), hroot,
      hwanted]
  refine ⟨(MerkleBlock.reads hfits).run_eq, rfl, hextract, ?_⟩
  intro hheader
  exact verify_eq_true_iff.mpr ⟨_, hextract, hheader.symm⟩

/-- A block of two transactions, of which the first one remembers its hash. -/
def twoTransactions : HashedBlock where
  header := { contents := {} }
  txs := [{ contents := {}, remembered := some (identity ({} : Transaction)) },
    { contents := { lockTime := 1 } }]

theorem ofBlock_proves_two :
    (∀ t ∈ twoTransactions.txs, t.UpToDate) ∧
      twoTransactions.txs.length ≤ maxMerkleBlockTransactions.toNat ∧
      ∃ mb, (ofBlock twoTransactions
          [identity ({ lockTime := 1 } : Transaction), identity ({} : Transaction)]).1 = .ok mb ∧
        (Codec.decode : Decoder MerkleBlock).run (Codec.encode mb) = .ok (mb, []) ∧
        mb.extractMatches = .ok ⟨twoTransactions.merkleRoot.1,
          [(0, identity ({} : Transaction)), (1, identity ({ lockTime := 1 } : Transaction))]⟩ := by
  have hcurrent : ∀ t ∈ twoTransactions.txs, t.UpToDate := by
    simp [twoTransactions, Hashed.UpToDate]
  have hmax : twoTransactions.txs.length ≤ maxMerkleBlockTransactions.toNat := by decide
  refine ⟨hcurrent, hmax, ?_⟩
  obtain ⟨hok, hproves⟩ := ofBlock_proves twoTransactions
    [identity ({ lockTime := 1 } : Transaction), identity ({} : Transaction)] hcurrent hmax
  obtain ⟨mb, hmb⟩ := hok.mpr (by simp [twoTransactions])
  obtain ⟨hread, -, hextract, -⟩ := hproves mb hmb
  refine ⟨mb, hmb, hread, hextract.trans ?_⟩
  simp [twoTransactions, positioned]

/-- **Too many transactions**: the filtered block of a larger block is refused. -/
theorem extractMatches_of_large (hmax : maxMerkleBlockTransactions.toNat < b.txs.length)
    (hlt : b.txs.length < 2 ^ 32) (h : (ofBlock b wanted).1 = .ok mb) :
    mb.extractMatches = .error (.tooManyTransactions (UInt32.ofNat b.txs.length)) := by
  obtain ⟨t, flags, hashes, -, -, -, hbuilt⟩ := exists_ofBlock (ofBlock_ok_iff.mp ⟨mb, h⟩) wanted
  obtain rfl := Except.ok.inj (hbuilt.symm.trans h)
  have hlen : b.txHashes.1.length = b.txs.length := by simp [HashedBlock.txHashes]
  have htotal : (UInt32.ofNat b.txs.length).toNat = b.txs.length := UInt32.toNat_ofNat_of_lt' hlt
  have hzero : UInt32.ofNat b.txs.length ≠ 0 := by
    rw [← UInt32.toNat_inj.ne, htotal, UInt32.toNat_zero]
    omega
  have hlarge : maxMerkleBlockTransactions < UInt32.ofNat b.txs.length := by
    rwa [UInt32.lt_iff_toNat_lt, htotal]
  rw [extractMatches, checkBounds, hlen, if_neg hzero, if_pos hlarge]
  rfl

/-- A block with one transaction more than a filtered block may claim. -/
def crowded : HashedBlock where
  header := { contents := {} }
  txs := List.replicate 34953 { contents := {} }

/-- Not every filtered block that is built is read. -/
theorem not_extractMatches_of_ofBlock :
    ¬ ∀ (b : HashedBlock) (wanted : List Hash256) (mb : MerkleBlock), (∀ t ∈ b.txs, t.UpToDate) →
      (ofBlock b wanted).1 = .ok mb →
      (Codec.decode : Decoder MerkleBlock).run (Codec.encode mb) = .ok (mb, []) ∧
        mb.extractMatches = .ok
          ⟨b.merkleRoot.1, positioned wanted (b.txs.map fun t => identity t.contents)⟩ ∧
        (mb.header.merkleRoot = b.merkleRoot.1 → mb.verify = true) := by
  intro h
  have hlen : crowded.txs.length = 34953 := List.length_replicate
  have hnil : crowded.txs ≠ [] := by
    rw [← List.length_pos_iff, hlen]
    omega
  obtain ⟨mb, hmb⟩ := ofBlock_ok_iff.mpr hnil
  have hcurrent : ∀ t ∈ crowded.txs, t.UpToDate := by
    intro t ht a ha
    rw [List.eq_of_mem_replicate ht] at ha
    cases ha
  have hrefused := extractMatches_of_large
    (by rw [hlen, maxMerkleBlockTransactions_toNat]; omega) (by omega) hmb
  rw [(h crowded [] mb hcurrent hmb).2.1] at hrefused
  cases hrefused

end MerkleBlock

end BitcoinPeer
