import BitcoinPeer.Command
import BitcoinPeer.Proofs.Merkle.Branches
import BitcoinPeer.Proofs.Text.Hex
import BitcoinPeer.Proofs.Text.Json

/-!
# Inclusion proofs from texts and back

A proof is read back from its own JSON text, in either layout (`InclusionProof.parse?_pretty`,
`InclusionProof.parse?_compact`). From texts of hashes a proof is built exactly if each of them is 64
digits and the transaction is one of those in the block; then it holds (`buildProof_accounts`).
-/

namespace BitcoinPeer

open Json (Textual)

theorem Hash256.ofJson?_toJson (h : Hash256) : ofJson? h.toJson = some h := by
  simp only [ofJson?, toJson, Json.text?, Option.bind_eq_bind, Option.bind_some, ofHex_toHex]
  rfl

namespace Merkle

/-! ### The text of a proof -/

theorem BranchEntry.ofJson?_toJson (entry : BranchEntry) : ofJson? entry.toJson = some entry := by
  have hfields : entry.toJson.fields? ["hash", "pos"] =
      some [some entry.hash.toJson, some (.str entry.side.letter)] :=
    Json.fields?_obj rfl (by decide)
  have hside : Side.ofLetter? entry.side.letter = some entry.side := by
    cases entry.side <;> rfl
  rw [ofJson?, hfields]
  simp only [Option.bind_eq_bind, Option.bind_some, Hash256.ofJson?_toJson, Json.tag?, hside]
  rfl

namespace InclusionProof

theorem textual_toJson (p : InclusionProof) : Textual p.toJson := by
  have hhash : ∀ h : Hash256, Textual h.toJson := fun h => .str h.toHex
  have hentry : ∀ entry : BranchEntry, Textual entry.toJson := fun entry =>
    .obj (by simpa using ⟨hhash entry.hash, .str entry.side.letter⟩)
  have hbranch : Textual (.arr (p.branch.map BranchEntry.toJson)) :=
    .arr (by simpa using fun entry _ => hentry entry)
  exact .obj (by simpa using ⟨hhash p.blockHash, hhash p.merkleRoot, hhash p.txHash, hbranch⟩)

theorem ofJson?_toJson (p : InclusionProof) : ofJson? p.toJson = some p := by
  have hfields : p.toJson.fields? ["block_hash", "merkle_root", "tx_hash", "branches"] =
      some [some p.blockHash.toJson, some p.merkleRoot.toJson, some p.txHash.toJson,
        some (.arr (p.branch.map BranchEntry.toJson))] :=
    Json.fields?_obj rfl (by decide)
  have hbranch := Json.mapM_map_eq_some BranchEntry.ofJson?_toJson p.branch
  rw [ofJson?, hfields]
  simp only [Option.bind_eq_bind, Option.bind_some, Hash256.ofJson?_toJson, Json.array?, hbranch]
  rfl

theorem parse?_pretty (p : InclusionProof) : parse? p.toJson.pretty = some p := by
  rw [parse?, p.textual_toJson.parse?_pretty]
  exact p.ofJson?_toJson

theorem parse?_compact (p : InclusionProof) : parse? p.toJson.compact = some p := by
  rw [parse?, p.textual_toJson.parse?_compact]
  exact p.ofJson?_toJson

/-! ### Building a proof -/

variable {blockHash tx : Hash256} {txs : List Hash256}

theorem exists_build (blockHash : Hash256) (h : tx ∈ txs) : ∃ p, build blockHash tx txs = .ok p ∧
    p.verify = true ∧ p.blockHash = blockHash ∧ p.txHash = tx ∧ p.merkleRoot = Merkle.root txs ∧
    createBranch tx txs = .ok p.branch := by
  obtain ⟨branch, hbranch, hroot⟩ := exists_createBranch h
  refine ⟨⟨blockHash, Merkle.root txs, tx, branch⟩, ?_, ?_, rfl, rfl, rfl, hbranch⟩
  · rw [build, hbranch]
    rfl
  · rw [verify, verifyBranch, hroot, beq_self_eq_true]

theorem build_of_not_mem (h : tx ∉ txs) : build blockHash tx txs = .error .txNotFound := by
  rw [build, createBranch_of_not_mem h]
  rfl

end InclusionProof

end Merkle

namespace Command

open Hash256 (IsNumeral Denotes)
open Merkle (InclusionProof)

variable {block : Option String} {text tx : String} {txs : List String} {h : Hash256}
  {hashes : List Hash256}

/-! ### Reading the texts of hashes -/

theorem exists_parseHash (ht : IsNumeral text) : ∃ h, parseHash text = .ok h ∧ Denotes text h := by
  obtain ⟨h, hread⟩ := Hash256.exists_ofHex ht
  exact ⟨h, by rw [parseHash, hread], Hash256.denotes_of_ofHex hread⟩

theorem parseHash_of_not (ht : ¬ IsNumeral text) : parseHash text = .error .invalidHex := by
  rw [parseHash]
  cases hread : Hash256.ofHex text with
  | ok h => exact absurd (Hash256.denotes_of_ofHex hread).numeral ht
  | error e => rfl

/-- Without a text the hash is zero. -/
theorem exists_elim_parseHash (ht : ∀ text ∈ block.toList, IsNumeral text) :
    ∃ h, block.elim (.ok Hash256.zero) parseHash = .ok h ∧
      block.elim (h = Hash256.zero) (Denotes · h) := by
  cases block with
  | none => exact ⟨Hash256.zero, rfl, rfl⟩
  | some text => exact exists_parseHash (ht text (by simp))

theorem elim_parseHash_of_not (ht : ¬ ∀ text ∈ block.toList, IsNumeral text) :
    block.elim (.ok Hash256.zero) parseHash = .error .invalidHex := by
  cases block with
  | none => exact absurd (by simp) ht
  | some text => exact parseHash_of_not (by simpa using ht)

/-- The texts of a list are read in turn, if all of them can be. -/
theorem exists_mapM_parseHash (ht : ∀ text ∈ txs, IsNumeral text) :
    ∃ hashes, txs.mapM parseHash = .ok hashes ∧ List.Forall₂ Denotes txs hashes := by
  induction txs with
  | nil => exact ⟨[], rfl, .nil⟩
  | cons text txs ih =>
    rw [List.forall_mem_cons] at ht
    obtain ⟨h, hread, hdenotes⟩ := exists_parseHash ht.1
    obtain ⟨hashes, hreads, hall⟩ := ih ht.2
    refine ⟨h :: hashes, ?_, .cons hdenotes hall⟩
    rw [List.mapM_cons, hread, hreads]
    rfl

theorem mapM_parseHash_of_not (ht : ¬ ∀ text ∈ txs, IsNumeral text) :
    txs.mapM parseHash = .error .invalidHex := by
  induction txs with
  | nil => exact absurd (by simp) ht
  | cons text txs ih =>
    rw [List.mapM_cons]
    by_cases hhead : IsNumeral text
    · obtain ⟨h, hread, -⟩ := exists_parseHash hhead
      have hrest : ¬ ∀ text ∈ txs, IsNumeral text := fun hall =>
        ht (List.forall_mem_cons.mpr ⟨hhead, hall⟩)
      rw [hread, ih hrest]
      rfl
    · rw [parseHash_of_not hhead]
      rfl

/-- A hash is one of those read if the number of its text is that of one of their texts. -/
theorem mem_iff_of_denotes (htx : Denotes tx h) (htxs : List.Forall₂ Denotes txs hashes) :
    h ∈ hashes ↔ ∃ text ∈ txs, Hex.number text.toList = Hex.number tx.toList := by
  have hinjective : Function.Injective Hash256.toNat := fun _ _ => Hash256.toNat_inj.mp
  have hnumbers : hashes.map Hash256.toNat = txs.map fun text => Hex.number text.toList := by
    induction htxs with
    | nil => rfl
    | cons hdenotes _ ih => rw [List.map_cons, List.map_cons, ih, hdenotes.toNat]
  rw [← List.mem_map_of_injective hinjective, hnumbers, List.mem_map, htx.toNat]

/-! ### Building a proof from texts -/

/-- The texts a proof is built from. -/
def givenTexts (block : Option String) (tx : String) (txs : List String) : List String :=
  block.toList ++ tx :: txs

/-- What a proof built from these texts says; without a block its hash is zero. -/
structure BuiltFrom (block : Option String) (tx : String) (txs : List String)
    (p : InclusionProof) : Prop where
  verify : p.verify = true
  blockHash : block.elim (p.blockHash = Hash256.zero) (Denotes · p.blockHash)
  txHash : Denotes tx p.txHash
  merkleRoot : ∃ hashes, List.Forall₂ Denotes txs hashes ∧ p.merkleRoot = Merkle.root hashes ∧
    Merkle.createBranch p.txHash hashes = .ok p.branch

/-- Texts that are all well-formed are read, and the rest is done with their hashes. -/
theorem exists_buildProof_eq (ht : ∀ text ∈ givenTexts block tx txs, IsNumeral text) :
    ∃ blockHash txHash hashes,
      block.elim (blockHash = Hash256.zero) (Denotes · blockHash) ∧ Denotes tx txHash ∧
      List.Forall₂ Denotes txs hashes ∧
      buildProof block tx txs = InclusionProof.build blockHash txHash hashes := by
  rw [givenTexts, List.forall_mem_append, List.forall_mem_cons] at ht
  obtain ⟨hblock, htx, htxs⟩ := ht
  obtain ⟨blockHash, hreadBlock, hdenotesBlock⟩ := exists_elim_parseHash hblock
  obtain ⟨txHash, hread, hdenotes⟩ := exists_parseHash htx
  obtain ⟨hashes, hreads, hall⟩ := exists_mapM_parseHash htxs
  refine ⟨blockHash, txHash, hashes, hdenotesBlock, hdenotes, hall, ?_⟩
  rw [buildProof, hreadBlock, hread, hreads]
  rfl

/-- Whichever text is malformed, the error is the same. -/
theorem buildProof_of_not (ht : ¬ ∀ text ∈ givenTexts block tx txs, IsNumeral text) :
    buildProof block tx txs = .error .invalidHex := by
  rw [givenTexts, List.forall_mem_append, List.forall_mem_cons] at ht
  rw [buildProof]
  by_cases hblock : ∀ text ∈ block.toList, IsNumeral text
  · obtain ⟨blockHash, hreadBlock, -⟩ := exists_elim_parseHash hblock
    rw [hreadBlock]
    by_cases htx : IsNumeral tx
    · obtain ⟨txHash, hread, -⟩ := exists_parseHash htx
      have htxs : ¬ ∀ text ∈ txs, IsNumeral text := fun htxs => ht ⟨hblock, htx, htxs⟩
      rw [hread, mapM_parseHash_of_not htxs]
      rfl
    · rw [parseHash_of_not htx]
      rfl
  · rw [elim_parseHash_of_not hblock]
    rfl

/-- The three ways in which building a proof ends. -/
theorem buildProof_cases (block : Option String) (tx : String) (txs : List String) :
    ((¬ ∀ text ∈ givenTexts block tx txs, IsNumeral text) ∧
      buildProof block tx txs = .error .invalidHex) ∨
    ((∀ text ∈ givenTexts block tx txs, IsNumeral text) ∧
      (¬ ∃ text ∈ txs, Hex.number text.toList = Hex.number tx.toList) ∧
      buildProof block tx txs = .error .txNotFound) ∨
    ((∀ text ∈ givenTexts block tx txs, IsNumeral text) ∧
      (∃ text ∈ txs, Hex.number text.toList = Hex.number tx.toList) ∧
      ∃ p, buildProof block tx txs = .ok p ∧ BuiltFrom block tx txs p) := by
  by_cases ht : ∀ text ∈ givenTexts block tx txs, IsNumeral text
  · obtain ⟨blockHash, txHash, hashes, hblock, htx, htxs, heq⟩ := exists_buildProof_eq ht
    have hmem := mem_iff_of_denotes htx htxs
    by_cases hfound : txHash ∈ hashes
    · obtain ⟨p, hp, hverify, rfl, rfl, hroot, hbranch⟩ :=
        InclusionProof.exists_build blockHash hfound
      exact .inr (.inr ⟨ht, hmem.mp hfound, p, heq.trans hp,
        hverify, hblock, htx, hashes, htxs, hroot, hbranch⟩)
    · exact .inr (.inl ⟨ht, fun h => hfound (hmem.mpr h),
        heq.trans (InclusionProof.build_of_not_mem hfound)⟩)
  · exact .inl ⟨ht, buildProof_of_not ht⟩

/-- A proof is checked by its text, in either layout. -/
theorem verifyProofText_toJson (p : InclusionProof) :
    verifyProofText p.toJson.pretty = .ok p.verify ∧
      verifyProofText p.toJson.compact = .ok p.verify := by
  rw [verifyProofText, verifyProofText, p.parse?_pretty, p.parse?_compact]
  exact ⟨rfl, rfl⟩

/-- **Proofs from texts and back**: a proof is built exactly if every text is 64 digits and the number
of the transaction is that of one in the list. A malformed text is the one error, a transaction that
is not in the list the other. The proof that is built holds, and its hashes are those of the texts.
The text of any proof at all is read back as that proof. -/
theorem buildProof_accounts (block : Option String) (tx : String) (txs : List String) :
    ((∃ p, buildProof block tx txs = .ok p) ↔
      (∀ text ∈ givenTexts block tx txs, IsNumeral text) ∧
        ∃ text ∈ txs, Hex.number text.toList = Hex.number tx.toList) ∧
    (buildProof block tx txs = .error .invalidHex ↔
      ∃ text ∈ givenTexts block tx txs, ¬ IsNumeral text) ∧
    (buildProof block tx txs = .error .txNotFound ↔
      (∀ text ∈ givenTexts block tx txs, IsNumeral text) ∧
        ∀ text ∈ txs, Hex.number text.toList ≠ Hex.number tx.toList) ∧
    (∀ p, buildProof block tx txs = .ok p → BuiltFrom block tx txs p) ∧
    ∀ p : InclusionProof,
      InclusionProof.parse? p.toJson.pretty = some p ∧
      InclusionProof.parse? p.toJson.compact = some p ∧
      verifyProofText p.toJson.pretty = .ok p.verify ∧
      verifyProofText p.toJson.compact = .ok p.verify := by
  have hmalformed : (∃ text ∈ givenTexts block tx txs, ¬ IsNumeral text) ↔
      ¬ ∀ text ∈ givenTexts block tx txs, IsNumeral text := by simp
  have hmissing : (∀ text ∈ txs, Hex.number text.toList ≠ Hex.number tx.toList) ↔
      ¬ ∃ text ∈ txs, Hex.number text.toList = Hex.number tx.toList := by simp
  have hread : ∀ p : InclusionProof,
      InclusionProof.parse? p.toJson.pretty = some p ∧
      InclusionProof.parse? p.toJson.compact = some p ∧
      verifyProofText p.toJson.pretty = .ok p.verify ∧
      verifyProofText p.toJson.compact = .ok p.verify :=
    fun p => ⟨p.parse?_pretty, p.parse?_compact, verifyProofText_toJson p⟩
  rw [hmalformed, hmissing]
  obtain ⟨ht, heq⟩ | ⟨ht, hfound, heq⟩ | ⟨ht, hfound, p, heq, hp⟩ := buildProof_cases block tx txs
  · rw [heq]
    exact ⟨iff_of_false (by simp) fun h => ht h.1, iff_of_true rfl ht,
      iff_of_false (by simp) fun h => ht h.1, (fun _ h => nomatch h), hread⟩
  · rw [heq]
    exact ⟨iff_of_false (by simp) fun h => hfound h.2, iff_of_false (by simp) fun h => h ht,
      iff_of_true rfl ⟨ht, hfound⟩, (fun _ h => nomatch h), hread⟩
  · rw [heq]
    refine ⟨iff_of_true ⟨p, rfl⟩ ⟨ht, hfound⟩, iff_of_false (by simp) fun h => h ht,
      iff_of_false (by simp) fun h => h.2 hfound, fun _ h => ?_, hread⟩
    cases h
    exact hp

example :
    (buildProof none (String.ofList (List.replicate 64 'A'))
      [String.ofList (List.replicate 64 'a')]).isOk = true := by
  decide +kernel

end Command

end BitcoinPeer
