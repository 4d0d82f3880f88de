import Mathlib.Algebra.GroupWithZero.Nat
import BitcoinPeer.Proofs.Chain.Encoding

/-!
# Positions and the gaps between them

`Spaced` says of positions and gaps that each gap leads to the next position. Either list determines
the other, and both functions compute just that (`gapsFrom_eq_ok_iff`, `positionsFrom_eq_ok_iff`), so
each undoes the other wherever it gives a result. Positions have gaps exactly if they increase and
have next ones (`exists_gaps_iff`), and gaps have positions exactly if the sums along them stay in
bounds (`exists_positions_iff`). Compact blocks and requests for transactions inherit this
(`positions_gaps_inverse`).
-/

namespace BitcoinPeer

/-! ### Spaced positions -/

/-- The gaps lead from `next` on to the positions, where a gap of zero leads to the next position;
every position has a next one. -/
inductive Spaced : Nat → List UInt64 → List UInt64 → Prop where
  | nil (next : Nat) : Spaced next [] []
  | cons {next : Nat} {position gap : UInt64} {positions gaps : List UInt64}
      (step : position.toNat = next + gap.toNat) (bound : position.toNat + 1 < UInt64.size)
      (rest : Spaced (position.toNat + 1) positions gaps) :
      Spaced next (position :: positions) (gap :: gaps)

variable {next : Nat} {positions gs : List UInt64}

theorem gapsFrom_eq_ok_iff : gapsFrom next positions = .ok gs ↔ Spaced next positions gs := by
  constructor
  · intro h
    induction positions generalizing next gs with
    | nil =>
      cases h
      exact .nil next
    | cons position positions ih =>
      have hlt : position.toNat < UInt64.size := position.toNat_lt
      rw [gapsFrom] at h
      split_ifs at h with horder hlast
      cases hmore : gapsFrom (position.toNat + 1) positions with
      | error e =>
        rw [hmore] at h
        cases h
      | ok more =>
        rw [hmore] at h
        cases h
        refine .cons ?_ (by omega) (ih hmore)
        rw [UInt64.toNat_ofNat_of_lt' (by omega)]
        omega
  · intro h
    induction h with
    | nil => rfl
    | @cons next position gap _ _ step bound _ ih =>
      have hgap : UInt64.ofNat (position.toNat - next) = gap := by
        rw [step, Nat.add_sub_cancel_left, UInt64.ofNat_toNat]
      rw [gapsFrom, if_neg (by omega), if_neg (by omega), ih, ← hgap]
      rfl

theorem positionsFrom_eq_ok_iff : positionsFrom next gs = .ok positions ↔ Spaced next positions gs := by
  constructor
  · intro h
    induction gs generalizing next positions with
    | nil =>
      cases h
      exact .nil next
    | cons gap gs ih =>
      rw [positionsFrom] at h
      split_ifs at h with hbound
      cases hmore : positionsFrom (next + gap.toNat + 1) gs with
      | error e =>
        rw [hmore] at h
        cases h
      | ok more =>
        rw [hmore] at h
        cases h
        have hposition : (UInt64.ofNat (next + gap.toNat)).toNat = next + gap.toNat :=
          UInt64.toNat_ofNat_of_lt' (by omega)
        refine .cons hposition (by omega) ?_
        rw [hposition]
        exact ih hmore
  · intro h
    induction h with
    | nil => rfl
    | @cons next position gap _ _ step bound _ ih =>
      have hposition : UInt64.ofNat (next + gap.toNat) = position := by
        rw [← step, UInt64.ofNat_toNat]
      rw [positionsFrom, if_neg (by omega), ← step, ih, step, hposition]
      rfl

theorem Spaced.length_eq (h : Spaced next positions gs) : positions.length = gs.length := by
  induction h with
  | nil => rfl
  | cons _ _ _ ih => exact congrArg Nat.succ ih

/-- There is no room for more positions than there are numbers. -/
theorem Spaced.length_lt (h : Spaced next positions gs) (hnext : next < UInt64.size) :
    next + positions.length < UInt64.size := by
  induction h with
  | nil => exact hnext
  | @cons next position _ _ _ step bound _ ih =>
    have hrest := ih bound
    rw [List.length_cons]
    omega

/-! ### What has gaps, and what has positions -/

/-- Positions have gaps if they begin where they may, increase, and have next ones. -/
theorem exists_spaced_iff : (∃ gs, Spaced next positions gs) ↔
    (∀ p ∈ positions, next ≤ p.toNat ∧ p.toNat + 1 < UInt64.size) ∧ positions.Pairwise (· < ·) := by
  induction positions generalizing next with
  | nil => exact iff_of_true ⟨[], .nil next⟩ ⟨nofun, .nil⟩
  | cons position positions ih =>
    rw [List.forall_mem_cons, List.pairwise_cons]
    constructor
    · rintro ⟨gs, h⟩
      cases h with
      | cons step bound rest =>
        obtain ⟨hrest, hincreasing⟩ := ih.mp ⟨_, rest⟩
        refine ⟨⟨⟨by omega, bound⟩, fun p hp => ?_⟩, fun p hp => ?_, hincreasing⟩
        · have hp := hrest p hp
          exact ⟨by omega, hp.2⟩
        · exact UInt64.lt_iff_toNat_lt.mpr (hrest p hp).1
    · rintro ⟨⟨⟨hnext, bound⟩, hbounds⟩, hlt, hincreasing⟩
      obtain ⟨gs, hgs⟩ := ih.mpr
        ⟨fun p hp => ⟨UInt64.lt_iff_toNat_lt.mp (hlt p hp), (hbounds p hp).2⟩, hincreasing⟩
      refine ⟨UInt64.ofNat (position.toNat - next) :: gs, .cons ?_ bound hgs⟩
      rw [UInt64.toNat_ofNat_of_lt' (by omega)]
      omega

/-- The last position to which so many gaps and one more lead: their sum, and one for each position
before it. -/
def runningPosition (gs : List UInt64) (before : Nat) : Nat :=
  ((gs.take (before + 1)).map UInt64.toNat).sum + before

theorem runningPosition_cons_zero (gap : UInt64) (gs : List UInt64) :
    runningPosition (gap :: gs) 0 = gap.toNat := by
  simp [runningPosition]

theorem runningPosition_cons_succ (gap : UInt64) (gs : List UInt64) (before : Nat) :
    runningPosition (gap :: gs) (before + 1) = gap.toNat + 1 + runningPosition gs before := by
  simp only [runningPosition, List.take_succ_cons, List.map_cons, List.sum_cons]
  omega

/-- Gaps have positions if all to which they lead have next ones. -/
theorem exists_spaced_iff_running : (∃ positions, Spaced next positions gs) ↔
    ∀ before < gs.length, next + runningPosition gs before + 1 < UInt64.size := by
  induction gs generalizing next with
  | nil => exact iff_of_true ⟨[], .nil next⟩ nofun
  | cons gap gs ih =>
    constructor
    · rintro ⟨positions, h⟩ before hbefore
      cases h with
      | cons step bound rest =>
        cases before with
        | zero =>
          rw [runningPosition_cons_zero]
          omega
        | succ before =>
          have hrest := ih.mp ⟨_, rest⟩ before (Nat.lt_of_succ_lt_succ hbefore)
          rw [runningPosition_cons_succ]
          omega
    · intro h
      have hfirst := h 0 (Nat.zero_lt_succ _)
      rw [runningPosition_cons_zero] at hfirst
      have hposition : (UInt64.ofNat (next + gap.toNat)).toNat = next + gap.toNat :=
        UInt64.toNat_ofNat_of_lt' (by omega)
      have hmore : ∀ before < gs.length,
          next + gap.toNat + 1 + runningPosition gs before + 1 < UInt64.size := by
        intro before hbefore
        have hlater := h (before + 1) (Nat.succ_lt_succ hbefore)
        rw [runningPosition_cons_succ] at hlater
        omega
      obtain ⟨positions, hrest⟩ := ih.mpr hmore
      exact ⟨_, .cons hposition (by omega) (hposition.symm ▸ hrest)⟩

/-- The greatest number, which has no next one and is therefore no position. -/
def noPosition : UInt64 := 0xffffffffffffffff

theorem ne_noPosition_iff {p : UInt64} : p ≠ noPosition ↔ p.toNat + 1 < UInt64.size := by
  have hlt : p.toNat < UInt64.size := p.toNat_lt
  have hvalue : noPosition.toNat + 1 = UInt64.size := rfl
  rw [← UInt64.toNat_inj.ne]
  omega

theorem gaps_eq_ok_iff : gaps positions = .ok gs ↔ Spaced 0 positions gs :=
  gapsFrom_eq_ok_iff

theorem absolutePositions_eq_ok_iff : absolutePositions gs = .ok positions ↔ Spaced 0 positions gs :=
  positionsFrom_eq_ok_iff

theorem exists_gaps_iff :
    (∃ gs, gaps positions = .ok gs) ↔ positions.Pairwise (· < ·) ∧ noPosition ∉ positions := by
  simp only [gaps_eq_ok_iff, exists_spaced_iff, Nat.zero_le, true_and, ← ne_noPosition_iff]
  rw [and_comm, List.forall_mem_ne']

theorem exists_absolutePositions_iff :
    (∃ positions, absolutePositions gs = .ok positions) ↔
      ∀ before < gs.length, runningPosition gs before < noPosition.toNat := by
  have hvalue : noPosition.toNat + 1 = UInt64.size := rfl
  simp only [absolutePositions_eq_ok_iff, exists_spaced_iff_running, Nat.zero_add, ← hvalue,
    Nat.add_lt_add_iff_right]

/-! ### Compact blocks -/

namespace CompactBlock

/-- The two differ in the indices of the transactions that are shipped in full, and in nothing else. -/
structure SameButIndices (c c' : CompactBlock) : Prop where
  header : c'.header = c.header
  nonce : c'.nonce = c.nonce
  shortIds : c'.shortIds = c.shortIds
  txs : c'.prefilled.map PrefilledTransaction.tx = c.prefilled.map PrefilledTransaction.tx

/-- The indices of the transactions that are shipped in full. -/
def indices (c : CompactBlock) : List UInt64 :=
  c.prefilled.map PrefilledTransaction.index

theorem SameButIndices.symm {c c' : CompactBlock} (h : c.SameButIndices c') : c'.SameButIndices c :=
  ⟨h.header.symm, h.nonce.symm, h.shortIds.symm, h.txs.symm⟩

/-- Transactions with other indices. -/
theorem zipWith_index_eq_iff {ps ps' : List PrefilledTransaction} {is : List UInt64}
    (hlength : is.length = ps.length) :
    List.zipWith (fun p index => { p with index }) ps is = ps' ↔
      ps'.map PrefilledTransaction.tx = ps.map PrefilledTransaction.tx ∧
        ps'.map PrefilledTransaction.index = is := by
  induction ps generalizing is ps' with
  | nil =>
    obtain rfl := List.length_eq_zero_iff.mp hlength
    cases ps' <;> simp
  | cons p ps ih =>
    cases is with
    | nil => cases hlength
    | cons i is =>
      cases ps' with
      | nil => simp
      | cons p' ps' =>
        obtain ⟨index, tx⟩ := p'
        simp only [List.zipWith_cons_cons, List.map_cons, List.cons.injEq,
          ih (Nat.succ.inj hlength), PrefilledTransaction.mk.injEq]
        tauto

theorem reindex_eq_ok_iff {f : List UInt64 → Except DecodeError (List UInt64)}
    (hlength : ∀ is js, f is = .ok js → js.length = is.length) {c c' : CompactBlock} :
    c.reindex f = .ok c' ↔ c.SameButIndices c' ∧ f c.indices = .ok c'.indices := by
  cases hf : f c.indices with
  | error e =>
    have hreindex : c.reindex f = .error e := by
      rw [reindex, ← indices, hf]
      rfl
    rw [hreindex]
    exact iff_of_false nofun fun h => nomatch h.2
  | ok is =>
    have hreindex : c.reindex f = .ok { c with
        prefilled := List.zipWith (fun p index => { p with index }) c.prefilled is } := by
      rw [reindex, ← indices, hf]
      rfl
    have hlen : is.length = c.prefilled.length := by
      rw [hlength _ _ hf, indices, List.length_map]
    rw [hreindex, Except.ok.injEq, Except.ok.injEq]
    constructor
    · rintro rfl
      obtain ⟨htxs, hindices⟩ := (zipWith_index_eq_iff hlen).mp rfl
      exact ⟨⟨rfl, rfl, rfl, htxs⟩, hindices.symm⟩
    · rintro ⟨hsame, rfl⟩
      have hprefilled := (zipWith_index_eq_iff hlen).mpr ⟨hsame.txs, rfl⟩
      obtain ⟨header, nonce, shortIds, prefilled⟩ := c'
      simp only [hprefilled, ← hsame.header, ← hsame.nonce, ← hsame.shortIds]

/-- Positions in place of gaps: the same compact block but for the indices, which are those to which
the gaps lead. -/
theorem ofWire_eq_ok_iff {c c' : CompactBlock} :
    c.ofWire = .ok c' ↔ c.SameButIndices c' ∧ Spaced 0 c'.indices c.indices := by
  rw [← absolutePositions_eq_ok_iff]
  exact reindex_eq_ok_iff fun _ _ h => (absolutePositions_eq_ok_iff.mp h).length_eq

theorem toWire_eq_ok_iff {c c' : CompactBlock} :
    c.toWire = .ok c' ↔ c.SameButIndices c' ∧ Spaced 0 c.indices c'.indices := by
  rw [← gaps_eq_ok_iff]
  exact reindex_eq_ok_iff fun _ _ h => (gaps_eq_ok_iff.mp h).length_eq.symm

theorem exists_toWire_iff {c : CompactBlock} :
    (∃ c', c.toWire = .ok c') ↔ ∃ gs, gaps c.indices = .ok gs := by
  rw [toWire, reindex, ← indices]
  cases gaps c.indices with
  | error e => exact iff_of_false nofun nofun
  | ok gs => exact iff_of_true ⟨_, rfl⟩ ⟨gs, rfl⟩

/-- Each of the two ways undoes the other. -/
theorem ofWire_eq_ok_iff_toWire {c c' : CompactBlock} : c.ofWire = .ok c' ↔ c'.toWire = .ok c := by
  rw [ofWire_eq_ok_iff, toWire_eq_ok_iff]
  exact and_congr_left fun _ => ⟨SameButIndices.symm, SameButIndices.symm⟩

end CompactBlock

/-! ### Requests for transactions -/

namespace BlockTransactionsRequest

theorem ofAbsolute_eq_ok_iff {blockHash : Hash256} {r : BlockTransactionsRequest} :
    ofAbsolute blockHash positions = .ok r ↔
      r.blockHash = blockHash ∧ Spaced 0 positions r.indexes := by
  rw [← gaps_eq_ok_iff]
  cases hgaps : gaps positions with
  | error e =>
    have hr : ofAbsolute blockHash positions = .error e := by
      rw [ofAbsolute, hgaps]
      rfl
    rw [hr]
    exact iff_of_false nofun fun h => nomatch h.2
  | ok gs =>
    have hr : ofAbsolute blockHash positions = .ok { blockHash, indexes := gs } := by
      rw [ofAbsolute, hgaps]
      rfl
    obtain ⟨blockHash', indexes⟩ := r
    rw [hr, Except.ok.injEq, Except.ok.injEq, BlockTransactionsRequest.mk.injEq]
    exact and_congr_left fun _ => eq_comm

/-- A request that was made of positions comes back from its encoding, whatever their number. -/
theorem reads_of_spaced {r : BlockTransactionsRequest} (h : Spaced 0 positions r.indexes) :
    Decoder.Reads Codec.decode (Codec.encode r) r := by
  have hlength := h.length_lt (by decide)
  rw [h.length_eq, Nat.zero_add] at hlength
  exact reads_of_lt hlength

end BlockTransactionsRequest

/-- **Positions and gaps**: positions have gaps exactly if they increase strictly and the greatest
number is not among them, and gaps have positions exactly if no sum of gaps and positions along them
reaches that number; each way undoes the other. So do the two forms of a compact block, which differ
in the indices alone and keep every transaction with its own; and the positions that are asked for
come back from the encoding of the request. -/
theorem positions_gaps_inverse :
    (∀ positions : List UInt64,
      ((∃ gs, gaps positions = .ok gs) ↔ positions.Pairwise (· < ·) ∧ noPosition ∉ positions) ∧
      ∀ gs, gaps positions = .ok gs → absolutePositions gs = .ok positions) ∧
    (∀ gs : List UInt64,
      ((∃ positions, absolutePositions gs = .ok positions) ↔
        ∀ before < gs.length, runningPosition gs before < noPosition.toNat) ∧
      ∀ positions, absolutePositions gs = .ok positions →
        positions.Pairwise (· < ·) ∧ gaps positions = .ok gs) ∧
    (∀ c c' : CompactBlock, (c.ofWire = .ok c' ↔ c'.toWire = .ok c) ∧
      (c.ofWire = .ok c' ↔
        c.SameButIndices c' ∧ absolutePositions c.indices = .ok c'.indices)) ∧
    ∀ blockHash positions r, BlockTransactionsRequest.ofAbsolute blockHash positions = .ok r →
      r.blockHash = blockHash ∧ r.toAbsolute = .ok positions ∧
      ∀ rest, (Codec.decode : Decoder BlockTransactionsRequest).run (Codec.encode r ++ rest) =
        .ok (r, rest) := by
  refine ⟨fun positions => ⟨exists_gaps_iff, fun gs h => ?_⟩,
    fun gs => ⟨exists_absolutePositions_iff, fun positions h => ?_⟩,
    fun c c' => ⟨CompactBlock.ofWire_eq_ok_iff_toWire, ?_⟩, fun blockHash positions r h => ?_⟩
  · exact absolutePositions_eq_ok_iff.mpr (gaps_eq_ok_iff.mp h)
  · have hspaced := absolutePositions_eq_ok_iff.mp h
    exact ⟨(exists_spaced_iff.mp ⟨gs, hspaced⟩).2, gaps_eq_ok_iff.mpr hspaced⟩
  · rw [absolutePositions_eq_ok_iff]
    exact CompactBlock.ofWire_eq_ok_iff
  · obtain ⟨hhash, hspaced⟩ := BlockTransactionsRequest.ofAbsolute_eq_ok_iff.mp h
    exact ⟨hhash, absolutePositions_eq_ok_iff.mpr hspaced,
      BlockTransactionsRequest.reads_of_spaced hspaced⟩

/-- Two positions at the ends of what there is, and one that follows the first at once. -/
theorem positions_gaps_inverse_edge :
    let positions : List UInt64 := [0, 1, 0xfffffffffffffffe]
    let gs : List UInt64 := [0, 0, 0xfffffffffffffffc]
    gaps positions = .ok gs ∧ absolutePositions gs = .ok positions ∧
      (∀ before < gs.length, runningPosition gs before < noPosition.toNat) ∧
      ∃ r, BlockTransactionsRequest.ofAbsolute Hash256.zero positions = .ok r ∧
        r.toAbsolute = .ok positions ∧
        (Codec.decode : Decoder BlockTransactionsRequest).run (Codec.encode r ++ [0]) =
          .ok (r, [0]) := by
  intro positions gs
  obtain ⟨hgaps, hpositions, -, hrequests⟩ := positions_gaps_inverse
  have hgs : gaps positions = .ok gs := rfl
  have habsolute : absolutePositions gs = .ok positions := (hgaps positions).2 gs hgs
  have hr : BlockTransactionsRequest.ofAbsolute Hash256.zero positions =
      .ok { blockHash := Hash256.zero, indexes := gs } := rfl
  obtain ⟨-, hback, hread⟩ := hrequests Hash256.zero positions _ hr
  exact ⟨hgs, habsolute, (hpositions gs).1.mp ⟨positions, habsolute⟩, _, hr, hback, hread [0]⟩

end BitcoinPeer
