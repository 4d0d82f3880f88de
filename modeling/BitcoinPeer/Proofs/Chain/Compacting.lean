import BitcoinPeer.Proofs.Chain.Filtering
import BitcoinPeer.Proofs.Chain.Positions

/-!
# Making a compact block

The positions that are asked for in full are put in order and searched by halving, which finds those
that were asked for and lie in the block (`binSearchContains_shippedPositions`). By them the
transactions of a block are divided (`collect_eq`): those at such positions are shipped, the others
are named by short ids, both in the order of the block. So a receiver finds the short id of a
transaction by counting the shipped ones in front of it (`getElem?_shortIds_ofBlock`). The positions
of the shipped ones increase, hence they have gaps, and the compact block comes back from its encoding
(`ofBlock_accounts`).
-/

namespace BitcoinPeer

/-! ### Leaving out repetitions -/

/-- What is kept when repetitions are left out, in front of which `acc` was kept: nothing changes its
place, and nothing is lost. -/
theorem exists_eraseRepsBy_loop (as : List Nat) (a : Nat) (acc : List Nat) :
    ∃ kept, List.eraseRepsBy.loop (· == ·) a as acc = acc.reverse ++ kept ∧
      kept.Sublist (a :: as) ∧ a :: as ⊆ kept := by
  induction as generalizing a acc with
  | nil => exact ⟨[a], List.reverse_cons, .refl _, List.Subset.refl _⟩
  | cons b as ih =>
    rw [List.eraseRepsBy.loop]
    cases hab : a == b with
    | true =>
      obtain rfl := beq_iff_eq.mp hab
      obtain ⟨kept, hkept, hsub, hall⟩ := ih a acc
      exact ⟨kept, hkept, hsub.trans (List.sublist_cons_self _ _),
        List.cons_subset.mpr ⟨hall List.mem_cons_self, hall⟩⟩
    | false =>
      obtain ⟨kept, hkept, hsub, hall⟩ := ih b (a :: acc)
      refine ⟨a :: kept, ?_, hsub.cons_cons a, List.cons_subset_cons a hall⟩
      rw [hkept, List.reverse_cons, List.append_assoc, List.singleton_append]

theorem eraseReps_sublist_and_subset (as : List Nat) :
    as.eraseReps.Sublist as ∧ as ⊆ as.eraseReps := by
  cases as with
  | nil => exact ⟨.refl _, List.Subset.refl _⟩
  | cons a as =>
    obtain ⟨kept, hkept, hsub, hall⟩ := exists_eraseRepsBy_loop as a []
    have heq : (a :: as).eraseReps = kept := hkept
    rw [heq]
    exact ⟨hsub, hall⟩

/-! ### Searching by halving -/

section Searching

variable {as : Array Nat}

/-- In a list that increases, a smaller element stands further ahead. -/
theorem lt_of_getElem?_lt (h : as.toList.Pairwise (· ≤ ·)) {i j a b : Nat} (ha : as[i]? = some a)
    (hb : as[j]? = some b) (hab : a < b) : i < j := by
  obtain ⟨hi, rfl⟩ := Array.getElem?_eq_some_iff.mp ha
  obtain ⟨hj, rfl⟩ := Array.getElem?_eq_some_iff.mp hb
  refine Nat.lt_of_not_le fun hji => ?_
  obtain rfl | hji := Nat.eq_or_lt_of_le hji
  · exact absurd hab (Nat.lt_irrefl _)
  · exact absurd hab (Nat.not_lt.mpr (List.pairwise_iff_getElem.mp h j i hj hi hji))

/-- Halving finds what lies between the bounds, as the list is in order. -/
theorem binSearchAux_eq_true_iff (h : as.toList.Pairwise (· ≤ ·)) (k : Nat)
    (lo : Fin (as.size + 1)) (hi : Fin as.size) (hle : lo.1 ≤ hi.1) :
    Array.binSearchAux (fun a b => decide (a < b)) Option.isSome as k lo hi hle = true ↔
      ∃ i, lo.1 ≤ i ∧ i ≤ hi.1 ∧ as[i]? = some k := by
  fun_induction Array.binSearchAux with
  | case1 lo hi _ m a hlt _ _ ih =>
    -- what is sought is greater than the one in the middle, so it stands behind it
    have ha : as[m]? = some a := Array.getElem?_eq_getElem (by omega)
    rw [ih]
    refine exists_congr fun i => ⟨fun ⟨hlo, hrest⟩ => ⟨?_, hrest⟩, fun ⟨_, hrest⟩ => ⟨?_, hrest⟩⟩
    · have hnext : m + 1 ≤ i := hlo
      omega
    · exact lt_of_getElem?_lt h ha hrest.2 (of_decide_eq_true hlt)
  | case2 lo hi _ m a hlt hend _ =>
    have ha : as[m]? = some a := Array.getElem?_eq_getElem (by omega)
    refine iff_of_false Bool.false_ne_true ?_
    rintro ⟨i, -, hhi, hk⟩
    have hafter := lt_of_getElem?_lt h ha hk (of_decide_eq_true hlt)
    omega
  | case3 lo hi _ m a _ hgt hend _ =>
    have ha : as[m]? = some a := Array.getElem?_eq_getElem (by omega)
    refine iff_of_false Bool.false_ne_true ?_
    rintro ⟨i, hlo, -, hk⟩
    have hbefore := lt_of_getElem?_lt h hk ha (of_decide_eq_true hgt)
    omega
  | case4 lo hi _ m a _ hgt hend _ ih =>
    -- what is sought is less than the one in the middle, so it stands in front of it
    have ha : as[m]? = some a := Array.getElem?_eq_getElem (by omega)
    rw [ih]
    refine exists_congr fun i => and_congr_right fun _ => ?_
    refine ⟨fun ⟨hhi, hk⟩ => ⟨?_, hk⟩, fun ⟨_, hk⟩ => ⟨?_, hk⟩⟩
    · have hnext : i ≤ m - 1 := hhi
      omega
    · exact Nat.le_sub_one_of_lt (lt_of_getElem?_lt h hk ha (of_decide_eq_true hgt))
  | case5 lo hi _ m a hlt hgt _ =>
    have ha : as[m]? = some a := Array.getElem?_eq_getElem (by omega)
    have heq : a = k := by
      simp only [decide_eq_true_eq] at hlt hgt
      omega
    exact iff_of_true rfl ⟨m, by omega, by omega, heq ▸ ha⟩

theorem binSearchContains_eq_true_iff (h : as.toList.Pairwise (· ≤ ·)) (k : Nat) :
    as.binSearchContains k (· < ·) = true ↔ k ∈ as.toList := by
  rw [Array.binSearchContains, Array.mem_toList_iff, Array.mem_iff_getElem?]
  by_cases hsize : 0 < as.size
  · have hlast : as.size - 1 < as.size := by omega
    simp only [hsize, hlast, dite_true, if_true, Nat.zero_le]
    rw [binSearchAux_eq_true_iff h]
    refine exists_congr fun i => ⟨fun ⟨_, _, hk⟩ => hk, fun hk => ⟨Nat.zero_le i, ?_, hk⟩⟩
    obtain ⟨hi, -⟩ := Array.getElem?_eq_some_iff.mp hk
    exact Nat.le_sub_one_of_lt hi
  · rw [dif_neg hsize]
    refine iff_of_false Bool.false_ne_true ?_
    rintro ⟨i, hk⟩
    obtain ⟨hi, -⟩ := Array.getElem?_eq_some_iff.mp hk
    omega

end Searching

/-! ### Dividing what has a position -/

section Dividing

variable {α : Type} {as : List α}

theorem pairwise_zipIdx (as : List α) (start : Nat) :
    (as.zipIdx start).Pairwise fun x y => x.2 < y.2 := by
  have hpositions : ((as.zipIdx start).map Prod.snd).Pairwise (· < ·) := by
    rw [List.zipIdx_map_snd]
    exact List.pairwise_lt_range'
  exact List.pairwise_map.mp hpositions

/-- An element that is left out by a filter stands among those that are left out, and as many places
further ahead as there are others in front of it. -/
theorem getElem?_left_out {i : Nat} {a : α} (q : α × Nat → Bool) (h : as[i]? = some a)
    (ha : q (a, i) = false) :
    (as.zipIdx.filter fun x => !q x)[i - (as.zipIdx.filter q).countP fun x => x.2 < i]? =
      some (a, i) := by
  obtain ⟨hi, rfl⟩ := List.getElem?_eq_some_iff.mp h
  have hsplit : as.zipIdx =
      (as.take i).zipIdx ++ (as[i], i) :: (as.drop (i + 1)).zipIdx (i + 1) := by
    have hlength : (as.take i).length = i := List.length_take_of_le (Nat.le_of_lt hi)
    conv_lhs => rw [← List.take_append_drop i as, List.drop_eq_getElem_cons hi]
    rw [List.zipIdx_append, List.zipIdx_cons, hlength, Nat.zero_add]
  -- those in front are divided without remainder
  have hfront : ((as.take i).zipIdx.filter q).length +
      ((as.take i).zipIdx.filter fun x => !q x).length = i := by
    rw [← (as.take i).zipIdx.length_eq_length_filter_add q, List.length_zipIdx,
      List.length_take_of_le (Nat.le_of_lt hi)]
  have hcount : (as.zipIdx.filter q).countP (fun x => x.2 < i) =
      ((as.take i).zipIdx.filter q).length := by
    rw [hsplit, List.filter_append, List.countP_append, List.filter_cons_of_neg (by simp [ha]),
      List.countP_eq_length.mpr, List.countP_eq_zero.mpr, Nat.add_zero]
    · intro x hx
      have hge := List.le_snd_of_mem_zipIdx (List.mem_of_mem_filter hx)
      simp only [decide_eq_true_eq]
      omega
    · intro x hx
      have hlt := List.snd_lt_add_of_mem_zipIdx (List.mem_of_mem_filter hx)
      rw [List.length_take_of_le (Nat.le_of_lt hi)] at hlt
      simpa using hlt
  have hplace : i - ((as.take i).zipIdx.filter q).length =
      ((as.take i).zipIdx.filter fun x => !q x).length := by omega
  rw [hcount, hplace, hsplit, List.filter_append, List.filter_cons_of_pos (by simp [ha]),
    List.getElem?_append_right (Nat.le_refl _), Nat.sub_self, List.getElem?_cons_zero]

end Dividing

namespace CompactBlock

variable {b : HashedBlock} {nonce : UInt64} {inFull : List Nat}

/-! ### The positions that are asked for -/

theorem pairwise_shippedPositions (count : Nat) (inFull : List Nat) :
    (shippedPositions count inFull).toList.Pairwise (· ≤ ·) := by
  have hsorted : (inFull.filter (· < count)).mergeSort.Pairwise (decide <| · ≤ ·) := by
    refine List.pairwise_mergeSort (fun a b c hab hbc => ?_) (fun a b => ?_) _
    · rw [decide_eq_true_eq] at hab hbc ⊢
      exact Nat.le_trans hab hbc
    · rw [Bool.or_eq_true, decide_eq_true_eq, decide_eq_true_eq]
      exact Nat.le_total a b
  exact (hsorted.imp of_decide_eq_true).sublist (eraseReps_sublist_and_subset _).1

theorem mem_shippedPositions {count position : Nat} {inFull : List Nat} :
    position ∈ (shippedPositions count inFull).toList ↔ position < count ∧ position ∈ inFull := by
  have hkept := eraseReps_sublist_and_subset (inFull.filter (· < count)).mergeSort
  rw [shippedPositions]
  refine Iff.trans ⟨fun h => hkept.1.subset h, fun h => hkept.2 h⟩ ?_
  rw [List.mem_mergeSort, List.mem_filter, decide_eq_true_eq, and_comm]

/-- **Looking for a position**: those in the block are found exactly if they are asked for. -/
theorem binSearchContains_shippedPositions {count position : Nat} (h : position < count)
    (inFull : List Nat) :
    (shippedPositions count inFull).binSearchContains position (· < ·) =
      inFull.contains position := by
  rw [Bool.eq_iff_iff, binSearchContains_eq_true_iff (pairwise_shippedPositions count inFull),
    mem_shippedPositions, List.contains_iff_mem, and_iff_right h]

/-! ### What is shipped, and what is named -/

/-- The transactions at the positions asked for, with their positions. -/
def shipped (inFull : List Nat) (txs : List (Hashed Transaction)) (start : Nat) :
    List (Hashed Transaction × Nat) :=
  (txs.zipIdx start).filter fun x => inFull.contains x.2

/-- The other transactions, with their positions. -/
def named (inFull : List Nat) (txs : List (Hashed Transaction)) (start : Nat) :
    List (Hashed Transaction × Nat) :=
  (txs.zipIdx start).filter fun x => !inFull.contains x.2

theorem collect_eq (keys : UInt64 × UInt64) (positions : Array Nat) (inFull : List Nat)
    (position : Nat) (txs : List (Hashed Transaction))
    (h : ∀ i < position + txs.length,
      positions.binSearchContains i (· < ·) = inFull.contains i) :
    (collect keys positions position txs).1 =
        (named inFull txs position).map (fun x => shortId keys x.1.hash.1) ∧
      (collect keys positions position txs).2.1 = (shipped inFull txs position).map fun x =>
        { index := UInt64.ofNat x.2, tx := x.1.contents } := by
  induction txs generalizing position with
  | nil => exact ⟨rfl, rfl⟩
  | cons t ts ih =>
    rw [List.length_cons] at h
    obtain ⟨hids, hprefilled⟩ := ih (position + 1) fun i hi => h i (by omega)
    have hhere := h position (by omega)
    by_cases hfull : inFull.contains position = true
    · rw [hfull] at hhere
      simp only [collect, hhere, hfull, if_true, named, shipped, List.zipIdx_cons, List.filter_cons,
        Bool.not_true, Bool.false_eq_true, if_false, List.map_cons, hids, hprefilled, and_self]
    · rw [Bool.not_eq_true] at hfull
      rw [hfull] at hhere
      simp only [collect, hhere, hfull, Bool.false_eq_true, if_false, named, shipped,
        List.zipIdx_cons, List.filter_cons, Bool.not_false, if_true, List.map_cons, hids, hprefilled,
        and_self]

/-- The keys depend on the header and the nonce alone. -/
theorem ofBlock_fst (b : HashedBlock) (nonce : UInt64) (inFull : List Nat) :
    (ofBlock b nonce inFull).1 =
      { header := b.header.contents
        nonce
        shortIds := (named inFull b.txs 0).map fun x =>
          shortId (ofBlock b nonce inFull).1.keys x.1.hash.1
        prefilled := (shipped inFull b.txs 0).map fun x =>
          { index := UInt64.ofNat x.2, tx := x.1.contents } } := by
  have hfound : ∀ i < 0 + b.txs.length,
      (shippedPositions b.txs.length inFull).binSearchContains i (· < ·) = inFull.contains i :=
    fun i hi => binSearchContains_shippedPositions (by omega) inFull
  obtain ⟨hids, hprefilled⟩ :=
    collect_eq (ofBlock b nonce inFull).1.keys _ inFull 0 b.txs hfound
  rw [← hids, ← hprefilled]
  rfl

theorem prefilled_ofBlock : (ofBlock b nonce inFull).1.prefilled =
    (shipped inFull b.txs 0).map fun x => { index := UInt64.ofNat x.2, tx := x.1.contents } := by
  rw [ofBlock_fst]

theorem shortIds_ofBlock : (ofBlock b nonce inFull).1.shortIds =
    (named inFull b.txs 0).map fun x => shortId (ofBlock b nonce inFull).1.keys x.1.hash.1 :=
  congrArg CompactBlock.shortIds (ofBlock_fst b nonce inFull)

theorem mem_shipped {x : Hashed Transaction × Nat} {txs : List (Hashed Transaction)} :
    x ∈ shipped inFull txs 0 ↔ txs[x.2]? = some x.1 ∧ x.2 ∈ inFull := by
  rw [shipped, List.mem_filter, List.mem_zipIdx_iff_getElem?, List.contains_iff_mem]

/-- No transaction is left out. -/
theorem length_ofBlock : (ofBlock b nonce inFull).1.prefilled.length +
    (ofBlock b nonce inFull).1.shortIds.length = b.txs.length := by
  rw [prefilled_ofBlock, shortIds_ofBlock, List.length_map, List.length_map, shipped, named,
    ← List.length_eq_length_filter_add, List.length_zipIdx]

/-! ### Blocks whose transactions can be counted -/

section

variable (hcount : b.txs.length < UInt64.size)

include hcount

theorem toNat_of_mem_shipped {x : Hashed Transaction × Nat} (hx : x ∈ shipped inFull b.txs 0) :
    (UInt64.ofNat x.2).toNat = x.2 ∧ x.2 + 1 < UInt64.size := by
  obtain ⟨hi, -⟩ := List.getElem?_eq_some_iff.mp (mem_shipped.mp hx).1
  exact ⟨UInt64.toNat_ofNat_of_lt' (by omega), by omega⟩

theorem mem_prefilled_ofBlock {p : PrefilledTransaction} :
    p ∈ (ofBlock b nonce inFull).1.prefilled ↔
      ∃ t, b.txs[p.index.toNat]? = some t ∧ p.index.toNat ∈ inFull ∧ p.tx = t.contents := by
  rw [prefilled_ofBlock, List.mem_map]
  constructor
  · rintro ⟨x, hx, rfl⟩
    obtain ⟨hindex, -⟩ := toNat_of_mem_shipped hcount hx
    obtain ⟨ht, hfull⟩ := mem_shipped.mp hx
    simp only [hindex]
    exact ⟨x.1, ht, hfull, rfl⟩
  · rintro ⟨t, ht, hfull, htx⟩
    refine ⟨(t, p.index.toNat), mem_shipped.mpr ⟨ht, hfull⟩, ?_⟩
    rw [UInt64.ofNat_toNat, ← htx]

theorem pairwise_prefilled_ofBlock :
    (ofBlock b nonce inFull).1.prefilled.Pairwise fun p p' => p.index < p'.index := by
  rw [prefilled_ofBlock, List.pairwise_map]
  refine ((pairwise_zipIdx b.txs 0).filter _).imp_of_mem fun hx hy hlt => ?_
  rw [UInt64.lt_iff_toNat_lt, (toNat_of_mem_shipped hcount hx).1, (toNat_of_mem_shipped hcount hy).1]
  exact hlt

/-- The short id of a transaction that is not shipped stands as many places further ahead than the
transaction as there are shipped ones in front of it. -/
theorem getElem?_shortIds_ofBlock {i : Nat} {t : Hashed Transaction} (ht : b.txs[i]? = some t)
    (hi : i ∉ inFull) :
    (ofBlock b nonce inFull).1.shortIds[
        i - (ofBlock b nonce inFull).1.prefilled.countP fun p => p.index.toNat < i]? =
      some (shortId (ofBlock b nonce inFull).1.keys t.hash.1) := by
  have hplace := getElem?_left_out (fun x => inFull.contains x.2) ht (by simpa using hi)
  have hfront : ((ofBlock b nonce inFull).1.prefilled.countP fun p => p.index.toNat < i) =
      (shipped inFull b.txs 0).countP fun x => x.2 < i := by
    rw [prefilled_ofBlock, List.countP_map]
    refine List.countP_congr fun x hx => ?_
    simp only [Function.comp_apply, (toNat_of_mem_shipped hcount hx).1]
  rw [hfront, shortIds_ofBlock, List.getElem?_map, named, shipped, hplace, Option.map_some]

/-- The positions of the shipped transactions have gaps. -/
theorem exists_toWire_ofBlock : ∃ w, (ofBlock b nonce inFull).1.toWire = .ok w := by
  refine exists_toWire_iff.mpr (exists_gaps_iff.mpr ⟨?_, ?_⟩)
  · rw [indices, List.pairwise_map]
    exact pairwise_prefilled_ofBlock hcount
  · intro hmem
    rw [indices, prefilled_ofBlock, List.map_map, List.mem_map] at hmem
    obtain ⟨x, hx, hindex⟩ := hmem
    obtain ⟨hvalue, hnext⟩ := toNat_of_mem_shipped hcount hx
    refine ne_noPosition_iff.mpr ?_ hindex
    rwa [Function.comp_apply, hvalue]

/-- The form for the wire comes back from its encoding, if the shipped transactions do. -/
theorem reads_of_toWire {w : CompactBlock} (hw : (ofBlock b nonce inFull).1.toWire = .ok w)
    (hfits : AllFit PrefilledTransaction.Fits (ofBlock b nonce inFull).1.prefilled) :
    Decoder.Reads Codec.decode (Codec.encode w) w := by
  obtain ⟨hsame, -⟩ := toWire_eq_ok_iff.mp hw
  have hlength : w.shortIds.length < UInt64.size := by
    have hparts : (ofBlock b nonce inFull).1.prefilled.length + _ = _ := length_ofBlock
    rw [hsame.shortIds]
    omega
  have hshipped : AllFit PrefilledTransaction.Fits w.prefilled := by
    have htxs := congrArg List.length hsame.txs
    rw [List.length_map, List.length_map] at htxs
    refine ⟨htxs ▸ hfits.length, fun p hp => ?_⟩
    have hp : p.tx ∈ (ofBlock b nonce inFull).1.prefilled.map PrefilledTransaction.tx :=
      hsame.txs ▸ List.mem_map_of_mem hp
    obtain ⟨p', hp', htx⟩ := List.mem_map.mp hp
    rw [PrefilledTransaction.Fits, ← htx]
    exact hfits.each p' hp'
  have hcanon : w.canon = w := by
    rw [canon, hsame.shortIds, shortIds_ofBlock, List.map_map]
    have hlow : (low48 ∘ fun x : Hashed Transaction × Nat =>
        shortId (ofBlock b nonce inFull).1.keys x.1.hash.1) =
        fun x => shortId (ofBlock b nonce inFull).1.keys x.1.hash.1 :=
      funext fun x => low48_low48 _
    rw [hlow, ← shortIds_ofBlock, ← hsame.shortIds]
  have hread := reads_of_lt hlength hshipped
  rwa [hcanon] at hread

end

end CompactBlock

/-- **A compact block accounts for its block**: of a block whose transactions have no outdated hash,
and are no more than a position can count, the transactions at the positions asked for are shipped,
with their positions and in order; for each other one there is the short id of its hash under the keys
of the compact block, as many places further ahead as there are shipped ones in front of it; and
together they are as many as the transactions of the block. The compact block has a form for the wire,
which leads back to it, also by way of its encoding if the shipped transactions are not too large. -/
theorem ofBlock_accounts (b : HashedBlock) (nonce : UInt64) (inFull : List Nat)
    (h : ∀ t ∈ b.txs, t.UpToDate) (hcount : b.txs.length < UInt64.size) :
    let c := (CompactBlock.ofBlock b nonce inFull).1
    c.header = b.header.contents ∧ c.nonce = nonce ∧
      (c.prefilled.Pairwise fun p p' => p.index < p'.index) ∧
      (∀ p, p ∈ c.prefilled ↔
        ∃ t, b.txs[p.index.toNat]? = some t ∧ p.index.toNat ∈ inFull ∧ p.tx = t.contents) ∧
      (∀ i t, b.txs[i]? = some t → i ∉ inFull →
        c.shortIds[i - c.prefilled.countP fun p => p.index.toNat < i]? =
          some (CompactBlock.shortId c.keys (identity t.contents))) ∧
      c.prefilled.length + c.shortIds.length = b.txs.length ∧
      ∃ w, c.toWire = .ok w ∧ w.ofWire = .ok c ∧
        (AllFit PrefilledTransaction.Fits c.prefilled → ∀ rest,
          (Codec.decode : Decoder CompactBlock).run (Codec.encode w ++ rest) = .ok (w, rest)) := by
  intro c
  obtain ⟨w, hw⟩ : ∃ w, c.toWire = .ok w := CompactBlock.exists_toWire_ofBlock hcount
  refine ⟨rfl, rfl, CompactBlock.pairwise_prefilled_ofBlock hcount,
    fun p => CompactBlock.mem_prefilled_ofBlock hcount, fun i t ht hi => ?_,
    CompactBlock.length_ofBlock, w, hw, CompactBlock.ofWire_eq_ok_iff_toWire.mpr hw,
    fun hfits => CompactBlock.reads_of_toWire hcount hw hfits⟩
  rw [← (h t (List.mem_of_getElem? ht)).hash_eq]
  exact CompactBlock.getElem?_shortIds_ofBlock hcount ht hi

/-- A block of three transactions, of which the first one remembers its hash. -/
def threeTransactions : HashedBlock where
  header := { contents := {} }
  txs := [{ contents := {}, remembered := some (identity ({} : Transaction)) },
    { contents := { lockTime := 1 } }, { contents := { lockTime := 2 } }]

/-- The positions are out of order, repeated, and beyond the last transaction. -/
theorem ofBlock_accounts_three :
    let c := (CompactBlock.ofBlock threeTransactions 5 [2, 0, 7, 2]).1
    (∀ t ∈ threeTransactions.txs, t.UpToDate) ∧ threeTransactions.txs.length < UInt64.size ∧
      c.prefilled = [{ index := 0, tx := {} }, { index := 2, tx := { lockTime := 2 } }] ∧
      c.shortIds[0]? =
        some (CompactBlock.shortId c.keys (identity ({ lockTime := 1 } : Transaction))) ∧
      ∃ w, c.toWire = .ok w ∧ w.ofWire = .ok c ∧ ∀ rest,
        (Codec.decode : Decoder CompactBlock).run (Codec.encode w ++ rest) = .ok (w, rest) := by
  have hcurrent : ∀ t ∈ threeTransactions.txs, t.UpToDate := by
    simp [threeTransactions, Hashed.UpToDate]
  have hcount : threeTransactions.txs.length < UInt64.size := by decide
  obtain ⟨-, -, -, -, hids, -, w, hw, hback, hread⟩ :=
    ofBlock_accounts threeTransactions 5 [2, 0, 7, 2] hcurrent hcount
  have hprefilled : (CompactBlock.ofBlock threeTransactions 5 [2, 0, 7, 2]).1.prefilled =
      [{ index := 0, tx := {} }, { index := 2, tx := { lockTime := 2 } }] :=
    CompactBlock.prefilled_ofBlock
  have hfits : AllFit PrefilledTransaction.Fits
      (CompactBlock.ofBlock threeTransactions 5 [2, 0, 7, 2]).1.prefilled := by
    rw [hprefilled]
    refine ⟨by decide, fun p hp => ?_⟩
    have hempty : p.tx.inputs = [] ∧ p.tx.outputs = [] := by
      simp only [List.mem_cons, List.not_mem_nil, or_false] at hp
      obtain rfl | rfl := hp <;> exact ⟨rfl, rfl⟩
    refine ⟨?_, ?_⟩
    · rw [hempty.1]
      exact ⟨Nat.zero_le _, List.forall_mem_nil _⟩
    · rw [hempty.2]
      exact ⟨Nat.zero_le _, List.forall_mem_nil _⟩
  have hid := hids 1 { contents := { lockTime := 1 } } rfl (by decide)
  rw [hprefilled] at hid
  exact ⟨hcurrent, hcount, hprefilled, hid, w, hw, hback, hread hfits⟩

end BitcoinPeer
