import BitcoinPeer.Proofs.Merkle.Populated
import BitcoinPeer.Proofs.Merkle.Sizes

/-!
# What a reading spends

The flags and hashes that are spent on a node of a partial tree are as few as those that are written
for one (`ProofSize`), whatever was sent: the hashes stand for disjoint ranges of leaves, none of them
empty, and no hash is read without a flag before it. So a tree that was filled has used no more hashes
than it has leaves, and at least as many flags as hashes (`Tree.exists_spent`).
-/

namespace BitcoinPeer.Merkle

variable {total height index : Nat} {feed feed' rest : Feed} {flag : Bool} {hash : Hash256} {p : Parse}
  {flags flags' : List Bool} {hashes hashes' : List Hash256}

namespace Feed

/-- These flags and hashes lead from one feed to what is left of it. -/
structure Spends (feed : Feed) (flags : List Bool) (hashes : List Hash256) (rest : Feed) : Prop where
  flags : feed.flags = flags ++ rest.flags
  hashes : feed.hashes = hashes ++ rest.hashes

theorem Spends.trans (h : feed.Spends flags hashes feed') (h' : feed'.Spends flags' hashes' rest) :
    feed.Spends (flags ++ flags') (hashes ++ hashes') rest where
  flags := by rw [h.flags, h'.flags, List.append_assoc]
  hashes := by rw [h.hashes, h'.hashes, List.append_assoc]

theorem spends_of_nextFlag (h : feed.nextFlag = .ok (flag, rest)) : feed.Spends [flag] [] rest := by
  unfold nextFlag at h
  split at h
  · cases h
  next hflags =>
    cases h
    exact ⟨hflags, rfl⟩

theorem spends_of_nextHash (h : feed.nextHash = .ok (hash, rest)) : feed.Spends [] [hash] rest := by
  unfold nextHash at h
  split at h
  · cases h
  next hhashes =>
    cases h
    exact ⟨rfl, hhashes⟩

end Feed

open Feed (spends_of_nextFlag spends_of_nextHash)

/-- **One node**: what is spent on it is no more than may be written for it. -/
theorem exists_spent_of_parse (h : parse total height index feed = .ok p)
    (hi : index < width total height) :
    ∃ flags hashes, feed.Spends flags hashes p.feed ∧
      ProofSize total height index flags hashes := by
  induction height generalizing index feed p with
  | zero =>
    rw [parse_zero] at h
    obtain ⟨⟨flag, feed₁⟩, hflag, h⟩ := exists_of_bind_eq_ok h
    obtain ⟨⟨hash, feed₂⟩, hhash, h⟩ := exists_of_bind_eq_ok h
    cases h
    exact ⟨[flag], [hash], (spends_of_nextFlag hflag).trans (spends_of_nextHash hhash),
      proofSize_single le_rfl hi⟩
  | succ height ih =>
    have hleft : 2 * index < width total height := by
      rw [width_succ] at hi
      omega
    rw [parse_succ] at h
    obtain ⟨⟨flag, feed₁⟩, hflag, h⟩ := exists_of_bind_eq_ok h
    have hfirst := spends_of_nextFlag hflag
    cases flag with
    | false =>
      obtain ⟨⟨hash, feed₂⟩, hhash, h⟩ := exists_of_bind_eq_ok h
      cases h
      exact ⟨[false], [hash], hfirst.trans (spends_of_nextHash hhash), proofSize_single le_rfl hi⟩
    | true =>
      obtain ⟨l, hl, h⟩ := exists_of_bind_eq_ok h
      obtain ⟨flagsLeft, hashesLeft, hspentLeft, hsizeLeft⟩ := ih hl hleft
      -- the leaves below the children are those below the node, and no leaf is below both
      by_cases hright : 2 * index + 1 < width total height
      · rw [if_pos hright] at h
        obtain ⟨r, hr, h⟩ := exists_of_bind_eq_ok h
        cases h
        obtain ⟨flagsRight, hashesRight, hspentRight, hsizeRight⟩ := ih hr hright
        exact ⟨_, _, (hfirst.trans hspentLeft).trans hspentRight, hsizeLeft.fork hsizeRight hright⟩
      · rw [if_neg hright] at h
        cases h
        exact ⟨_, _, hfirst.trans hspentLeft, hsizeLeft.single hright⟩

/-- What a reading finds that ended at a known root: then every hash was used, and the flags that were
left over were allowed. -/
theorem Reader.of_found_eq_ok {r : Reader} {tail : List Bool → Except ProofError Unit} {m : Matches}
    (h : r.found tail = .ok m) : r.feed.hashes = [] ∧ tail r.feed.flags = .ok () := by
  unfold found at h
  split at h
  · cases h
  next hhashes =>
    refine ⟨List.length_eq_zero_iff.mp (Decidable.not_not.mp hhashes), ?_⟩
    cases htail : tail r.feed.flags with
    | error e => simp [htail] at h
    | ok u => rfl

/-- **A filled tree**: if a population of a new tree succeeds, the walk has come to the root, has used
every hash, and has used at least as many flags as hashes. -/
theorem Tree.exists_spent (hpos : 0 < total) {tail : List Bool → Except ProofError Unit} {t : Tree}
    {m : Matches} (h : populated? tail ⟨total, Rows.empty total⟩ flags hashes = some (t, .ok m)) :
    ∃ r used, Ends Reader.step (reader ⟨total, Rows.empty total⟩ flags hashes) (r, .ok ()) ∧
      r.feed.hashes = [] ∧ tail r.feed.flags = .ok () ∧ flags = used ++ r.feed.flags ∧
      hashes.length ≤ total ∧ hashes.length ≤ used.length := by
  have hone := width_depthFor hpos
  have hfollows := Reader.followsAt total (depthFor total)
    (reader ⟨total, Rows.empty total⟩ flags hashes) (open_new hpos) (Nat.zero_add _)
    (blank_empty total)
  change Reader.Follows total _ (parse total (depthFor total) 0 ⟨flags, hashes⟩) at hfollows
  cases hp : parse total (depthFor total) 0 ⟨flags, hashes⟩ with
  | error e =>
    rw [hp] at hfollows
    obtain ⟨r, hr⟩ := hfollows
    rw [populated?, hr.repeatM_eq] at h
    cases h
  | ok p =>
    rw [hp] at hfollows
    obtain ⟨r, hsteps, hread⟩ := hfollows
    have hend := hsteps.ends (Reader.ends_of_root hread.here)
    rw [populated?, hend.repeatM_eq] at h
    obtain ⟨hhashes, htail⟩ := Reader.of_found_eq_ok (Prod.mk.inj (Option.some.inj h)).2
    obtain ⟨used, spent, hspent, hsize⟩ := exists_spent_of_parse hp (by omega)
    rw [← hread.feed] at hspent
    -- nothing is left, so all the hashes were spent
    obtain rfl : hashes = spent := by
      have hall := hspent.hashes
      rwa [hhashes, List.append_nil] at hall
    refine ⟨r, used, hend, hhashes, htail, hspent.flags, ?_, hsize.hashes_le_flags⟩
    have hle := hsize.hashes_le_leaves
    have hendOf : endOf total (depthFor total) 0 ≤ total := Nat.min_le_right _ _
    omega

end BitcoinPeer.Merkle
