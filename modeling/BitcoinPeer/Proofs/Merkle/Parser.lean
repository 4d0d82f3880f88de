import BitcoinPeer.Merkle.Partial
import BitcoinPeer.Proofs.Merkle.Levels

/-!
# Parsing partial trees

The reference for reading a partial tree, by recursion from the root: one flag for every node that
is visited, a hash for a leaf and for a node whose flag is off, and else the children, the left one
first. `parse_visits` says where the visited leaves are.
-/

namespace BitcoinPeer.Merkle

open Digest (hashPair)

/-- A leaf that was visited. -/
structure Visit where
  index : Nat
  flag : Bool
  hash : Hash256

/-- What was read for a node: its hash, the leaves visited below it in order, and the rest. -/
structure Parse where
  hash : Hash256
  visits : List Visit
  feed : Feed

/-- The leaves whose flag was on. -/
def Parse.matched (p : Parse) : List (Nat × Hash256) :=
  (p.visits.filter (·.flag)).map fun v => (v.index, v.hash)

/-- Reads the node with this index, so many levels above the leaves. -/
def parse (total : Nat) : (height index : Nat) → Feed → Except ProofError Parse
  | 0, index, feed =>
    match feed.flags, feed.hashes with
    | [], _ => .error .flagsExhausted
    | _ :: _, [] => .error .hashesExhausted
    | flag :: flags, hash :: hashes => .ok ⟨hash, [⟨index, flag, hash⟩], ⟨flags, hashes⟩⟩
  | height + 1, index, feed =>
    match feed.flags, feed.hashes with
    | [], _ => .error .flagsExhausted
    | false :: _, [] => .error .hashesExhausted
    | false :: flags, hash :: hashes => .ok ⟨hash, [], ⟨flags, hashes⟩⟩
    | true :: flags, hashes => do
      let l ← parse total height (2 * index) ⟨flags, hashes⟩
      if 2 * index + 1 < width total height then
        let r ← parse total height (2 * index + 1) l.feed
        return ⟨hashPair l.hash r.hash, l.visits ++ r.visits, r.feed⟩
      else return ⟨hashPair l.hash l.hash, l.visits, l.feed⟩

/-- Reads a whole partial tree, which has to use every hash and to leave flags that are `complete`. -/
def parsePartial (complete : List Bool → Bool) (total : Nat) (flags : List Bool)
    (hashes : List Hash256) : Except ProofError Matches := do
  let p ← parse total (depthFor total) 0 ⟨flags, hashes⟩
  if 0 < p.feed.hashes.length then .error (.unconsumedHashes p.feed.hashes.length)
  else if complete p.feed.flags then .ok ⟨p.hash, p.matched⟩
  else .error (.unconsumedFlags p.feed.flags.length)

/-- Fewer than eight flags, and all of them off. -/
def isPadding (rest : List Bool) : Bool :=
  decide (rest.length < 8) && rest.all (!·)

/-! ### Reading one thing after the other

The walk reads flags and hashes off a feed, so this is the form in which the two are compared. -/

theorem parse_zero (total index : Nat) (feed : Feed) : parse total 0 index feed = do
    let (flag, feed) ← feed.nextFlag
    let (hash, feed) ← feed.nextHash
    return ⟨hash, [⟨index, flag, hash⟩], feed⟩ := by
  obtain ⟨flags, hashes⟩ := feed
  cases flags with
  | nil => rfl
  | cons flag flags => cases hashes <;> rfl

theorem parse_succ (total height index : Nat) (feed : Feed) :
    parse total (height + 1) index feed = do
      let (flag, feed) ← feed.nextFlag
      if flag then
        let l ← parse total height (2 * index) feed
        if 2 * index + 1 < width total height then
          let r ← parse total height (2 * index + 1) l.feed
          return ⟨hashPair l.hash r.hash, l.visits ++ r.visits, r.feed⟩
        else return ⟨hashPair l.hash l.hash, l.visits, l.feed⟩
      else
        let (hash, feed) ← feed.nextHash
        return ⟨hash, [], feed⟩ := by
  obtain ⟨flags, hashes⟩ := feed
  rcases flags with _ | ⟨_ | _, flags⟩
  · rfl
  · cases hashes <;> rfl
  · rfl

/-! ### The leaves that are visited -/

variable {total height index : Nat} {feed feed' : Feed} {p l r : Parse} {hash : Hash256} {flag : Bool}

theorem exists_of_bind_eq_ok {α β : Type} {x : Except ProofError α} {f : α → Except ProofError β}
    {b : β} (h : x >>= f = .ok b) : ∃ a, x = .ok a ∧ f a = .ok b := by
  cases x with
  | error e => cases h
  | ok a => exact ⟨a, rfl, h⟩

theorem parse_zero_eq_ok (h : parse total 0 index feed = .ok p) :
    ∃ flag, p.visits = [⟨index, flag, p.hash⟩] := by
  rw [parse_zero] at h
  obtain ⟨⟨flag, feed₁⟩, -, h⟩ := exists_of_bind_eq_ok h
  obtain ⟨⟨hash, feed₂⟩, -, h⟩ := exists_of_bind_eq_ok h
  cases h
  exact ⟨flag, rfl⟩

/-- What a node above the leaves visits: nothing, or what its children visit. -/
theorem parse_succ_eq_ok (h : parse total (height + 1) index feed = .ok p) :
    p.visits = [] ∨ ∃ feed' l, parse total height (2 * index) feed' = .ok l ∧
      (p.visits = l.visits ∨ 2 * index + 1 < width total height ∧
        ∃ r, parse total height (2 * index + 1) l.feed = .ok r ∧ p.visits = l.visits ++ r.visits) := by
  rw [parse_succ] at h
  obtain ⟨⟨flag, feed₁⟩, -, h⟩ := exists_of_bind_eq_ok h
  cases flag with
  | false =>
    obtain ⟨⟨hash, feed₂⟩, -, h⟩ := exists_of_bind_eq_ok h
    cases h
    exact .inl rfl
  | true =>
    obtain ⟨l, hl, h⟩ := exists_of_bind_eq_ok h
    refine .inr ⟨feed₁, l, hl, ?_⟩
    by_cases hright : 2 * index + 1 < width total height
    · rw [if_pos hright] at h
      obtain ⟨r, hr, h⟩ := exists_of_bind_eq_ok h
      cases h
      exact .inr ⟨hright, r, hr, rfl⟩
    · rw [if_neg hright] at h
      cases h
      exact .inl rfl

/-- Leaves are visited from left to right, and only those below the node. -/
theorem parse_visits (h : parse total height index feed = .ok p) (hi : index < width total height) :
    p.visits.Pairwise (·.index < ·.index) ∧
      ∀ v ∈ p.visits, v.index / 2 ^ height = index ∧ v.index < total := by
  induction height generalizing index feed p with
  | zero =>
    obtain ⟨flag, hv⟩ := parse_zero_eq_ok h
    rw [width_zero] at hi
    simp [hv, hi]
  | succ height ih =>
    rw [width_succ] at hi
    have hdiv : ∀ {i j}, i / 2 ^ height = j → i / 2 ^ (height + 1) = j / 2 := by
      intro i j hij
      rw [Nat.pow_succ, ← Nat.div_div_eq_div_mul, hij]
    obtain hv | ⟨feed₁, l, hl, hv⟩ := parse_succ_eq_ok h
    · simp [hv]
    · obtain ⟨hlsorted, hlmem⟩ := ih hl (by omega)
      have hleft : ∀ v ∈ l.visits, v.index / 2 ^ (height + 1) = index ∧ v.index < total := by
        intro v hv
        obtain ⟨hindex, hlt⟩ := hlmem v hv
        exact ⟨(hdiv hindex).trans (by omega), hlt⟩
      obtain hv | ⟨hright, r, hr, hv⟩ := hv
      · rw [hv]
        exact ⟨hlsorted, hleft⟩
      · obtain ⟨hrsorted, hrmem⟩ := ih hr hright
        rw [hv, List.pairwise_append]
        refine ⟨⟨hlsorted, hrsorted, fun v hv v' hv' => ?_⟩, fun v hv => ?_⟩
        · refine lt_of_not_ge fun hle => ?_
          have hmono := Nat.div_le_div_right (c := 2 ^ height) hle
          rw [(hlmem v hv).1, (hrmem v' hv').1] at hmono
          omega
        · obtain hv | hv := List.mem_append.mp hv
          · exact hleft v hv
          · obtain ⟨hindex, hlt⟩ := hrmem v hv
            exact ⟨(hdiv hindex).trans (by omega), hlt⟩

theorem mem_matched (p : Parse) (i : Nat) (a : Hash256) :
    (i, a) ∈ p.matched ↔ ⟨i, true, a⟩ ∈ p.visits := by
  simp only [Parse.matched, List.mem_map, List.mem_filter, Prod.mk.injEq]
  constructor
  · rintro ⟨⟨i, flag, a⟩, ⟨hmem, rfl⟩, rfl, rfl⟩
    exact hmem
  · exact fun hmem => ⟨_, ⟨hmem, rfl⟩, rfl, rfl⟩

theorem matched_append (hash : Hash256) (visits visits' : List Visit) (feed : Feed) :
    Parse.matched ⟨hash, visits ++ visits', feed⟩ =
      Parse.matched ⟨hash, visits, feed⟩ ++ Parse.matched ⟨hash, visits', feed⟩ := by
  simp [Parse.matched]

/-- The matched leaves come in the order of their positions. -/
theorem parse_matched (h : parse total height index feed = .ok p) (hi : index < width total height) :
    p.matched.Pairwise (·.1 < ·.1) ∧ ∀ m ∈ p.matched, m.1 < total := by
  obtain ⟨hsorted, hmem⟩ := parse_visits h hi
  refine ⟨?_, ?_⟩
  · rw [Parse.matched, List.pairwise_map]
    exact hsorted.filter _
  · rintro ⟨i, a⟩ hm
    exact (hmem _ ((mem_matched p i a).mp hm)).2

theorem parsePartial_eq_ok {complete : List Bool → Bool} {flags : List Bool} {hashes : List Hash256}
    {m : Matches} (hm : parsePartial complete total flags hashes = .ok m) :
    ∃ p, parse total (depthFor total) 0 ⟨flags, hashes⟩ = .ok p ∧ m.root = p.hash ∧
      m.matched = p.matched := by
  obtain ⟨p, hp, hm⟩ := exists_of_bind_eq_ok hm
  refine ⟨p, hp, ?_⟩
  split at hm
  · cases hm
  · split at hm
    · cases hm
      exact ⟨rfl, rfl⟩
    · cases hm

end BitcoinPeer.Merkle
