import BitcoinPeer.Proofs.Merkle.Flags
import BitcoinPeer.Proofs.Merkle.Parser
import BitcoinPeer.Proofs.Merkle.Walk

/-!
# The population is the parser

A walk that reads a partial tree from a node below which nothing is known does what `parse` does
there: it fails with the same error, or comes back to the parent with the hash the parser gives, the
same matches and the same rest to read (`Reader.followsAt`). No slot but those below the node
changes meanwhile. So filling a new tree is parsing.
-/

namespace BitcoinPeer.Merkle

open Digest (hashPair)

variable {total depth height index d i : Nat}

namespace Rows

/-- The slot at `(d, i)` is that of `(depth, index)` or below it. -/
def Below (depth index d i : Nat) : Prop :=
  depth ≤ d ∧ i / 2 ^ (d - depth) = index

/-- Nothing is known of a node and of what is below it. -/
def Blank (rows : Rows) (depth index : Nat) : Prop :=
  ∀ {d i}, Below depth index d i → ∀ a, rows.slot? d i ≠ some (some a)

variable {rows : Rows} {slot : Option Hash256}

theorem below_self (depth index : Nat) : Below depth index depth index := by
  simp [Below]

theorem Below.of_child {child : Nat} (hc : child / 2 = index) (h : Below (depth + 1) child d i) :
    Below depth index d i := by
  obtain ⟨hle, hdiv⟩ := h
  refine ⟨by omega, ?_⟩
  rw [show d - depth = (d - (depth + 1)) + 1 by omega, Nat.pow_succ, ← Nat.div_div_eq_div_mul, hdiv,
    hc]

theorem Blank.eq_none (h : rows.Blank depth index) (hslot : rows.slot? depth index = some slot) :
    slot = none := by
  cases slot with
  | none => rfl
  | some a => exact absurd hslot (h (below_self depth index) a)

/-- A child of a blank node is blank, also if other slots have changed. -/
theorem Blank.child {rows' : Rows} {child : Nat} (h : rows.Blank depth index) (hc : child / 2 = index)
    (hkeep : ∀ d i, Below (depth + 1) child d i → rows'.slot? d i = rows.slot? d i) :
    rows'.Blank (depth + 1) child := by
  intro d i hbelow a
  rw [hkeep d i hbelow]
  exact h (hbelow.of_child hc) a

end Rows

namespace Reader

open Rows (Below)

variable {r r' : Reader} {w' : Walk} {feed feed' : Feed} {a l : Hash256} {e : ProofError} {p : Parse}

/-! ### Single steps -/

theorem ends_of_error (ho : r.toWalk.Open total) (h : r.advance = some (.error e)) :
    Ends step r (r, .error e) :=
  .last (by simp [step, ho.root, h])

theorem steps_of_ok (ho : r.toWalk.Open total) (h : r.advance = some (.ok r')) :
    Steps step r r' :=
  .single (by simp [step, ho.root, h])

theorem ends_of_root (h : r.root = some (some a)) : Ends step r (r, .ok ()) :=
  .last (by simp [step, h])

theorem take_of_error (isMatch : Bool) (h : feed.nextHash = .error e) :
    r.take isMatch feed = some (.error e) := by
  simp [take, h]

theorem exists_take (ho : r.toWalk.Open total) (isMatch : Bool)
    (h : feed.nextHash = .ok (a, feed')) :
    ∃ r', r.take isMatch feed = some (.ok r') ∧ Walk.Settled total r.toWalk a r'.toWalk ∧
      r'.feed = feed' ∧
      r'.matched.toList = r.matched.toList ++ if isMatch then [(r.index, a)] else [] := by
  obtain ⟨w', hsettle, hs⟩ := ho.settle a
  refine ⟨_, by simp [take, h, hsettle]; rfl, hs, rfl, ?_⟩
  cases isMatch <;> simp

theorem advance_leaf (ho : r.toWalk.Open total) (hd : r.depth = depthFor total) :
    r.advance = match r.feed.nextFlag with
      | .error e => some (.error e)
      | .ok (flag, feed) => r.take flag feed := by
  have hleaf : r.isLeaf = true := by simp [ho.isLeaf, hd]
  simp only [advance, hleaf, if_true]
  rfl

theorem advance_unknown (ho : r.toWalk.Open total) (hd : r.depth < depthFor total)
    (hl : r.leftSlot = some none) :
    r.advance = match r.feed.nextFlag with
      | .error e => some (.error e)
      | .ok (true, feed) => some (.ok { r with toWalk := r.left, feed })
      | .ok (false, feed) => r.take false feed := by
  have hleaf : r.isLeaf = false := by simp [ho.isLeaf, hd.ne]
  simp only [advance, hleaf, hl]
  rfl

theorem advance_join (ho : r.toWalk.Open total) (hd : r.depth < depthFor total)
    (hl : r.leftSlot = some (some l)) (hjoin : r.join l = some w') :
    r.advance = some (.ok { r with toWalk := w' }) := by
  have hleaf : r.isLeaf = false := by simp [ho.isLeaf, hd.ne]
  simp [advance, hleaf, hl, hjoin]

/-! ### Reading a node -/

/-- What reading the node under the cursor comes to: the node's slot is filled, the cursor stands at
its parent, or still at the root, and only slots below the node have changed. -/
structure Read (total : Nat) (r : Reader) (p : Parse) (r' : Reader) : Prop
    extends Walk.Inside total r'.toWalk where
  depth : r'.depth = r.depth - 1
  index : r'.index = r.index / 2
  feed : r'.feed = p.feed
  matched : r'.matched.toList = r.matched.toList ++ p.matched
  here : r'.rows.slot? r.depth r.index = some (some p.hash)
  elsewhere : ∀ d i, ¬ Below r.depth r.index d i → r'.rows.slot? d i = r.rows.slot? d i

theorem Read.open (h : Read total r p r') (ho : r.toWalk.Open total) (hd : r.depth ≠ 0) :
    r'.toWalk.Open total where
  toInside := h.toInside
  path := by
    intro d k hdk
    rw [h.depth] at hdk
    have hnot : ¬ Below r.depth r.index d (r'.index / 2 ^ k) := by
      rintro ⟨hle, -⟩
      omega
    rw [h.elsewhere _ _ hnot, h.index, Nat.div_div_eq_div_mul, ← Nat.pow_succ']
    exact ho.path (by omega)

theorem read_of_settled (hs : Walk.Settled total r.toWalk p.hash r'.toWalk) (hfeed : r'.feed = p.feed)
    (hmatched : r'.matched.toList = r.matched.toList ++ p.matched) : Read total r p r' where
  toInside := hs.toInside
  depth := hs.depth
  index := hs.index
  feed := hfeed
  matched := hmatched
  here := hs.here
  elsewhere d i hnot := by
    rw [hs.slot, if_neg]
    rintro ⟨rfl, rfl⟩
    exact hnot (Rows.below_self _ _)

/-- The loop goes on from a node as the parser says. -/
def Follows (total : Nat) (r : Reader) : Except ProofError Parse → Prop
  | .error e => ∃ r', Ends step r (r', .error e)
  | .ok p => ∃ r', Steps step r r' ∧ Read total r p r'

/-- Reading the hash of a leaf, or of a node below which nothing is visited. -/
theorem follows_take (ho : r.toWalk.Open total) (isMatch : Bool) (visits : Hash256 → List Visit)
    (hvisits : ∀ a, Parse.matched ⟨a, visits a, feed⟩ = if isMatch then [(r.index, a)] else [])
    (h : r.advance = r.take isMatch feed) :
    Follows total r (do
      let (a, feed) ← feed.nextHash
      return ⟨a, visits a, feed⟩) := by
  cases hhash : feed.nextHash with
  | error e => exact ⟨r, ends_of_error ho (h.trans (take_of_error isMatch hhash))⟩
  | ok next =>
    obtain ⟨a, feed'⟩ := next
    obtain ⟨r', htake, hs, hfeed, hmatched⟩ := exists_take ho isMatch hhash
    refine ⟨r', steps_of_ok ho (h.trans htake), read_of_settled hs hfeed ?_⟩
    rw [hmatched, ← hvisits a]
    rfl

/-! ### Coming back to a node -/

/-- The walk `r'` is back at the node of `r`, with these matches from below it. -/
structure Back (total : Nat) (r : Reader) (matched : List (Nat × Hash256)) (r' : Reader) : Prop where
  isOpen : r'.toWalk.Open total
  depth : r'.depth = r.depth
  index : r'.index = r.index
  matched : r'.matched.toList = r.matched.toList ++ matched
  elsewhere : ∀ d i, ¬ Below r.depth r.index d i → r'.rows.slot? d i = r.rows.slot? d i

/-- Reading a child leads back to its parent. -/
theorem Read.back {child : Reader} (h : Read total child p r') (ho : child.toWalk.Open total)
    (hdepth : child.depth = r.depth + 1) (hindex : child.index / 2 = r.index)
    (hrows : child.rows = r.rows) (hmatched : child.matched = r.matched) :
    Back total r p.matched r' where
  isOpen := h.open ho (by omega)
  depth := by rw [h.depth, hdepth, Nat.add_sub_cancel]
  index := by rw [h.index, hindex]
  matched := by rw [h.matched, hmatched]
  elsewhere d i hnot := by
    rw [h.elsewhere d i fun hbelow => hnot ((hdepth ▸ hbelow).of_child hindex), hrows]

theorem Back.trans {r'' : Reader} {m m' : List (Nat × Hash256)} (h : Back total r m r')
    (h' : Back total r' m' r'') : Back total r (m ++ m') r'' where
  isOpen := h'.isOpen
  depth := h'.depth.trans h.depth
  index := h'.index.trans h.index
  matched := by rw [h'.matched, h.matched, List.append_assoc]
  elsewhere d i hnot := by
    have hnot' : ¬ Below r'.depth r'.index d i := by rwa [h.depth, h.index]
    rw [h'.elsewhere d i hnot', h.elsewhere d i hnot]

/-- Back at a node whose children are known, the walk settles it. -/
theorem Back.read (h : Back total r p.matched r') (hd : r.depth < depthFor total)
    (hfeed : r'.feed = p.feed) (ha : r'.rows.childHash r.depth r.index = some p.hash) :
    ∃ r'', Steps step r' r'' ∧ Read total r p r'' := by
  obtain ⟨l, hl, -⟩ := Rows.childHash_eq_some_iff.mp ha
  have hleft : r'.leftSlot = some (some l) := by rw [Walk.leftSlot, h.depth, h.index, hl]
  rw [← h.depth] at hd
  rw [← h.depth, ← h.index] at ha
  obtain ⟨w', hjoin, hs⟩ := h.isOpen.join_settle hd hleft ha
  refine ⟨{ r' with toWalk := w' }, steps_of_ok h.isOpen (advance_join h.isOpen hd hleft hjoin),
    hs.toInside, ?_, ?_, hfeed, h.matched, ?_, fun d i hnot => ?_⟩
  · rw [hs.depth, h.depth]
  · rw [hs.index, h.index]
  · rw [← h.depth, ← h.index, hs.here]
  · have hne : ¬(d = r'.depth ∧ i = r'.index) := by
      rintro ⟨rfl, rfl⟩
      rw [h.depth, h.index] at hnot
      exact hnot (Rows.below_self _ _)
    rw [hs.slot, if_neg hne, h.elsewhere d i hnot]

/-- The loop follows the parser from every blank node so many levels above the leaves. -/
def FollowsAt (total height : Nat) : Prop :=
  ∀ r : Reader, r.toWalk.Open total → r.depth + height = depthFor total →
    r.rows.Blank r.depth r.index → Follows total r (parse total height r.index r.feed)

/-- Reading the right child after the left one. -/
theorem Back.follows_right {height : Nat} {l : Parse} (h : Back total r l.matched r')
    (hstart : Steps step r r') (hd : r.depth + (height + 1) = depthFor total)
    (hfeed : r'.feed = l.feed)
    (hl : r'.rows.slot? (r.depth + 1) (2 * r.index) = some (some l.hash))
    (hr : r'.rows.slot? (r.depth + 1) (2 * r.index + 1) = some none)
    (hblank : r'.rows.Blank (r.depth + 1) (2 * r.index + 1)) (ih : FollowsAt total height) :
    Follows total r (do
      let r ← parse total height (2 * r.index + 1) l.feed
      return ⟨hashPair l.hash r.hash, l.visits ++ r.visits, r.feed⟩) := by
  -- everything below is about `r'`, whose node is that of `r`
  rw [← h.depth, ← h.index] at hl hr hblank
  rw [← h.depth] at hd
  have hlt : r'.depth < depthFor total := by omega
  have hjoin := h.isOpen.join_right hlt hr l.hash
  have hnext := hstart.trans (steps_of_ok h.isOpen (advance_join h.isOpen hlt hl hjoin))
  have hopen := h.isOpen.right hr
  have hread := ih { r' with toWalk := r'.right } hopen (by simp only [Walk.right]; omega) hblank
  have hparse : parse total height r'.right.index r'.feed =
      parse total height (2 * r.index + 1) l.feed := by
    rw [Walk.right, h.index, hfeed]
  change Follows total ⟨r'.right, r'.matched, r'.feed⟩ (parse total height r'.right.index r'.feed)
    at hread
  rw [hparse] at hread
  cases hp : parse total height (2 * r.index + 1) l.feed with
  | error e =>
    rw [hp] at hread
    obtain ⟨r'', hr''⟩ := hread
    exact ⟨r'', Steps.ends hnext hr''⟩
  | ok p =>
    rw [hp] at hread
    obtain ⟨r'', hsteps, hread⟩ := hread
    have hback : Back total r' p.matched r'' :=
      hread.back hopen rfl (show (2 * r'.index + 1) / 2 = r'.index by omega) rfl rfl
    -- the left child is still known after the right one was read
    have hnot : ¬ Below (r'.depth + 1) (2 * r'.index + 1) (r'.depth + 1) (2 * r'.index) := by
      rintro ⟨-, hdiv⟩
      rw [Nat.sub_self, Nat.pow_zero, Nat.div_one] at hdiv
      omega
    have hl' : r''.rows.slot? (r'.depth + 1) (2 * r'.index) = some (some l.hash) :=
      (hread.elsewhere _ _ hnot).trans hl
    have hchild : r''.rows.childHash r.depth r.index = some (hashPair l.hash p.hash) := by
      rw [← h.depth, ← h.index]
      exact Rows.childHash_eq_some_iff.mpr ⟨l.hash, hl', .inr ⟨p.hash, hread.here, rfl⟩⟩
    have hboth : Back total r (Parse.matched ⟨hashPair l.hash p.hash, l.visits ++ p.visits, p.feed⟩)
        r'' := by
      rw [matched_append]
      exact h.trans hback
    obtain ⟨r₃, hlast, hread₃⟩ := hboth.read (by rw [← h.depth]; exact hlt) hread.feed hchild
    exact ⟨r₃, (hnext.trans hsteps).trans hlast, hread₃⟩

/-- Reading the children of a blank node whose flag is on. -/
theorem follows_children {height : Nat} (ho : r.toWalk.Open total)
    (hd : r.depth + (height + 1) = depthFor total) (hblank : r.rows.Blank r.depth r.index)
    (hadvance : r.advance = some (.ok { r with toWalk := r.left, feed }))
    (hleft : r.leftSlot = some none) (ih : FollowsAt total height) :
    Follows total r (do
      let l ← parse total height (2 * r.index) feed
      if 2 * r.index + 1 < width total height then
        let r ← parse total height (2 * r.index + 1) l.feed
        return ⟨hashPair l.hash r.hash, l.visits ++ r.visits, r.feed⟩
      else return ⟨hashPair l.hash l.hash, l.visits, l.feed⟩) := by
  have hfirst := steps_of_ok ho hadvance
  have hopen := ho.left hleft
  have hread := ih { r with toWalk := r.left, feed } hopen (by simp only [Walk.left]; omega)
    (hblank.child (Nat.mul_div_cancel_left _ Nat.two_pos) fun _ _ _ => rfl)
  change Follows total _ (parse total height (2 * r.index) feed) at hread
  cases hl : parse total height (2 * r.index) feed with
  | error e =>
    rw [hl] at hread
    obtain ⟨r', hr'⟩ := hread
    exact ⟨r', hfirst.ends hr'⟩
  | ok l =>
    rw [hl] at hread
    obtain ⟨r', hsteps, hread⟩ := hread
    have hback : Back total r l.matched r' :=
      hread.back hopen rfl (Nat.mul_div_cancel_left _ Nat.two_pos) rfl rfl
    have hslot : r'.rows.slot? (r.depth + 1) (2 * r.index) = some (some l.hash) := hread.here
    have hiff := hback.isOpen.shaped.isSome_iff
      (show r.depth + 1 + height = depthFor total by omega) (2 * r.index + 1)
    show Follows total r (if 2 * r.index + 1 < width total height then _ else _)
    by_cases hlt : 2 * r.index + 1 < width total height
    · rw [if_pos hlt]
      -- the right child is still blank after the left one was read
      have hkeep : ∀ d i, Below (r.depth + 1) (2 * r.index + 1) d i →
          r'.rows.slot? d i = r.rows.slot? d i := by
        rintro d i ⟨hle, hdiv⟩
        refine hread.elsewhere d i fun hbelow => ?_
        have heq : 2 * r.index = 2 * r.index + 1 := hbelow.2.symm.trans hdiv
        omega
      have hblankRight : r'.rows.Blank (r.depth + 1) (2 * r.index + 1) :=
        hblank.child (by omega) hkeep
      obtain ⟨slot, hr⟩ := Option.isSome_iff_exists.mp (hiff.mpr hlt)
      obtain rfl := hblankRight.eq_none hr
      exact hback.follows_right (hfirst.trans hsteps) hd hread.feed hslot hr hblankRight ih
    · rw [if_neg hlt]
      have hnone : r'.rows.slot? (r.depth + 1) (2 * r.index + 1) = none := by
        rwa [← hiff, Bool.not_eq_true, Option.isSome_eq_false_iff, Option.isNone_iff_eq_none] at hlt
      have hchild : r'.rows.childHash r.depth r.index = some (hashPair l.hash l.hash) :=
        Rows.childHash_eq_some_iff.mpr ⟨l.hash, hslot, .inl ⟨hnone, rfl⟩⟩
      obtain ⟨r'', hlast, hread'⟩ := Back.read
        (p := ⟨hashPair l.hash l.hash, l.visits, l.feed⟩) hback (by omega) hread.feed hchild
      exact ⟨r'', (hfirst.trans hsteps).trans hlast, hread'⟩

/-- **One node**: from a blank node the loop follows the parser. -/
theorem followsAt (total height : Nat) : FollowsAt total height := by
  induction height with
  | zero =>
    intro r ho hd _
    have hadvance := advance_leaf ho hd
    rw [parse_zero]
    cases hflag : r.feed.nextFlag with
    | error e =>
      rw [hflag] at hadvance
      exact ⟨r, ends_of_error ho hadvance⟩
    | ok next =>
      obtain ⟨flag, feed⟩ := next
      rw [hflag] at hadvance
      refine follows_take ho flag (fun a => [⟨r.index, flag, a⟩]) (fun a => ?_) hadvance
      cases flag <;> rfl
  | succ height ih =>
    intro r ho hd hblank
    have hlt : r.depth < depthFor total := by omega
    -- the left child is unknown, so the loop reads a flag here as the parser does
    obtain ⟨slot, hslot⟩ := Option.isSome_iff_exists.mp (ho.leftSlot hlt)
    have hblankLeft : r.rows.Blank (r.depth + 1) (2 * r.index) :=
      hblank.child (by omega) fun _ _ _ => rfl
    obtain rfl := hblankLeft.eq_none hslot
    have hadvance := advance_unknown ho hlt hslot
    rw [parse_succ]
    cases hflag : r.feed.nextFlag with
    | error e =>
      rw [hflag] at hadvance
      exact ⟨r, ends_of_error ho hadvance⟩
    | ok next =>
      obtain ⟨flag, feed⟩ := next
      rw [hflag] at hadvance
      cases flag with
      | false => exact follows_take ho false (fun _ => []) (fun _ => rfl) hadvance
      | true => exact follows_children ho hd hblank hadvance hslot ih

end Reader

/-! ### Filling a new tree -/

namespace Tree

theorem open_new (h : 0 < total) : (walk ⟨total, Rows.empty total⟩).Open total := by
  have hone := width_depthFor h
  exact Walk.open_walk (Rows.shaped_empty h) (Rows.slot?_empty (Nat.zero_add _) (by omega))

theorem blank_empty (total : Nat) : (Rows.empty total).Blank depth index :=
  fun _ => Rows.slot?_empty_ne total _ _

/-- The walk over a new tree ends as the parser does. -/
theorem exists_populated? (h : 0 < total) (flags : List Bool) (hashes : List Hash256)
    {tail : List Bool → Except ProofError Unit} {complete : List Bool → Bool}
    (htail : ∀ rest, tail rest =
      if complete rest then .ok () else .error (.unconsumedFlags rest.length)) :
    ∃ last t, Ends Reader.step (reader ⟨total, Rows.empty total⟩ flags hashes) last ∧
      populated? tail ⟨total, Rows.empty total⟩ flags hashes =
        some (t, parsePartial complete total flags hashes) := by
  have hfollows := Reader.followsAt total (depthFor total)
    (reader ⟨total, Rows.empty total⟩ flags hashes) (open_new h) (Nat.zero_add _) (blank_empty total)
  change Reader.Follows total _ (parse total (depthFor total) 0 ⟨flags, hashes⟩) at hfollows
  rw [parsePartial]
  cases hp : parse total (depthFor total) 0 ⟨flags, hashes⟩ with
  | error e =>
    rw [hp] at hfollows
    obtain ⟨r, hr⟩ := hfollows
    exact ⟨_, _, hr, by rw [populated?, hr.repeatM_eq]; rfl⟩
  | ok p =>
    rw [hp] at hfollows
    obtain ⟨r, hsteps, hread⟩ := hfollows
    have hroot : r.root = some (some p.hash) := hread.here
    have hend := hsteps.ends (Reader.ends_of_root hroot)
    have hmatched : r.matched.toList = p.matched := hread.matched
    have hfound : r.found tail = if 0 < p.feed.hashes.length
        then .error (.unconsumedHashes p.feed.hashes.length)
        else if complete p.feed.flags then .ok ⟨p.hash, p.matched⟩
        else .error (.unconsumedFlags p.feed.flags.length) := by
      rw [Reader.found, hread.feed, hroot, hmatched, htail]
      by_cases hrest : p.feed.hashes.length = 0
      · cases complete p.feed.flags <;> simp [hrest]
      · simp [hrest, Nat.pos_of_ne_zero hrest]
    refine ⟨_, ⟨total, r.rows⟩, hend, ?_⟩
    rw [populated?, hend.repeatM_eq]
    exact congrArg _ (congrArg _ hfound)

theorem noTail_eq (rest : List Bool) :
    noTail rest = if rest.isEmpty then .ok () else .error (.unconsumedFlags rest.length) := by
  cases rest <;> rfl

theorem paddingTail_eq (rest : List Bool) :
    paddingTail rest = if isPadding rest then .ok () else .error (.unconsumedFlags rest.length) := by
  have hiff : (8 ≤ rest.length ∨ rest.any id = true) ↔ ¬ isPadding rest = true := by
    simp [isPadding, imp_iff_not_or]
  rw [paddingTail, ← ite_not]
  simp only [hiff, not_not]

end Tree

/-- **Filling a new tree is parsing**: with flags or with packed flags, the walk ends without ever
leaving the rows, and it fails or succeeds as the parser does. On success the matches are the visited
leaves whose flag is on, in the order of their positions. -/
theorem populate_eq_parsePartial (total : Nat) (h : 0 < total) (flags : List Bool)
    (hashes : List Hash256) (bytes : Bytes) :
    ∃ fresh, Tree.new total = .ok fresh ∧
      (∃ last t, Ends Reader.step (fresh.reader flags hashes) last ∧
        fresh.populated? Tree.noTail flags hashes =
          some (t, parsePartial List.isEmpty total flags hashes)) ∧
      (fresh.populate flags hashes).2 = parsePartial List.isEmpty total flags hashes ∧
      (∃ last t, Ends Reader.step (fresh.reader (unpackFlags bytes) hashes) last ∧
        fresh.populated? Tree.paddingTail (unpackFlags bytes) hashes =
          some (t, parsePartial isPadding total (unpackFlags bytes) hashes)) ∧
      (fresh.populateFromBytes bytes hashes).2 =
        parsePartial isPadding total (unpackFlags bytes) hashes ∧
      (unpackFlags bytes).length = 8 * bytes.length ∧
      (∀ k, ∀ j < 8, (unpackFlags bytes)[8 * k + j]? = bytes[k]?.map (·.toNat.testBit j)) ∧
      ∀ complete flags m, parsePartial complete total flags hashes = .ok m →
        ∃ p, parse total (depthFor total) 0 ⟨flags, hashes⟩ = .ok p ∧ m.root = p.hash ∧
          m.matched.Pairwise (·.1 < ·.1) ∧
          ∀ i a, ((i, a) ∈ m.matched ↔ ⟨i, true, a⟩ ∈ p.visits) ∧
            ((i, a) ∈ m.matched → i < total) := by
  obtain ⟨last, t, hlast, ht⟩ := Tree.exists_populated? h flags hashes Tree.noTail_eq
  obtain ⟨last', t', hlast', ht'⟩ :=
    Tree.exists_populated? h (unpackFlags bytes) hashes Tree.paddingTail_eq
  refine ⟨_, if_neg h.ne', ⟨last, t, hlast, ht⟩, ?_, ⟨last', t', hlast', ht'⟩, ?_,
    length_unpackFlags bytes, fun k j hj => getElem?_unpackFlags bytes k hj,
    fun complete flags m hm => ?_⟩
  · rw [Tree.populate, ht, Option.get!_some]
  · rw [Tree.populateFromBytes, ht', Option.get!_some]
  · obtain ⟨p, hp, hroot, hmatched⟩ := parsePartial_eq_ok hm
    have hone := width_depthFor h
    obtain ⟨hsorted, hlt⟩ := parse_matched hp (by omega)
    rw [hmatched]
    exact ⟨p, hp, hroot, hsorted, fun i a => ⟨mem_matched p i a, fun hmem => hlt _ hmem⟩⟩

/-- The hash that is this number. -/
def numbered (n : Nat) : Hash256 :=
  ⟨.ofNatLE 32 n⟩

/-- Three leaves, of which the last one is matched: its parent has no right child. -/
theorem populate_eq_parsePartial_three :
    0 < 3 ∧ ∃ fresh, Tree.new 3 = .ok fresh ∧
      (fresh.populate [true, false, true, true] [numbered 5, numbered 7]).2 =
        .ok ⟨hashPair (numbered 5) (hashPair (numbered 7) (numbered 7)), [(2, numbered 7)]⟩ := by
  refine ⟨by decide, ?_⟩
  obtain ⟨fresh, hnew, -, hpopulate, -⟩ := populate_eq_parsePartial 3 (by decide)
    [true, false, true, true] [numbered 5, numbered 7] []
  exact ⟨fresh, hnew, hpopulate.trans rfl⟩

end BitcoinPeer.Merkle
