import BitcoinPeer.Merkle.Branch
import BitcoinPeer.Proofs.Merkle.Binding

/-!
# Trees that are filled again

A population that fails leaves a half-filled tree, and the next one starts at its root once more. All
that a walk needs of such a tree is that its rows have the right sizes and that its known nodes are
the hashes of their known children (`Tree.Sound`). For as long as the root is unknown, a walk that
starts there is open, whatever is known below: the cursor only ever goes down to an unknown slot. So
every step of the walk has a result (`Reader.step_of_open`), moves lower its weight as they do in a new
tree, and the rows that it leaves are sound again and hold all that was known before
(`Rows.Extends`).
-/

namespace BitcoinPeer.Merkle

open Digest (hashPair)

variable {total depth height index : Nat} {rows rows' rows'' : Rows} {leaves : List Hash256} {t : Tree}

/-! ### Loops that end soon -/

section loops
variable {σ ρ : Type} {step : σ → Option (σ ⊕ ρ)} {s : σ} {r : ρ}

/-- What a loop gives, if it ends within so many steps. -/
def within? (step : σ → Option (σ ⊕ ρ)) : (fuel : Nat) → σ → Option ρ
  | 0, _ => none
  | fuel + 1, s =>
    match step s with
    | some (.inl s') => within? step fuel s'
    | some (.inr r) => some r
    | none => none

theorem ends_of_within? {fuel : Nat} (h : within? step fuel s = some r) : Ends step s r := by
  induction fuel generalizing s with
  | zero => cases h
  | succ fuel ih =>
    unfold within? at h
    split at h
    next s' hnext => exact .next hnext (ih h)
    next r' hlast =>
      cases h
      exact .last hlast
    · cases h

end loops

/-! ### Rows that are known in part -/

namespace Rows

/-- A known node whose left child is known is the hash of its children, or of its left child with
itself if there is no right one. -/
def Consistent (rows : Rows) : Prop :=
  ∀ d i a l, rows.slot? d i = some (some a) → rows.slot? (d + 1) (2 * i) = some (some l) →
    rows.slot? (d + 1) (2 * i + 1) = none ∧ a = hashPair l l ∨
      ∃ r, rows.slot? (d + 1) (2 * i + 1) = some (some r) ∧ a = hashPair l r

theorem consistent_iff_traced : rows.Consistent ↔ rows.Traced fun _ => True := by
  constructor
  · rintro h d i a ha ⟨l, hl⟩
    obtain ⟨hr, heq⟩ | ⟨r, hr, heq⟩ := h d i a l ha hl
    · exact ⟨(l, l), trivial, pair?_eq_some_iff.mpr ⟨hl, .inl ⟨hr, rfl⟩⟩, heq⟩
    · exact ⟨(l, r), trivial, pair?_eq_some_iff.mpr ⟨hl, .inr hr⟩, heq⟩
  · intro h d i a l ha hl
    obtain ⟨⟨l', r⟩, -, hp, heq⟩ := h d i a ha ⟨l, hl⟩
    obtain ⟨hl', hr⟩ := pair?_eq_some_iff.mp hp
    obtain rfl : l = l' := Option.some.inj (Option.some.inj (hl.symm.trans hl'))
    rcases hr with ⟨hr, htwice⟩ | hr
    · obtain rfl : r = l := htwice
      exact .inl ⟨hr, heq⟩
    · exact .inr ⟨r, hr, heq⟩

/-- The rows have as many slots as before, and all that was known is still the same. -/
structure Extends (rows rows' : Rows) : Prop where
  size : ∀ d, rows'.size? d = rows.size? d
  known : ∀ d i a, rows.slot? d i = some (some a) → rows'.slot? d i = some (some a)

theorem Extends.refl (rows : Rows) : rows.Extends rows :=
  ⟨fun _ => rfl, fun _ _ _ ha => ha⟩

theorem Extends.trans (h : rows.Extends rows') (h' : rows'.Extends rows'') : rows.Extends rows'' where
  size d := (h'.size d).trans (h.size d)
  known d i a ha := h'.known d i a (h.known d i a ha)

/-- The sizes of all rows follow from the number of leaves. -/
theorem Shaped.size?_eq (h : rows.Shaped total) (h' : rows'.Shaped total) (d : Nat) :
    rows'.size? d = rows.size? d := by
  by_cases hd : d ≤ depthFor total
  · rw [h.row (Nat.add_sub_of_le hd), h'.row (Nat.add_sub_of_le hd)]
  · rw [size?, size?, h.getElem?_eq_none (not_le.mp hd), h'.getElem?_eq_none (not_le.mp hd)]

end Rows

/-! ### Reading -/

namespace Walk

variable {w w' : Walk}

theorem Move.weight_lt (h : Move total w w') (ho : w.Open total) :
    w'.weight total < w.weight total := by
  cases h with
  | left hl => exact ho.weight_left hl
  | right _ hr => exact ho.weight_right hr
  | given _ hs => exact hs.weight_lt ho
  | joined _ hs => exact hs.weight_lt ho

theorem Move.extends (h : Move total w w') (ho : w.Open total) : w.rows.Extends w'.rows where
  size := ho.shaped.size?_eq (h.shaped ho)
  known d i a ha := by rw [h.slot?_eq ho (by simp [ha]), ha]

theorem Move.consistent (h : Move total w w') (ho : w.Open total) (hrows : w.rows.Consistent) :
    w'.rows.Consistent := by
  rw [Rows.consistent_iff_traced] at hrows ⊢
  exact h.traced ho hrows fun _ _ => trivial

end Walk

namespace Reader

variable {r : Reader}

theorem exists_take_eq (ho : r.toWalk.Open total) (isMatch : Bool) (feed : Feed) :
    ∃ result, r.take isMatch feed = some result := by
  cases hhash : feed.nextHash with
  | error e => exact ⟨_, take_of_error isMatch hhash⟩
  | ok next =>
    obtain ⟨r', htake, -⟩ := exists_take ho isMatch hhash
    exact ⟨_, htake⟩

/-- An open reader can go on or fail, whatever is known below its cursor. -/
theorem exists_advance (ho : r.toWalk.Open total) : ∃ result, r.advance = some result := by
  by_cases hd : r.depth = depthFor total
  · rw [advance_leaf ho hd]
    cases r.feed.nextFlag with
    | error e => exact ⟨_, rfl⟩
    | ok next => exact exists_take_eq ho next.1 next.2
  · have hlt : r.depth < depthFor total := lt_of_le_of_ne ho.depth_le hd
    obtain ⟨slot, hslot⟩ := Option.isSome_iff_exists.mp (ho.leftSlot hlt)
    cases slot with
    | none =>
      rw [advance_unknown ho hlt hslot]
      cases r.feed.nextFlag with
      | error e => exact ⟨_, rfl⟩
      | ok next =>
        obtain ⟨flag, feed⟩ := next
        cases flag with
        | true => exact ⟨_, rfl⟩
        | false => exact exists_take_eq ho false feed
    | some l =>
      obtain ⟨w', hjoin, -⟩ := ho.exists_join hlt hslot
      exact ⟨_, advance_join ho hlt hslot hjoin⟩

/-- **One step** of an open reader: a move, or the end with an error and the rows as they are. -/
theorem step_of_open (ho : r.toWalk.Open total) :
    (∃ r', r.step = some (.inl r') ∧ Walk.Move total r.toWalk r'.toWalk) ∨
      ∃ e, r.step = some (.inr (r, .error e)) := by
  obtain ⟨result, hadvance⟩ := exists_advance ho
  cases result with
  | error e => exact .inr ⟨e, by simp [step, ho.root, hadvance]⟩
  | ok r' =>
    have hstep : r.step = some (.inl r') := by simp [step, ho.root, hadvance]
    exact .inl ⟨r', hstep, (move_of_step ho hstep).1⟩

/-- The invariant of a reading that started from some rows. -/
structure Refilling (total : Nat) (rows : Rows) (r : Reader) : Prop where
  shaped : r.rows.Shaped total
  open_or_done : r.toWalk.Open total ∨ r.toWalk.Done
  consistent : r.rows.Consistent
  kept : rows.Extends r.rows

theorem Refilling.step (h : r.Refilling total rows) :
    (∃ r', r.step = some (.inl r') ∧ r'.Refilling total rows ∧
      r'.toWalk.weight total < r.toWalk.weight total) ∨
      ∃ outcome, r.step = some (.inr (r, outcome)) := by
  rcases h.open_or_done with ho | hdone
  · rcases step_of_open ho with ⟨r', hstep, hmove⟩ | ⟨e, hstep⟩
    · exact .inl ⟨r', hstep, ⟨hmove.shaped ho, hmove.open_or_done ho,
        hmove.consistent ho h.consistent, h.kept.trans (hmove.extends ho)⟩, hmove.weight_lt ho⟩
    · exact .inr ⟨_, hstep⟩
  · exact .inr ⟨_, step_of_done hdone⟩

/-- **The whole loop** ends, and leaves rows of which the invariant holds. -/
theorem Refilling.exists_ends (h : r.Refilling total rows) :
    ∃ last, Ends Reader.step r last ∧ last.1.Refilling total rows := by
  refine Merkle.exists_ends (Refilling total rows) (fun r => r.toWalk.weight total)
    (fun last : Reader × Except ProofError Unit => last.1.Refilling total rows) ?_ r h
  intro r hr
  rcases hr.step with hnext | ⟨outcome, hlast⟩
  · exact .inl hnext
  · exact .inr ⟨_, hlast, hr⟩

end Reader

/-! ### Climbing -/

/-- The entry for a step up, or the error that the hash for it is unknown. -/
theorem Walk.Inside.exists_entry {w : Walk} (h : w.Inside total)
    (hd : w.depth + (height + 1) = depthFor total) (hi : w.index < width total (height + 1))
    (fromLeft : Bool) : ∃ result, w.entry fromLeft = some result := by
  obtain ⟨left, hleft⟩ := Option.isSome_iff_exists.mp (h.leftSlot hd hi)
  have hright := h.hasRight (show w.depth < depthFor total by omega)
  cases left with
  | none => exact ⟨.error .emptyTree, by simp [entry, hleft, BranchEntry.ofSlot]⟩
  | some a =>
    cases hslot : w.rightSlot with
    | none => exact ⟨.ok ⟨a, .left⟩, by simp [entry, hleft, hright, hslot, BranchEntry.ofSlot]⟩
    | some right => cases fromLeft with
      | false => exact ⟨.ok ⟨a, .left⟩, by simp [entry, hleft, hright, BranchEntry.ofSlot]⟩
      | true =>
        exact ⟨BranchEntry.ofSlot right .right,
          by simp [entry, hleft, hright, hslot, BranchEntry.ofSlot]⟩

/-- From every slot, known or not, the climb to the root stays inside the rows. -/
theorem Rows.Shaped.exists_entries (h : rows.Shaped total) (hd : depth + height = depthFor total)
    (hi : index < width total height) :
    ∃ result, Walk.entries (depthFor total) rows depth index = some result := by
  induction depth generalizing height index with
  | zero =>
    obtain rfl : index = 0 := by
      rw [Nat.zero_add] at hd
      rwa [hd, width_depthFor h.pos, Nat.lt_one_iff] at hi
    exact ⟨_, rfl⟩
  | succ depth ih =>
    have hup : depth + (height + 1) = depthFor total := by omega
    have hparent : index / 2 < width total (height + 1) := by
      rw [width_succ]
      omega
    have hinside : (Walk.mk (depthFor total) rows depth (index / 2)).Inside total := ⟨h, rfl⟩
    obtain ⟨first, hfirst⟩ := hinside.exists_entry hup hparent (index % 2 == 0)
    obtain ⟨rest, hrest⟩ := ih hup hparent
    cases first with
    | error e => exact ⟨_, by simp [Walk.entries, hfirst]; rfl⟩
    | ok entry => exact ⟨_, by simp [Walk.entries, hfirst, hrest]; rfl⟩

/-! ### Calls -/

namespace Tree

/-- What may be asked of a tree again and again. -/
inductive Call where
  | populate (flags : List Bool) (hashes : List Hash256)
  | populateFromBytes (flags : Bytes) (hashes : List Hash256)
  | branch (position : Nat)

/-- The tree that a call leaves, whether it succeeds or fails. A branch is only read off. -/
def Call.apply (t : Tree) : Call → Tree
  | populate flags hashes => (t.populate flags hashes).1
  | populateFromBytes flags hashes => (t.populateFromBytes flags hashes).1
  | branch _ => t

/-- The tree that calls leave, made one after the other. -/
def after (t : Tree) (calls : List Call) : Tree :=
  calls.foldl Call.apply t

theorem after_append (t : Tree) (calls more : List Call) :
    t.after (calls ++ more) = (t.after calls).after more :=
  List.foldl_append

/-- The call comes to an end without ever leaving the rows: its walk takes finitely many steps, and
every step finds the slots that it looks at. -/
def Call.Completes (t : Tree) : Call → Prop
  | populate flags hashes => (∃ last, Ends Reader.step (t.reader flags hashes) last) ∧
      t.populated? noTail flags hashes = some (t.populate flags hashes)
  | populateFromBytes flags hashes =>
      (∃ last, Ends Reader.step (t.reader (unpackFlags flags) hashes) last) ∧
      t.populated? paddingTail (unpackFlags flags) hashes = some (t.populateFromBytes flags hashes)
  | branch position => t.branch? position = some (t.branch position)

/-- The rows have the right sizes, and known nodes are the hashes of their known children. -/
structure Sound (t : Tree) : Prop where
  shaped : t.rows.Shaped t.total
  consistent : t.rows.Consistent

theorem Sound.refilling (h : t.Sound) (flags : List Bool) (hashes : List Hash256) :
    (t.reader flags hashes).Refilling t.total t.rows where
  shaped := h.shaped
  open_or_done := by
    have hone := width_depthFor h.shaped.pos
    have hroot := (h.shaped.isSome_iff (Nat.zero_add _) 0).mpr (by omega)
    obtain ⟨slot, hslot⟩ := Option.isSome_iff_exists.mp hroot
    -- the root alone decides: what an earlier call has filled below it is not on the cursor's path
    cases slot with
    | none => exact .inl (Walk.open_walk h.shaped hslot)
    | some a => exact .inr ⟨rfl, rfl, a, hslot⟩
  consistent := h.consistent
  kept := .refl t.rows

/-- A population of a sound tree, new or half-filled, ends, and it leaves a sound tree. -/
theorem Sound.populated (h : t.Sound) (tail : List Bool → Except ProofError Unit)
    (flags : List Bool) (hashes : List Hash256) :
    (∃ last, Ends Reader.step (t.reader flags hashes) last) ∧
      t.populated? tail flags hashes = some (t.populated? tail flags hashes).get! ∧
      (t.populated? tail flags hashes).get!.1.Sound ∧
      t.rows.Extends (t.populated? tail flags hashes).get!.1.rows := by
  obtain ⟨last, hends, hlast⟩ := (h.refilling flags hashes).exists_ends
  have heq : t.populated? tail flags hashes =
      some ({ t with rows := last.1.rows }, last.2.bind fun _ => last.1.found tail) := by
    rw [populated?, hends.repeatM_eq]
    rfl
  rw [heq, Option.get!_some]
  exact ⟨⟨last, hends⟩, rfl, ⟨hlast.shaped, hlast.consistent⟩, hlast.kept⟩

theorem Sound.exists_branch? (h : t.Sound) (position : Nat) :
    ∃ result, t.branch? position = some result := by
  by_cases hpos : t.total ≤ position
  · exact ⟨_, if_pos hpos⟩
  · have hleaf : position < width t.total 0 := by
      rw [width_zero]
      omega
    obtain ⟨result, hresult⟩ :=
      h.shaped.exists_entries (show t.maxDepth + 0 = depthFor t.total from rfl) hleaf
    refine ⟨result, ?_⟩
    rw [branch?, if_neg hpos]
    exact hresult

/-- **One call** completes, and leaves a sound tree in which no less is known. -/
theorem Sound.call (h : t.Sound) (call : Call) :
    call.Completes t ∧ (call.apply t).Sound ∧ t.rows.Extends (call.apply t).rows := by
  cases call with
  | populate flags hashes =>
    obtain ⟨hends, hresult, hsound, hkept⟩ := h.populated noTail flags hashes
    exact ⟨⟨hends, hresult⟩, hsound, hkept⟩
  | populateFromBytes flags hashes =>
    obtain ⟨hends, hresult, hsound, hkept⟩ := h.populated paddingTail (unpackFlags flags) hashes
    exact ⟨⟨hends, hresult⟩, hsound, hkept⟩
  | branch position =>
    obtain ⟨result, hresult⟩ := h.exists_branch? position
    refine ⟨?_, h, .refl t.rows⟩
    rw [Call.Completes, branch, hresult, Option.get!_some]

/-- **Any calls**, one after the other, do the same. -/
theorem Sound.calls (h : t.Sound) (calls : List Call) :
    (t.after calls).Sound ∧ t.rows.Extends (t.after calls).rows := by
  induction calls generalizing t with
  | nil => exact ⟨h, .refl t.rows⟩
  | cons call calls ih =>
    obtain ⟨-, hsound, hkept⟩ := h.call call
    obtain ⟨hafter, hkeptAfter⟩ := ih hsound
    exact ⟨hafter, hkept.trans hkeptAfter⟩

/-! ### Trees that are made -/

theorem sound_of_new (h : Tree.new total = .ok t) : t.Sound := by
  unfold Tree.new at h
  split at h
  · cases h
  next hpos =>
    cases h
    refine ⟨Rows.shaped_empty (Nat.pos_of_ne_zero hpos), ?_⟩
    intro d i a l ha
    exact absurd ha (Rows.slot?_empty_ne total d i a)

theorem Full.sound (h : t.Full leaves) : t.Sound := by
  refine ⟨h.total ▸ h.shaped, ?_⟩
  intro d i a l ha hl
  obtain ⟨height, hheight⟩ :=
    Nat.exists_eq_add_of_le (h.shaped.depth_le (Option.isSome_of_eq_some hl))
  -- what is known of the full tree are the levels of the leaves
  rw [h.slot (show d + (height + 1) = depthFor leaves.length by omega), getElem?_level] at ha
  rw [h.slot hheight.symm] at hl ⊢
  obtain ⟨_, hleft, ⟨⟩⟩ := Option.map_eq_some_iff.mp hl
  rw [hleft] at ha
  obtain rfl : hashPair l ((level leaves height)[2 * i + 1]?.getD l) = a := by simpa using ha
  cases (level leaves height)[2 * i + 1]? with
  | none => exact .inl ⟨rfl, rfl⟩
  | some r => exact .inr ⟨r, rfl, rfl⟩

theorem sound_of_ofLeaves (h : Tree.ofLeaves leaves = .ok t) : t.Sound := by
  have hne : leaves ≠ [] := by
    rintro rfl
    cases h
  obtain ⟨t', ht', hfull⟩ := exists_ofLeaves hne
  obtain rfl : t' = t := Except.ok.inj (ht'.symm.trans h)
  exact hfull.sound

/-- **Calls on one tree**: after any populations and branches, succeeding or failing, every call comes
to an end inside the rows; every row has as many slots as at first; a hash that is known stays what it
is whatever is called next; and a known node whose left child is known is the hash of its children. -/
theorem intact_after_calls
    (made : (∃ total, Tree.new total = .ok t) ∨ ∃ leaves, Tree.ofLeaves leaves = .ok t)
    (calls : List Call) :
    (∀ call : Call, call.Completes (t.after calls)) ∧
      (∀ d, (t.after calls).rows.size? d = t.rows.size? d) ∧
      (∀ more d i a, (t.after calls).rows.slot? d i = some (some a) →
        (t.after (calls ++ more)).rows.slot? d i = some (some a)) ∧
      (t.after calls).rows.Consistent := by
  have hsound : t.Sound := by
    rcases made with ⟨total, hnew⟩ | ⟨leaves, hleaves⟩
    · exact sound_of_new hnew
    · exact sound_of_ofLeaves hleaves
  obtain ⟨hafter, hkept⟩ := hsound.calls calls
  refine ⟨fun call => (hafter.call call).1, hkept.size, ?_, hafter.consistent⟩
  intro more
  rw [after_append]
  exact (hafter.calls more).2.known

/-- A population of a new tree that runs out of flags has filled the first leaf; no later call changes
it. -/
theorem intact_after_calls_failed :
    Tree.new 3 = .ok ⟨3, Rows.empty 3⟩ ∧
      (populate ⟨3, Rows.empty 3⟩ [true, true, true] [Hash256.zero]).2 = .error .flagsExhausted ∧
      ∀ more, (after ⟨3, Rows.empty 3⟩
        (.populate [true, true, true] [Hash256.zero] :: more)).rows.slot? 2 0 =
          some (some Hash256.zero) := by
  have hrun : (within? Reader.step 5 (reader ⟨3, Rows.empty 3⟩ [true, true, true]
      [Hash256.zero])).map (fun last => (last.1.rows.slot? 2 0, last.2)) =
        some (some (some Hash256.zero), .error .flagsExhausted) := by
    decide +kernel
  obtain ⟨⟨r, outcome⟩, hlast, heq⟩ := Option.map_eq_some_iff.mp hrun
  obtain ⟨hfilled, rfl⟩ := Prod.mk.inj heq
  have hfail : populated? noTail ⟨3, Rows.empty 3⟩ [true, true, true] [Hash256.zero] =
      some (⟨3, r.rows⟩, .error .flagsExhausted) := by
    rw [populated?, (ends_of_within? hlast).repeatM_eq]
    rfl
  have hget : populate ⟨3, Rows.empty 3⟩ [true, true, true] [Hash256.zero] =
      (⟨3, r.rows⟩, .error .flagsExhausted) := by
    rw [populate, hfail, Option.get!_some]
  obtain ⟨-, -, hkeep, -⟩ := intact_after_calls (.inl ⟨3, rfl⟩)
    [.populate [true, true, true] [Hash256.zero]]
  refine ⟨rfl, congrArg Prod.snd hget, ?_⟩
  intro more
  refine hkeep more 2 0 Hash256.zero ?_
  show (populate ⟨3, Rows.empty 3⟩ [true, true, true] [Hash256.zero]).1.rows.slot? 2 0 = _
  rw [hget]
  exact hfilled

end Tree

end BitcoinPeer.Merkle
