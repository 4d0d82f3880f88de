import BitcoinPeer.Chain.Validity
import Mathlib.Data.List.Induction
import Mathlib.Tactic.Tauto

/-!
# What an object remembers

An object is edited, asked for its hash, told to compute it again, checked and copied, in any order.
Its `Life` is the contents it began with and these uses. The hash it remembers is described by its
life alone: there is none before a use that needs it (`Life.Asked`), and then it is the hash of the
contents at the last refresh (`Life.LastRefreshed`), which is the last time it was told to compute
it again, or else the first use that needed it. `Life.remembers_object` says so, by induction on the
uses.
-/

namespace BitcoinPeer

/-! ### Uses of an object -/

/-- An object that can be checked, which needs its hash for some contents. -/
class Checked (α : Type) [Codec α] where
  check : Hashed α → Bool × Hashed α
  /-- The check of these contents needs the hash. -/
  needs : α → Bool
  check_snd (x : Hashed α) : (check x).2 = if needs x.contents then x.hash.2 else x

instance : Checked Transaction where
  check := Hashed.isValid
  needs _ := true
  check_snd _ := rfl

/-- A header without a target fails its check whatever its hash is. -/
instance : Checked BlockHeader where
  check := Hashed.meetsTarget
  needs h := (targetOfBits h.bits).isSome
  check_snd x := by
    unfold Hashed.meetsTarget
    cases targetOfBits x.contents.bits <;> rfl

/-- A use of an object that leaves its contents alone. -/
inductive Read where
  | hash
  | rehash
  | check
  | clone

/-- A use of an object. -/
inductive Use (α : Type) where
  | edit (f : α → α)
  | read (r : Read)

section

variable {α : Type} [Codec α] [Checked α]

/-- What a read leaves. -/
def Read.apply : Read → Hashed α → Hashed α
  | hash, x => x.hash.2
  | rehash, x => x.rehash.2
  | check, x => (Checked.check x).2
  | clone, x => x

def Use.apply : Use α → Hashed α → Hashed α
  | edit f, x => x.edit f
  | read r, x => r.apply x

/-- The hash is needed for the read. -/
def Read.Needs : Read → α → Prop
  | hash, _ | rehash, _ => True
  | check, c => Checked.needs c = true
  | clone, _ => False

def Use.Needs : Use α → α → Prop
  | edit _, _ => False
  | read r, c => r.Needs c

/-- The use is to compute the hash again. -/
def Use.Rehashes : Use α → Prop
  | read .rehash => True
  | _ => False

/-- What is left of the contents. -/
def Use.contents : Use α → α → α
  | edit f, c => f c
  | read _, c => c

theorem Read.contents_apply (r : Read) (x : Hashed α) : (r.apply x).contents = x.contents := by
  have hhash (y : Hashed α) : y.hash.2.contents = y.contents := by
    unfold Hashed.hash
    split <;> rfl
  cases r with
  | hash => exact hhash x
  | rehash => exact hhash _
  | check =>
    rw [apply, Checked.check_snd]
    split
    · exact hhash x
    · rfl
  | clone => rfl

theorem Use.contents_apply (u : Use α) (x : Hashed α) :
    (u.apply x).contents = u.contents x.contents := by
  cases u with
  | edit f => rfl
  | read r => exact r.contents_apply x

/-- All that a use may do to the remembered hash: it is computed again, or asked for, or left alone.
-/
theorem Use.apply_cases (u : Use α) (x : Hashed α) :
    u.Rehashes ∧ u.apply x = x.rehash.2 ∨
      ¬u.Rehashes ∧ u.Needs x.contents ∧ u.apply x = x.hash.2 ∨
      ¬u.Rehashes ∧ ¬u.Needs x.contents ∧ (u.apply x).remembered = x.remembered := by
  cases u with
  | edit f => exact .inr (.inr ⟨id, id, rfl⟩)
  | read r =>
    cases r with
    | hash => exact .inr (.inl ⟨id, trivial, rfl⟩)
    | rehash => exact .inl ⟨trivial, rfl⟩
    | check =>
      have hcheck := Checked.check_snd x
      by_cases hneeds : Checked.needs x.contents = true
      · rw [if_pos hneeds] at hcheck
        exact .inr (.inl ⟨id, hneeds, hcheck⟩)
      · rw [if_neg hneeds] at hcheck
        exact .inr (.inr ⟨id, hneeds, congrArg Hashed.remembered hcheck⟩)
    | clone => exact .inr (.inr ⟨id, id, rfl⟩)

theorem Use.Rehashes.needs {u : Use α} (h : u.Rehashes) (c : α) : u.Needs c := by
  match u, h with
  | .read .rehash, _ => trivial

end

/-! ### The life of an object -/

/-- The contents an object began with, and its uses since, the oldest first. -/
structure Life (α : Type) where
  start : α
  uses : List (Use α) := []

namespace Life

variable {α : Type}

/-- The life goes on with one more use. -/
def andThen (l : Life α) (u : Use α) : Life α :=
  { l with uses := l.uses ++ [u] }

/-- The life before some of the uses. -/
def upTo (l : Life α) (before : List (Use α)) : Life α :=
  { l with uses := before }

/-- The contents, which only edits change. -/
def contents (l : Life α) : α :=
  l.uses.foldl (fun c u => u.contents c) l.start

theorem contents_andThen (l : Life α) (u : Use α) :
    (l.andThen u).contents = u.contents l.contents := by
  simp [contents, andThen]

/-- Induction on the uses of a life, the last one at the end. -/
@[elab_as_elim]
theorem induction_andThen {motive : Life α → Prop} (new : ∀ start, motive ⟨start, []⟩)
    (andThen : ∀ l u, motive l → motive (l.andThen u)) (l : Life α) : motive l := by
  obtain ⟨start, uses⟩ := l
  induction uses using List.reverseRecOn with
  | nil => exact new start
  | append_singleton uses u ih => exact andThen ⟨start, uses⟩ u ih

variable [Codec α] [Checked α]

/-- The object at the end of the life; at its beginning it remembers nothing. -/
def object (l : Life α) : Hashed α :=
  l.uses.foldl (fun x u => u.apply x) { contents := l.start }

/-- Some use needed the hash. -/
def Asked (l : Life α) : Prop :=
  ∃ before u after, l.uses = before ++ u :: after ∧ u.Needs (l.upTo before).contents

/-- The contents at the last refresh of the remembered hash: when it was last computed again, or, if
it never was, at the first use that needed it. -/
def LastRefreshed (l : Life α) (c : α) : Prop :=
  ∃ before u after, l.uses = before ++ u :: after ∧ (l.upTo before).contents = c ∧
    (u.Rehashes ∨ u.Needs c ∧ ¬(l.upTo before).Asked) ∧ ∀ w ∈ after, ¬w.Rehashes

/-- What an object remembers at the end of a life, and what that matters for. -/
structure Remembers [BEq α] (l : Life α) (x : Hashed α) : Prop where
  contents : x.contents = l.contents
  /-- There is no hash before the first use that needs it. -/
  absent : x.remembered = none ↔ ¬l.Asked
  /-- From then on there was a last refresh. -/
  refreshed : l.Asked ↔ ∃ c, l.LastRefreshed c
  /-- The hash is that of the contents at the last refresh. -/
  present : ∀ c, l.LastRefreshed c → x.remembered = some (identity c)
  /-- It is out of date exactly if the hash of the contents has changed since. -/
  stale : ∀ c, l.LastRefreshed c →
    (x.remembered ≠ some (identity x.contents) ↔ identity x.contents ≠ identity c)
  /-- No edit changes it. -/
  edited : ∀ f, (x.edit f).remembered = x.remembered
  /-- The object is written without regard to it. -/
  encoded : Codec.encode x = Codec.encode l.contents
  /-- The object is compared without regard to it. -/
  compared : ∀ y : Hashed α, (x == y) = (l.contents == y.contents)

/-! ### One more use -/

/-- The ways to split a list with one more element. -/
theorem exists_split_concat {β : Type} (xs : List β) (x : β) {P : List β → β → List β → Prop} :
    (∃ before y after, xs ++ [x] = before ++ y :: after ∧ P before y after) ↔
      P xs x [] ∨ ∃ before y after, xs = before ++ y :: after ∧ P before y (after ++ [x]) := by
  constructor
  · rintro ⟨before, y, after, hxs, hP⟩
    rcases List.eq_nil_or_concat after with rfl | ⟨init, last, rfl⟩
    · obtain ⟨rfl, hy⟩ := List.append_inj' hxs rfl
      obtain rfl := (List.cons.inj hy).1
      exact .inl hP
    · rw [List.concat_eq_append, ← List.cons_append, ← List.append_assoc] at hxs
      obtain ⟨hinit, hlast⟩ := List.append_inj' hxs rfl
      obtain rfl := (List.cons.inj hlast).1
      rw [List.concat_eq_append] at hP
      exact .inr ⟨before, y, init, hinit, hP⟩
  · rintro (hP | ⟨before, y, after, rfl, hP⟩)
    · exact ⟨xs, x, [], rfl, hP⟩
    · refine ⟨before, y, after ++ [x], ?_, hP⟩
      rw [List.append_assoc, List.cons_append]

variable {l : Life α} {u : Use α}

theorem object_andThen (l : Life α) (u : Use α) : (l.andThen u).object = u.apply l.object := by
  simp [object, andThen]

theorem asked_andThen : (l.andThen u).Asked ↔ u.Needs l.contents ∨ l.Asked :=
  exists_split_concat l.uses u (P := fun before w _ => w.Needs (l.upTo before).contents)

theorem lastRefreshed_andThen {c : α} :
    (l.andThen u).LastRefreshed c ↔
      l.contents = c ∧ (u.Rehashes ∨ u.Needs c ∧ ¬l.Asked) ∨ l.LastRefreshed c ∧ ¬u.Rehashes := by
  have hsplit := exists_split_concat l.uses u (P := fun before w after =>
    (l.upTo before).contents = c ∧ (w.Rehashes ∨ w.Needs c ∧ ¬(l.upTo before).Asked) ∧
      ∀ v ∈ after, ¬v.Rehashes)
  refine hsplit.trans (or_congr ?_ ?_)
  · simp [upTo]
  · simp only [List.forall_mem_append, List.forall_mem_singleton, LastRefreshed]
    constructor
    · rintro ⟨before, w, after, huses, hc, hw, hafter, hu⟩
      exact ⟨⟨before, w, after, huses, hc, hw, hafter⟩, hu⟩
    · rintro ⟨⟨before, w, after, huses, hc, hw, hafter⟩, hu⟩
      exact ⟨before, w, after, huses, hc, hw, hafter, hu⟩

theorem contents_object (l : Life α) : l.object.contents = l.contents := by
  induction l using induction_andThen with
  | new start => rfl
  | andThen l u ih => rw [object_andThen, contents_andThen, Use.contents_apply, ih]

/-! ### Any uses -/

/-- What a life says of the remembered hash: none was needed, or it was last refreshed at some
contents. -/
inductive Accounts (l : Life α) : Option Hash256 → Prop where
  | never (asked : ¬l.Asked) (refreshed : ∀ c, ¬l.LastRefreshed c) : Accounts l none
  | last (c : α) (asked : l.Asked) (refreshed : ∀ c', l.LastRefreshed c' ↔ c' = c) :
      Accounts l (some (identity c))

/-- One use. -/
theorem Accounts.andThen {x : Hashed α} (h : l.Accounts x.remembered) (hx : x.contents = l.contents)
    (u : Use α) : (l.andThen u).Accounts (u.apply x).remembered := by
  rcases u.apply_cases x with ⟨hre, happly⟩ | ⟨hre, hneeds, happly⟩ | ⟨hre, hneeds, happly⟩
  · have hhash : (u.apply x).remembered = some (identity l.contents) := by
      rw [happly, ← hx]
      rfl
    rw [hhash]
    refine .last _ (asked_andThen.mpr (.inl (hre.needs _))) fun c => ?_
    rw [lastRefreshed_andThen]
    tauto
  · rw [hx] at hneeds
    have hasked : (l.andThen u).Asked := asked_andThen.mpr (.inl hneeds)
    rw [happly, Hashed.hash]
    generalize hr : x.remembered = r at h
    cases h with
    | never asked refreshed =>
      simp only [hx]
      refine .last _ hasked fun c => ?_
      rw [lastRefreshed_andThen]
      constructor
      · rintro (⟨hc, -⟩ | ⟨hc, -⟩)
        · exact hc.symm
        · exact absurd hc (refreshed c)
      · rintro rfl
        exact .inl ⟨rfl, .inr ⟨hneeds, asked⟩⟩
    | last c asked refreshed =>
      simp only [hr]
      refine .last c hasked fun c' => ?_
      rw [lastRefreshed_andThen, refreshed]
      tauto
  · rw [hx] at hneeds
    have hasked : (l.andThen u).Asked ↔ l.Asked := by
      rw [asked_andThen]
      tauto
    have hrefreshed (c : α) : (l.andThen u).LastRefreshed c ↔ l.LastRefreshed c := by
      rw [lastRefreshed_andThen]
      constructor
      · rintro (⟨rfl, hrehashes | ⟨hneeded, -⟩⟩ | ⟨hc, -⟩)
        · exact absurd hrehashes hre
        · exact absurd hneeded hneeds
        · exact hc
      · exact fun hc => .inr ⟨hc, hre⟩
    rw [happly]
    generalize x.remembered = r at h
    cases h with
    | never asked refreshed =>
      exact .never (mt hasked.mp asked) fun c => mt (hrefreshed c).mp (refreshed c)
    | last c asked refreshed =>
      exact .last c (hasked.mpr asked) fun c' => (hrefreshed c').trans (refreshed c')

theorem accounts_object (l : Life α) : l.Accounts l.object.remembered := by
  induction l using induction_andThen with
  | new start =>
    apply Accounts.never
    · simp [Asked]
    · simp [LastRefreshed]
  | andThen l u ih =>
    rw [object_andThen]
    exact ih.andThen (contents_object l) u

/-- Whatever is done with an object, the hash that it remembers is that of its contents at the last
refresh, and there is none before one was needed. -/
theorem remembers_object [BEq α] (l : Life α) : l.Remembers l.object := by
  have hcontents : l.object.contents = l.contents := contents_object l
  have haccounts : l.Accounts l.object.remembered := accounts_object l
  have hencoded : Codec.encode l.object = Codec.encode l.contents := congrArg Codec.encode hcontents
  have hcompared (y : Hashed α) : (l.object == y) = (l.contents == y.contents) :=
    congrArg (· == y.contents) hcontents
  generalize hr : l.object.remembered = r at haccounts
  cases haccounts with
  | never asked refreshed =>
    exact {
      contents := hcontents
      absent := iff_of_true hr asked
      refreshed := iff_of_false asked (not_exists.mpr refreshed)
      present := fun c hc => absurd hc (refreshed c)
      stale := fun c hc => absurd hc (refreshed c)
      edited := fun _ => rfl
      encoded := hencoded
      compared := hcompared }
  | last c asked refreshed =>
    exact {
      contents := hcontents
      absent := iff_of_false (by simp [hr]) (not_not.mpr asked)
      refreshed := iff_of_true asked ⟨c, (refreshed c).mpr rfl⟩
      present := fun c' hc' => by rw [hr, (refreshed c').mp hc']
      stale := fun c' hc' => by
        rw [hr, (refreshed c').mp hc', Ne, Option.some.injEq, ne_comm]
      edited := fun _ => rfl
      encoded := hencoded
      compared := hcompared }

/-- The nonce of a header is changed after its hash was asked for. -/
example :
    let l : Life BlockHeader := ⟨{}, [.read .hash, .edit fun h => { h with nonce := 1 }]⟩
    l.object.remembered = some (identity l.start) ∧ l.object.contents ≠ l.start :=
  ⟨rfl, by decide⟩

end Life

end BitcoinPeer
