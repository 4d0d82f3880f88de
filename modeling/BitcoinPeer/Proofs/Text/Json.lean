import Mathlib.Data.List.Forall2
import Mathlib.Data.List.Nodup
import Mathlib.Data.List.TakeWhile
import BitcoinPeer.Text.Json.Reader

/-!
# JSON that is read back

`Json.Spells` says which texts a value made of strings, arrays and objects has: any blanks may stand
between two parts. Both ways to write such a value give one of its texts (`spells_compactChars`,
`spells_prettyChars`), and the reader finds the value in each of them (`parse?_of_spells`). The
strings may hold any characters: each of them is read back from its escape (`exists_piece`).
-/

namespace BitcoinPeer.Json

variable {c : Char} {b b' cs rest t : List Char} {parts : List (List Char)} {j : Json}
  {items : List Json} {members : List (String × Json)} {n : Nat}

/-! ### Strings -/

/-- A character stands for itself, has a short escape, or is written by its number. -/
theorem escape_cases (c : Char) :
    (escape c = [c] ∧ c ≠ '"' ∧ c ≠ '\\' ∧ 32 ≤ c.toNat) ∨
      (∃ e, escape c = ['\\', e] ∧ shortEscape? e = some c) ∨
      (escape c = ['\\', 'u', '0', '0', Nat.digitChar (c.toNat / 16), Nat.digitChar (c.toNat % 16)] ∧
        c.toNat < 32) := by
  unfold escape
  split_ifs with h₁ h₂ h₃ h₄ h₅ h₆ h₇ h₈
  · exact .inr (.inl ⟨'"', rfl, by rw [h₁]; rfl⟩)
  · exact .inr (.inl ⟨'\\', rfl, by rw [h₂]; rfl⟩)
  · exact .inr (.inl ⟨'b', rfl, h₃ ▸ rfl⟩)
  · exact .inr (.inl ⟨'f', rfl, h₄ ▸ rfl⟩)
  · exact .inr (.inl ⟨'n', rfl, h₅ ▸ rfl⟩)
  · exact .inr (.inl ⟨'r', rfl, h₆ ▸ rfl⟩)
  · exact .inr (.inl ⟨'t', rfl, h₇ ▸ rfl⟩)
  · exact .inr (.inr ⟨rfl, h₈⟩)
  · exact .inl ⟨rfl, h₁, h₂, Nat.le_of_not_lt h₈⟩

theorem unit?_digits : ∀ n < 32,
    unit? '0' '0' (Nat.digitChar (n / 16)) (Nat.digitChar (n % 16)) = some n := by
  decide

theorem pieceText?_unit {n : Nat} (h : n < 32) (ps : List Piece) :
    pieceText? (.unit n :: ps) = (pieceText? ps).map (Char.ofNat n :: ·) := by
  have hhigh : ¬(0xd800 ≤ n ∧ n < 0xdc00) := by omega
  have hlow : ¬(0xdc00 ≤ n ∧ n < 0xe000) := by omega
  rw [pieceText?.eq_def]
  simp only [if_neg hhigh, if_neg hlow]

/-- The escape of a character is read as one piece, which is that character in any text. -/
theorem exists_piece (c : Char) : ∃ p,
    (∀ rest, pieces (escape c ++ rest) = (pieces rest).map fun (ps, rest) => (p :: ps, rest)) ∧
      ∀ ps, pieceText? (p :: ps) = (pieceText? ps).map (c :: ·) := by
  obtain ⟨hescape, hquote, hslash, hge⟩ | ⟨e, hescape, hshort⟩ | ⟨hescape, hlt⟩ := escape_cases c
  · refine ⟨.char c, fun rest => ?_, fun ps => rfl⟩
    rw [hescape, List.singleton_append, pieces.eq_5 c rest hquote (fun _ _ _ _ _ h => absurd h hslash)
      (fun _ _ h => absurd h hslash), if_neg (by omega)]
    cases pieces rest <;> rfl
  · refine ⟨.char c, fun rest => ?_, fun ps => rfl⟩
    have hne : e ≠ 'u' := by
      rintro rfl
      cases hshort
    rw [hescape, List.cons_append, List.singleton_append,
      pieces.eq_4 e rest (fun _ _ _ _ _ h => absurd h hne), hshort]
    cases pieces rest <;> rfl
  · refine ⟨.unit c.toNat, fun rest => ?_, fun ps => ?_⟩
    · rw [hescape]
      show pieces ('\\' :: 'u' :: '0' :: '0' :: _ :: _ :: rest) = _
      rw [pieces.eq_3, unit?_digits _ hlt]
      cases pieces rest <;> rfl
    · rw [pieceText?_unit hlt, Char.ofNat_toNat]

/-- What stands between quotation marks is read back. -/
theorem string?_quoted (text : String) (rest : List Char) :
    string? (text.toList.flatMap escape ++ '"' :: rest) = some (some text, rest) := by
  have hpieces : ∀ cs : List Char, ∃ ps, pieces (cs.flatMap escape ++ '"' :: rest) = some (ps, rest) ∧
      pieceText? ps = some cs := by
    intro cs
    induction cs with
    | nil => exact ⟨[], rfl, rfl⟩
    | cons c cs ih =>
      obtain ⟨ps, hps, htext⟩ := ih
      obtain ⟨p, hp, hc⟩ := exists_piece c
      refine ⟨p :: ps, ?_, by rw [hc, htext]; rfl⟩
      rw [List.flatMap_cons, List.append_assoc, hp, hps]
      rfl
  obtain ⟨ps, hps, htext⟩ := hpieces text.toList
  simp only [string?, hps, Option.map_some, htext, String.ofList_toList]

/-! ### The texts of a value -/

def AllBlank (cs : List Char) : Prop :=
  ∀ c ∈ cs, isBlank c = true

/-- The parts of an array or object, with commas between them and the closing bracket behind them. -/
inductive Listed (close : Char) : List (List Char) → List Char → Prop where
  | one {b t b' : List Char} (hb : AllBlank b) (hb' : AllBlank b') :
    Listed close [t] (b ++ (t ++ (b' ++ [close])))
  | more {b t b' cs : List Char} {parts : List (List Char)} (hb : AllBlank b) (hb' : AllBlank b')
    (h : Listed close parts cs) : Listed close (t :: parts) (b ++ (t ++ (b' ++ ',' :: cs)))

mutual

/-- `cs` is a text of the value, without blanks around it. -/
inductive Spells : Json → List Char → Prop where
  | str (text : String) : Spells (.str text) (quoted text)
  | arrNil {b : List Char} (hb : AllBlank b) : Spells (.arr []) ('[' :: (b ++ [']']))
  | arr {items : List Json} {parts : List (List Char)} {cs : List Char}
    (hitems : List.Forall₂ Spells items parts) (h : Listed ']' parts cs) :
    Spells (.arr items) ('[' :: cs)
  | objNil {b : List Char} (hb : AllBlank b) : Spells (.obj []) ('\x7b' :: (b ++ ['\x7d']))
  | obj {members : List (String × Json)} {parts : List (List Char)} {cs : List Char}
    (hmembers : List.Forall₂ SpellsMember members parts) (h : Listed '\x7d' parts cs) :
    Spells (.obj members) ('\x7b' :: cs)

inductive SpellsMember : String × Json → List Char → Prop where
  | mk {j : Json} {b b' t : List Char} (name : String) (hb : AllBlank b) (hb' : AllBlank b')
    (h : Spells j t) : SpellsMember (name, j) (quoted name ++ (b ++ ':' :: (b' ++ t)))

end

/-- The text begins with a part, and not with a blank or a closing bracket. -/
def Opens (t : List Char) : Prop :=
  ∃ c t', t = c :: t' ∧ isBlank c = false ∧ c ≠ ']' ∧ c ≠ '\x7d'

theorem opens_cons (t : List Char) (h : isBlank c = false ∧ c ≠ ']' ∧ c ≠ '\x7d') : Opens (c :: t) :=
  ⟨c, t, rfl, h⟩

theorem Spells.opens (h : Spells j t) : Opens t := by
  cases h <;> exact opens_cons _ (by decide)

theorem SpellsMember.opens {m : String × Json} (h : SpellsMember m t) : Opens t := by
  cases h
  exact opens_cons _ (by decide)

/-! ### Blanks -/

theorem skipBlanks_append (hb : AllBlank b) (cs : List Char) : skipBlanks (b ++ cs) = skipBlanks cs :=
  List.dropWhile_append_of_pos hb

theorem skipBlanks_cons (h : isBlank c = false) (cs : List Char) : skipBlanks (c :: cs) = c :: cs :=
  List.dropWhile_cons_of_neg (by simp [h])

theorem skipBlanks_skipBlanks (cs : List Char) : skipBlanks (skipBlanks cs) = skipBlanks cs := by
  have hblank : AllBlank (cs.takeWhile isBlank) := fun _ => List.mem_takeWhile_imp
  rw [← skipBlanks_append hblank (skipBlanks cs)]
  exact congrArg skipBlanks List.takeWhile_append_dropWhile

theorem value?_skipBlanks (n : Nat) (cs : List Char) : value? n (skipBlanks cs) = value? n cs := by
  cases n with
  | zero => rfl
  | succ n => rw [value?, value?, skipBlanks_skipBlanks]

theorem value?_append (n : Nat) (hb : AllBlank b) (cs : List Char) :
    value? n (b ++ cs) = value? n cs := by
  rw [← value?_skipBlanks, skipBlanks_append hb, value?_skipBlanks]

theorem items?_skipBlanks (n : Nat) (cs : List Char) : items? n (skipBlanks cs) = items? n cs := by
  cases n with
  | zero => rfl
  | succ n => rw [items?, items?, value?_skipBlanks]

theorem members?_skipBlanks (n : Nat) (cs : List Char) :
    members? n (skipBlanks cs) = members? n cs := by
  cases n with
  | zero => rfl
  | succ n => rw [members?, members?, skipBlanks_skipBlanks]

/-- Behind the opening bracket there is something else than the closing one. -/
theorem Listed.skipBlanks_ne {close : Char} (h : Listed close parts cs) (hparts : ∀ t ∈ parts, Opens t)
    (hclose : close = ']' ∨ close = '\x7d') (rest rest' : List Char) :
    skipBlanks (cs ++ rest) ≠ close :: rest' := by
  have hne : ∀ {b t cs : List Char}, AllBlank b → Opens t →
      skipBlanks (b ++ (t ++ cs)) ≠ close :: rest' := by
    rintro b t cs hb ⟨c, t', rfl, hc, hbracket, hbrace⟩ heq
    rw [skipBlanks_append hb, List.cons_append, skipBlanks_cons hc] at heq
    obtain ⟨rfl, -⟩ := List.cons.inj heq
    exact hclose.elim hbracket hbrace
  cases h with
  | one hb _ =>
    rw [List.append_assoc, List.append_assoc]
    exact hne hb (hparts _ List.mem_cons_self)
  | more hb _ _ =>
    rw [List.append_assoc, List.append_assoc]
    exact hne hb (hparts _ List.mem_cons_self)

/-! ### Reading a text -/

theorem value?_string (n : Nat) (text : String) (rest : List Char) :
    value? (n + 1) (quoted text ++ rest) = some (.str text, rest) := by
  rw [value?, quoted, List.append_assoc, List.cons_append, skipBlanks_cons (by decide)]
  simp only [List.singleton_append, string?_quoted]
  rfl

theorem value?_array (h : ∀ rest, skipBlanks cs ≠ ']' :: rest) :
    value? (n + 1) ('[' :: cs) = (items? n cs).map fun (js, rest) => (.arr js, rest) := by
  rw [value?, skipBlanks_cons (by decide), ← items?_skipBlanks n cs]
  split <;> simp_all

theorem value?_object (h : ∀ rest, skipBlanks cs ≠ '\x7d' :: rest) :
    value? (n + 1) ('\x7b' :: cs) = (members? n cs).map fun (ms, rest) => (ofMembers ms, rest) := by
  rw [value?, skipBlanks_cons (by decide), ← members?_skipBlanks n cs]
  split <;> simp_all

/-- With this depth every text that is no longer is read back, whatever comes after it. -/
structure ReadsAt (n : Nat) : Prop where
  value : ∀ {j t} rest, Spells j t → t.length ≤ n → value? n (t ++ rest) = some (j, rest)
  items : ∀ {items parts cs} rest, List.Forall₂ Spells items parts → Listed ']' parts cs →
    cs.length ≤ n → items? n (cs ++ rest) = some (items, rest)
  members : ∀ {members parts cs} rest, List.Forall₂ SpellsMember members parts →
    Listed '\x7d' parts cs → cs.length ≤ n →
    members? n (cs ++ rest) = some (members.map fun m => (some m.1, m.2), rest)

/-- Values that are read back one by one are read back as a list. -/
theorem mapM_map_eq_some {α β : Type} {f : α → β} {g : β → Option α} (h : ∀ a, g (f a) = some a)
    (as : List α) : (as.map f).mapM g = some as := by
  have hpure : g ∘ f = fun a => pure a := funext h
  rw [List.mapM_map, hpure, List.mapM_pure, List.map_id']
  rfl

theorem ofMembers_map (members : List (String × Json)) :
    ofMembers (members.map fun m => (some m.1, m.2)) = .obj members := by
  rw [ofMembers, mapM_map_eq_some]
  exact fun _ => rfl

theorem opens_of_forall₂ {α : Type} {R : α → List Char → Prop} {as : List α}
    (h : List.Forall₂ R as parts) (hR : ∀ {a t}, R a t → Opens t) : ∀ t ∈ parts, Opens t := by
  induction h with
  | nil => simp
  | cons ha _ ih => exact List.forall_mem_cons.mpr ⟨hR ha, ih⟩

namespace ReadsAt

theorem value_succ (h : ReadsAt n) (rest : List Char) (hj : Spells j t) (hn : t.length ≤ n + 1) :
    value? (n + 1) (t ++ rest) = some (j, rest) := by
  cases hj with
  | str text => exact value?_string n text rest
  | arrNil hb =>
    rw [value?, List.cons_append, skipBlanks_cons (by decide)]
    simp only [List.append_assoc, skipBlanks_append hb, List.singleton_append,
      skipBlanks_cons (show isBlank ']' = false by decide)]
  | arr hitems hlisted =>
    have hne := hlisted.skipBlanks_ne (opens_of_forall₂ hitems Spells.opens) (.inl rfl) rest
    rw [List.cons_append, value?_array hne, h.items rest hitems hlisted (by simpa using hn)]
    rfl
  | objNil hb =>
    rw [value?, List.cons_append, skipBlanks_cons (by decide)]
    simp only [List.append_assoc, skipBlanks_append hb, List.singleton_append,
      skipBlanks_cons (show isBlank '\x7d' = false by decide)]
  | obj hmembers hlisted =>
    have hne := hlisted.skipBlanks_ne (opens_of_forall₂ hmembers SpellsMember.opens) (.inr rfl) rest
    rw [List.cons_append, value?_object hne, h.members rest hmembers hlisted (by simpa using hn)]
    exact congrArg (fun j => some (j, rest)) (ofMembers_map _)

/-- Reading one item, up to what stands behind it. -/
theorem item (h : ReadsAt n) (hb : AllBlank b) (hj : Spells j t) (hn : t.length ≤ n)
    (rest : List Char) :
    items? (n + 1) (b ++ (t ++ rest)) = match skipBlanks rest with
      | ',' :: rest => do
        let (js, rest) ← items? n rest
        return (j :: js, rest)
      | ']' :: rest => some ([j], rest)
      | _ => none := by
  rw [items?, value?_append n hb, h.value rest hj hn]
  rfl

theorem items_succ (h : ReadsAt n) (rest : List Char) (hitems : List.Forall₂ Spells items parts)
    (hlisted : Listed ']' parts cs) (hn : cs.length ≤ n + 1) :
    items? (n + 1) (cs ++ rest) = some (items, rest) := by
  cases hlisted with
  | one hb hb' =>
    obtain ⟨j, items, hj, hnil, rfl⟩ := List.forall₂_cons_right_iff.mp hitems
    cases hnil
    simp only [List.length_append, List.length_singleton] at hn
    simp only [List.append_assoc, List.singleton_append]
    rw [h.item hb hj (by omega), skipBlanks_append hb', skipBlanks_cons (by decide)]
    rfl
  | more hb hb' hmore =>
    obtain ⟨j, items, hj, hrest, rfl⟩ := List.forall₂_cons_right_iff.mp hitems
    simp only [List.length_append, List.length_cons] at hn
    simp only [List.append_assoc, List.cons_append]
    rw [h.item hb hj (by omega), skipBlanks_append hb', skipBlanks_cons (by decide)]
    simp only [h.items rest hrest hmore (by omega)]
    rfl

/-- Reading one member, up to what stands behind it. -/
theorem member (h : ReadsAt n) {m : String × Json} (hb : AllBlank b) (hm : SpellsMember m t)
    (hn : t.length ≤ n) (rest : List Char) :
    members? (n + 1) (b ++ (t ++ rest)) = match skipBlanks rest with
      | ',' :: rest => do
        let (ms, rest) ← members? n rest
        return ((some m.1, m.2) :: ms, rest)
      | '\x7d' :: rest => some ([(some m.1, m.2)], rest)
      | _ => none := by
  obtain ⟨name, hb₁, hb₂, hj⟩ := hm
  simp only [List.length_append, List.length_cons] at hn
  rw [members?, skipBlanks_append hb, quoted]
  simp only [List.append_assoc, List.cons_append, List.nil_append,
    skipBlanks_cons (show isBlank '"' = false by decide), string?_quoted, skipBlanks_append hb₁,
    skipBlanks_cons (show isBlank ':' = false by decide), value?_append n hb₂,
    h.value _ hj (by omega), Option.bind_eq_bind, Option.bind_some]
  rfl

theorem members_succ (h : ReadsAt n) (rest : List Char)
    (hmembers : List.Forall₂ SpellsMember members parts) (hlisted : Listed '\x7d' parts cs)
    (hn : cs.length ≤ n + 1) :
    members? (n + 1) (cs ++ rest) = some (members.map fun m => (some m.1, m.2), rest) := by
  cases hlisted with
  | one hb hb' =>
    obtain ⟨m, members, hm, hnil, rfl⟩ := List.forall₂_cons_right_iff.mp hmembers
    cases hnil
    simp only [List.length_append, List.length_singleton] at hn
    simp only [List.append_assoc, List.singleton_append]
    rw [h.member hb hm (by omega), skipBlanks_append hb', skipBlanks_cons (by decide)]
    rfl
  | more hb hb' hmore =>
    obtain ⟨m, members, hm, hrest, rfl⟩ := List.forall₂_cons_right_iff.mp hmembers
    simp only [List.length_append, List.length_cons] at hn
    simp only [List.append_assoc, List.cons_append]
    rw [h.member hb hm (by omega), skipBlanks_append hb', skipBlanks_cons (by decide)]
    simp only [h.members rest hrest hmore (by omega)]
    rfl

end ReadsAt

/-- By induction on the depth, each level of which a bracket or a comma of the text pays for. -/
theorem readsAt (n : Nat) : ReadsAt n := by
  induction n with
  | zero =>
    have hpos : ∀ {close parts cs}, Listed close parts cs → 0 < cs.length := by
      intro close parts cs h
      cases h <;> simp only [List.length_append, List.length_cons] <;> omega
    exact ⟨fun _ hj hn => by
        obtain ⟨c, t', rfl, -⟩ := hj.opens
        simp at hn,
      fun _ _ h hn => by have := hpos h; omega,
      fun _ _ h hn => by have := hpos h; omega⟩
  | succ n ih => exact ⟨ih.value_succ, ih.items_succ, ih.members_succ⟩

/-- **Reading a text** of a value gives the value. -/
theorem parse?_of_spells (h : Spells j cs) : parse? (String.ofList cs) = some j := by
  have hread := (readsAt (2 * cs.length + 2)).value [] h (by omega)
  rw [List.append_nil] at hread
  rw [parse?, String.toList_ofList]
  simp only [hread]
  rfl

/-! ### Writing a text -/

/-- A value that is made of strings, arrays and objects. -/
inductive Textual : Json → Prop where
  | str (text : String) : Textual (.str text)
  | arr {items : List Json} (h : ∀ j ∈ items, Textual j) : Textual (.arr items)
  | obj {members : List (String × Json)} (h : ∀ m ∈ members, Textual m.2) : Textual (.obj members)

theorem allBlank_nil : AllBlank [] :=
  fun _ h => absurd h List.not_mem_nil

theorem allBlank_space : AllBlank [' '] := by
  simp [AllBlank, isBlank]

theorem allBlank_lineBreak (level : Nat) : AllBlank (lineBreak level) := by
  intro c hc
  rw [lineBreak, List.mem_cons, List.mem_replicate] at hc
  obtain rfl | ⟨-, rfl⟩ := hc <;> decide

theorem listed_joined {close : Char} (hb : AllBlank b) (hb' : AllBlank b') (hne : parts ≠ []) :
    Listed close parts (b ++ (joined (',' :: b) parts ++ (b' ++ [close]))) := by
  induction parts using joined.induct with
  | case1 => exact absurd rfl hne
  | case2 t => exact .one hb hb'
  | case3 t ts hts ih =>
    have hmore := Listed.more (t := t) hb allBlank_nil (ih hts)
    rw [joined.eq_3 _ _ _ hts]
    simpa using hmore

theorem spells_arr {f : Json → List Char} (hb : AllBlank b) (hb' : AllBlank b') (hne : items ≠ [])
    (h : ∀ j ∈ items, Spells j (f j)) :
    Spells (.arr items) ('[' :: (b ++ (joined (',' :: b) (items.map f) ++ (b' ++ [']'])))) := by
  have hparts : items.map f ≠ [] := by simpa using hne
  refine .arr ?_ (listed_joined hb hb' hparts)
  rw [List.forall₂_map_right_iff, List.forall₂_same]
  exact h

theorem spells_obj {f : String × Json → List Char} (hb : AllBlank b) (hb' : AllBlank b')
    (hne : members ≠ []) (h : ∀ m ∈ members, SpellsMember m (f m)) :
    Spells (.obj members)
      ('\x7b' :: (b ++ (joined (',' :: b) (members.map f) ++ (b' ++ ['\x7d'])))) := by
  have hparts : members.map f ≠ [] := by simpa using hne
  refine .obj ?_ (listed_joined hb hb' hparts)
  rw [List.forall₂_map_right_iff, List.forall₂_same]
  exact h

theorem compactItems_eq_map (items : List Json) : compactItems items = items.map compactChars := by
  induction items with
  | nil => rfl
  | cons j items ih => rw [compactItems, ih, List.map_cons]

theorem compactMembers_eq_map (members : List (String × Json)) :
    compactMembers members = members.map fun m => quoted m.1 ++ ':' :: compactChars m.2 := by
  induction members with
  | nil => rfl
  | cons m members ih => rw [compactMembers, ih, List.map_cons]

theorem prettyItems_eq_map (level : Nat) (items : List Json) :
    prettyItems level items = items.map (prettyChars level) := by
  induction items with
  | nil => rfl
  | cons j items ih => rw [prettyItems, ih, List.map_cons]

theorem prettyMembers_eq_map (level : Nat) (members : List (String × Json)) :
    prettyMembers level members =
      members.map fun m => quoted m.1 ++ ':' :: ' ' :: prettyChars level m.2 := by
  induction members with
  | nil => rfl
  | cons m members ih => rw [prettyMembers, ih, List.map_cons]

theorem Textual.spells_compactChars (h : Textual j) : Spells j (compactChars j) := by
  induction h with
  | str text => exact .str text
  | @arr items _ ih =>
    rw [compactChars, compactItems_eq_map]
    by_cases hne : items = []
    · rw [hne]
      exact .arrNil allBlank_nil
    · exact spells_arr allBlank_nil allBlank_nil hne ih
  | @obj members _ ih =>
    rw [compactChars, compactMembers_eq_map]
    by_cases hne : members = []
    · rw [hne]
      exact .objNil allBlank_nil
    · exact spells_obj allBlank_nil allBlank_nil hne fun m hm =>
        .mk m.1 allBlank_nil allBlank_nil (ih m hm)

theorem Textual.spells_prettyChars (h : Textual j) (level : Nat) : Spells j (prettyChars level j) := by
  induction h generalizing level with
  | str text =>
    rw [prettyChars]
    exact .str text
  | @arr items _ ih =>
    rw [prettyChars, prettyItems_eq_map, laidOut]
    by_cases hne : items = []
    · rw [hne]
      exact .arrNil allBlank_nil
    · have hspells := spells_arr (allBlank_lineBreak (level + 1)) (allBlank_lineBreak level) hne
        fun j hj => ih j hj (level + 1)
      simpa [hne] using hspells
  | @obj members _ ih =>
    rw [prettyChars, prettyMembers_eq_map, laidOut]
    by_cases hne : members = []
    · rw [hne]
      exact .objNil allBlank_nil
    · have hspells := spells_obj (allBlank_lineBreak (level + 1)) (allBlank_lineBreak level) hne
        fun m hm => .mk m.1 allBlank_nil allBlank_space (ih m hm (level + 1))
      simpa [hne] using hspells

theorem Textual.parse?_compact (h : Textual j) : parse? (compact j) = some j :=
  parse?_of_spells h.spells_compactChars

theorem Textual.parse?_pretty (h : Textual j) : parse? (pretty j) = some j :=
  parse?_of_spells (h.spells_prettyChars 0)

/-! ### Records -/

theorem lookup_of_nodup (h : (members.map Prod.fst).Nodup) {m : String × Json} (hm : m ∈ members) :
    members.lookup m.1 = some m.2 := by
  induction members with
  | nil => cases hm
  | cons m' members ih =>
    rw [List.map_cons, List.nodup_cons] at h
    rcases List.mem_cons.mp hm with rfl | hm
    · exact List.lookup_cons_self
    · have hne : m.1 ≠ m'.1 := fun heq => h.1 (heq ▸ List.mem_map_of_mem hm)
      rw [List.lookup_cons, beq_eq_false_iff_ne.mpr hne]
      exact ih h.2 hm

/-- The fields of a record are found under their names. -/
theorem fields?_obj {names : List String} (hnames : members.map Prod.fst = names)
    (h : names.Nodup) : fields? names (.obj members) = some (members.map fun m => some m.2) := by
  have honce : ∀ name ∈ names, (members.filter fun m => m.1 == name).length ≤ 1 := by
    intro name _
    have hcount := List.nodup_iff_count_le_one.mp h name
    rwa [← hnames, List.count, List.countP_map, List.countP_eq_length_filter] at hcount
  rw [fields?, if_pos (by simpa using honce), ← hnames, List.map_map]
  exact congrArg some (List.map_congr_left fun m hm => lookup_of_nodup (hnames ▸ h) hm)

end BitcoinPeer.Json
