import BitcoinPeer.Proofs.Message.Streaming
import BitcoinPeer.Proofs.Chain.Encoding
import BitcoinPeer.Storage.BlockFile

/-!
# Walking through a block file

A walk through a file and a look at one offset read blocks in the same way, so they agree wherever
the walk comes by (`Walked`): each block starts where the bytes of the one before it end, and after
an error or at the end of the file there is nothing more. Blocks that were written one after the
other are met just so, and what was met stays when a file grows (`BlockFile.blocks_walked`).
-/

namespace BitcoinPeer

/-- A block takes at least one byte. -/
theorem Block.ne_nil_of_reads {used : Bytes} {b : Block}
    (h : (Codec.decode : Decoder Block).Reads used b) : used ≠ [] := by
  rintro rfl
  have hnil : (Codec.decode : Decoder Block).run [] = .error (.truncated 4) := by decide
  rw [h.run_eq] at hnil
  cases hnil

namespace BlockFile

/-- The block with all its hashes remembered. -/
def hashed (b : Block) : HashedBlock :=
  (HashedBlock.ofBlock b).rehash.2

/-- What a walk meets from an offset on: nothing at the end of the file, an error that is also the
one found at this offset, or the block found there and what a walk meets behind its bytes. -/
inductive Walked (content : Bytes) : Nat → List Item → Prop
  | finished : Walked content content.length []
  | failed {offset : Nat} {e : DecodeError}
      (hdecode : (Codec.decode : Decoder Block).run (content.drop offset) = .error e)
      (hload : load ⟨some content⟩ offset = .error (.decode e)) :
      Walked content offset [.error (.decode e)]
  | met {offset : Nat} {b : Block} {used rest : Bytes} {items : List Item}
      (hinput : content.drop offset = used ++ rest)
      (hdecode : (Codec.decode : Decoder Block).run (content.drop offset) = .ok (b, rest))
      (hload : load ⟨some content⟩ offset = .ok (hashed b))
      (hitems : Walked content (offset + used.length) items) :
      Walked content offset (.ok (offset, hashed b) :: items)

namespace Walked

variable {content : Bytes} {start : Nat} {items : List Item}

/-- Each block that is met is the one that is found at its offset. -/
theorem load_eq (h : Walked content start items) {offset : Nat} {b : HashedBlock}
    (hmem : .ok (offset, b) ∈ items) : load ⟨some content⟩ offset = .ok b := by
  induction h with
  | finished => exact absurd hmem List.not_mem_nil
  | failed hdecode hload => cases List.mem_singleton.mp hmem
  | met hinput hdecode hload hitems ih =>
    rcases List.mem_cons.mp hmem with heq | hmem
    · cases heq
      exact hload
    · exact ih hmem

/-- An error is the last thing that is met. -/
theorem error_last (h : Walked content start items) {i : Nat} {e : StorageError}
    (hi : items[i]? = some (.error e)) : i + 1 = items.length := by
  induction h generalizing i with
  | finished => cases hi
  | failed hdecode hload =>
    cases i with
    | zero => rfl
    | succ i => cases hi
  | met hinput hdecode hload hitems ih =>
    cases i with
    | zero => cases hi
    | succ i =>
      rw [List.getElem?_cons_succ] at hi
      rw [List.length_cons, ih hi]

end Walked

/-! ### One block -/

variable {bs rest content : Bytes} {b : Block} {e : DecodeError}

theorem readBlock_of_ok (h : (Codec.decode : Decoder Block).run bs = .ok (b, rest)) :
    readBlock bs = .ok (hashed b, rest) := by
  rw [readBlock, h]
  rfl

theorem readBlock_of_error (h : (Codec.decode : Decoder Block).run bs = .error e) :
    readBlock bs = .error (.decode e) := by
  rw [readBlock, h]

theorem load_of_lt {offset : Nat} (h : offset < content.length) :
    load ⟨some content⟩ offset = (readBlock (content.drop offset)).map Prod.fst :=
  if_neg (Nat.not_le.mpr h)

/-- A walk goes on behind the bytes of a block. -/
theorem walk_of_ok (h : (Codec.decode : Decoder Block).run bs = .ok (b, rest)) (offset : Nat) :
    ∃ used, used ≠ [] ∧ bs = used ++ rest ∧
      walk offset bs = .ok (offset, hashed b) :: walk (offset + used.length) rest := by
  obtain ⟨used, rfl, hreads⟩ := Block.streams.exists_reads h
  have hused : used ≠ [] := Block.ne_nil_of_reads hreads
  have hlen : 0 < used.length := List.length_pos_iff.mpr hused
  refine ⟨used, hused, rfl, ?_⟩
  rw [walk, if_neg (by simp [hused]), readBlock_of_ok h]
  simp only [List.length_append, Nat.add_sub_cancel]
  rw [if_pos (by omega)]

theorem walk_of_error (hbs : bs ≠ []) (h : (Codec.decode : Decoder Block).run bs = .error e)
    (offset : Nat) : walk offset bs = [.error (.decode e)] := by
  rw [walk, if_neg (by simp [hbs]), readBlock_of_error h]

theorem walk_nil (offset : Nat) : walk offset [] = [] := by
  rw [walk]
  rfl

/-! ### The whole file -/

theorem walked_walk {offset : Nat} (hoffset : offset ≤ content.length)
    (hbs : content.drop offset = bs) : Walked content offset (walk offset bs) := by
  induction hn : bs.length using Nat.strongRecOn generalizing offset bs with
  | ind n ih =>
  have hlen := congrArg List.length hbs
  rw [List.length_drop] at hlen
  by_cases hnil : bs = []
  · rw [hnil, List.length_nil] at hlen
    obtain rfl : offset = content.length := by omega
    rw [hnil, walk_nil]
    exact .finished
  · have hpos : 0 < bs.length := List.length_pos_iff.mpr hnil
    have hlt : offset < content.length := by omega
    have hload := load_of_lt hlt
    rw [hbs] at hload
    cases hdecode : (Codec.decode : Decoder Block).run bs with
    | error e =>
      rw [walk_of_error hnil hdecode]
      rw [readBlock_of_error hdecode] at hload
      exact .failed (hbs ▸ hdecode) hload
    | ok r =>
      obtain ⟨b, rest⟩ := r
      obtain ⟨used, hused, rfl, hwalk⟩ := walk_of_ok hdecode offset
      have hsplit : (used ++ rest).length = used.length + rest.length := List.length_append
      have hpos : 0 < used.length := List.length_pos_iff.mpr hused
      rw [readBlock_of_ok hdecode] at hload
      rw [hwalk]
      refine .met hbs (hbs ▸ hdecode) hload (ih rest.length (by omega) (by omega) ?_ rfl)
      rw [← List.drop_drop, hbs, List.drop_left]

/-- What was met stays when more bytes follow. -/
theorem walk_append {offset : Nat} {i : Nat} {found : Nat × HashedBlock}
    (h : (walk offset bs)[i]? = some (.ok found)) (more : Bytes) :
    (walk offset (bs ++ more))[i]? = some (.ok found) := by
  induction hn : bs.length using Nat.strongRecOn generalizing offset bs i with
  | ind n ih =>
  by_cases hnil : bs = []
  · rw [hnil, walk_nil] at h
    cases h
  · cases hdecode : (Codec.decode : Decoder Block).run bs with
    | error e =>
      rw [walk_of_error hnil hdecode] at h
      cases i <;> cases h
    | ok r =>
      obtain ⟨b, rest⟩ := r
      obtain ⟨used, hused, rfl, hwalk⟩ := walk_of_ok hdecode offset
      obtain ⟨used', -, hinput, hwalk'⟩ := walk_of_ok (Block.streams.run_append hdecode more) offset
      obtain rfl : used = used' := by
        rw [List.append_assoc] at hinput
        exact List.append_cancel_right hinput
      rw [hwalk] at h
      rw [hwalk']
      cases i with
      | zero => exact h
      | succ i =>
        have hpos : 0 < used.length := List.length_pos_iff.mpr hused
        have hsplit : (used ++ rest).length = used.length + rest.length := List.length_append
        rw [List.getElem?_cons_succ] at h ⊢
        exact ih rest.length (by omega) h rfl

/-- Blocks that were written one after the other are met with the lengths before them as offsets. -/
theorem walk_flatMap_encode {blocks : List Block} (h : ∀ b ∈ blocks, b.Fits) (offset : Nat) :
    walk offset (blocks.flatMap Codec.encode) = blocks.mapIdx fun i b =>
      .ok (offset + ((blocks.take i).flatMap Codec.encode).length, hashed b) := by
  induction blocks generalizing offset with
  | nil => exact walk_nil offset
  | cons b blocks ih =>
    have hread := Block.reads (h b List.mem_cons_self) (blocks.flatMap Codec.encode)
    obtain ⟨used, -, hinput, hwalk⟩ := walk_of_ok hread offset
    obtain rfl : Codec.encode b = used := List.append_cancel_right hinput
    rw [List.flatMap_cons, hwalk, ih fun b' hb' => h b' (List.mem_cons_of_mem _ hb')]
    simp [List.mapIdx_cons, Nat.add_assoc]

/-- **Walking and looking up agree**: a walk through a file meets what is found at the offsets it
comes by, and ends with the file or with an error. It meets the same and maybe more if the file goes
on, and in a file that was written block by block it meets these blocks. -/
theorem blocks_walked (content : Bytes) :
    ∃ items : List Item, blocks ⟨some content⟩ = .ok items ∧ Walked content 0 items ∧
      (∀ offset b, .ok (offset, b) ∈ items → load ⟨some content⟩ offset = .ok b) ∧
      (∀ (i : Nat) (e : StorageError), items[i]? = some (.error e) → i + 1 = items.length) ∧
      (∀ more, ∃ items' : List Item, blocks ⟨some (content ++ more)⟩ = .ok items' ∧
        ∀ (i : Nat) (found : Nat × HashedBlock),
          items[i]? = some (.ok found) → items'[i]? = some (.ok found)) ∧
      ∀ written : List Block, (∀ b ∈ written, b.Fits) → content = written.flatMap Codec.encode →
        items = written.mapIdx fun i b =>
          .ok (((written.take i).flatMap Codec.encode).length, hashed b) := by
  have hwalked : Walked content 0 (walk 0 content) := walked_walk (Nat.zero_le _) List.drop_zero
  refine ⟨walk 0 content, rfl, hwalked, fun _ _ => hwalked.load_eq, fun _ _ => hwalked.error_last,
    fun more => ⟨walk 0 (content ++ more), rfl, fun i found h => walk_append h more⟩, ?_⟩
  rintro written hfits rfl
  rw [walk_flatMap_encode hfits 0]
  simp only [Nat.zero_add]

/-- Two blocks, and the bytes of a third one that is cut short. -/
theorem blocks_walked_two :
    let first : Block := { header := { nonce := 1 } }
    let second : Block := { header := { nonce := 2 } }
    first.Fits ∧ second.Fits ∧
      blocks ⟨some (Codec.encode first ++ Codec.encode second)⟩ =
        .ok [.ok (0, hashed first), .ok (81, hashed second)] ∧
      ∃ items : List Item,
        blocks ⟨some (Codec.encode first ++ Codec.encode second ++ [1, 0, 0])⟩ = .ok items ∧
          items[1]? = some (.ok (81, hashed second)) := by
  intro first second
  have hfirst : first.Fits := ⟨by decide, nofun⟩
  have hsecond : second.Fits := ⟨by decide, nofun⟩
  have hcontent : Codec.encode first ++ Codec.encode second =
      [first, second].flatMap Codec.encode := by simp
  have hlen : (Codec.encode first).length = 81 := by decide +kernel
  obtain ⟨items, hitems, -, -, -, hmore, hwritten⟩ :=
    blocks_walked (Codec.encode first ++ Codec.encode second)
  have hboth : items = [.ok (0, hashed first), .ok (81, hashed second)] := by
    rw [hwritten [first, second] (by simp [hfirst, hsecond]) hcontent]
    simp [List.mapIdx_cons, hlen]
  obtain ⟨items', hitems', hsame⟩ := hmore [1, 0, 0]
  exact ⟨hfirst, hsecond, hboth ▸ hitems, items', hitems', hsame 1 _ (by rw [hboth]; rfl)⟩

end BlockFile

end BitcoinPeer
