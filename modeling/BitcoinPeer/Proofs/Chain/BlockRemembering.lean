import BitcoinPeer.Chain.Summary
import BitcoinPeer.Proofs.Chain.Filtering
import BitcoinPeer.Proofs.Chain.Remembering
import BitcoinPeer.Proofs.Codec.Reading

/-!
# What a block remembers

A block has a remembered hash in its header and one in each transaction. A read of the block comes
with reads of these (`BlockRead.reads`): a check, for one, goes on to the transactions only if the
header has its proof of work, stops at the first that is not valid, and then asks for all hashes
only if there is none. So every part of a block has a life of its own (`BlockLife`), which it takes
along when it is moved, and what the parts remember follows from their lives (`block_run`). Reads
leave the contents alone, so once every hash was computed again, the answers are those of the
contents up to the next edit (`UpToDate.current`).
-/

namespace BitcoinPeer

/-! ### Reads of a block -/

/-- A use of a block that leaves its contents alone, as a whole or in one part. -/
inductive BlockRead where
  | header (r : Read)
  | tx (i : Nat) (r : Read)
  | hash
  | rehash
  | txHashes
  | merkleRoot
  | isValid
  | clone

/-- What a read leaves. -/
def BlockRead.apply : BlockRead → HashedBlock → HashedBlock
  | header r, b => { b with header := r.apply b.header }
  | tx i r, b => { b with txs := b.txs.modify i r.apply }
  | hash, b => b.hash.2
  | rehash, b => b.rehash.2
  | txHashes, b => b.txHashes.2
  | merkleRoot, b => b.merkleRoot.2
  | isValid, b => b.isValid.2
  | clone, b => b

/-- Reads of the header, and of the transaction at each place. -/
structure BlockReads where
  header : List Read := []
  tx : Nat → List Read := fun _ => []

/-- The reads of its parts that come with a read of a block. -/
def BlockRead.reads (b : HashedBlock) : BlockRead → BlockReads
  | header r => { header := [r] }
  | tx i r => { tx := fun j => if i = j then [r] else [] }
  | hash => { header := [.hash] }
  | rehash => { header := [.rehash], tx := fun _ => [.rehash] }
  | txHashes | merkleRoot => { tx := fun _ => [.hash] }
  | isValid =>
    if b.header.meetsTarget.1 then
      { header := [.check]
        tx := fun i => (if (b.txs.take i).all fun t => t.isValid.1 then [.check] else []) ++
          if b.txs.all fun t => t.isValid.1 then [.hash] else [] }
    else { header := [.check] }
  | clone => {}

/-- Reads one after the other. -/
def Hashed.reads {α : Type} [Codec α] [Checked α] (rs : List Read) (x : Hashed α) : Hashed α :=
  rs.foldl (fun x r => r.apply x) x

/-- The block after reads of its parts. -/
def HashedBlock.afterReads (rs : BlockReads) (b : HashedBlock) : HashedBlock where
  header := b.header.reads rs.header
  txs := b.txs.mapIdx fun i t => t.reads (rs.tx i)

theorem HashedBlock.mapIdx_reads_nil (txs : List (Hashed Transaction)) :
    txs.mapIdx (fun _ t => t.reads []) = txs := by
  apply List.ext_getElem?
  simp [Hashed.reads]

theorem HashedBlock.mapIdx_reads_singleton (r : Read) (txs : List (Hashed Transaction)) :
    txs.mapIdx (fun _ t => t.reads [r]) = txs.map r.apply := by
  apply List.ext_getElem?
  simp [Hashed.reads]

/-- Transactions are checked up to the first that is not valid. -/
theorem checkTransactions_eq (txs : List (Hashed Transaction)) :
    checkTransactions txs = (txs.all fun t => t.isValid.1,
      txs.mapIdx fun i t => if (txs.take i).all fun t => t.isValid.1 then t.isValid.2 else t) := by
  induction txs with
  | nil => rfl
  | cons t txs ih =>
    rw [checkTransactions, ih]
    rcases hvalid : t.isValid with ⟨_ | _, checked⟩
    · have hrest : txs.mapIdx (fun _ t => t) = txs := HashedBlock.mapIdx_reads_nil txs
      simp [List.mapIdx_cons, hvalid, hrest]
    · simp [List.mapIdx_cons, hvalid]

/-- **Reads**: a read of a block is the reads of its parts that come with it. -/
theorem BlockRead.apply_eq (r : BlockRead) (b : HashedBlock) :
    r.apply b = b.afterReads (r.reads b) := by
  cases r with
  | header r =>
    simp only [apply, reads, HashedBlock.afterReads, HashedBlock.mapIdx_reads_nil]
    rfl
  | tx i r =>
    have htxs : b.txs.modify i r.apply =
        b.txs.mapIdx fun j t => t.reads (if i = j then [r] else []) := by
      apply List.ext_getElem?
      intro j
      rw [List.getElem?_modify, List.getElem?_mapIdx]
      split <;> rfl
    simp only [apply, reads, HashedBlock.afterReads, htxs]
    rfl
  | hash =>
    simp only [apply, reads, HashedBlock.afterReads, HashedBlock.mapIdx_reads_nil]
    rfl
  | rehash =>
    simp only [apply, reads, HashedBlock.afterReads, HashedBlock.mapIdx_reads_singleton]
    rfl
  | txHashes | merkleRoot =>
    simp only [apply, reads, HashedBlock.afterReads, HashedBlock.mapIdx_reads_singleton]
    rfl
  | isValid =>
    rw [apply, reads, HashedBlock.isValid, checkTransactions_eq]
    rcases hmeets : b.header.meetsTarget with ⟨_ | _, header⟩ <;>
      obtain rfl : b.header.reads [.check] = header := congrArg Prod.snd hmeets
    · simp only [Bool.false_eq_true, if_false, HashedBlock.afterReads,
        HashedBlock.mapIdx_reads_nil]
    · cases b.txs.all fun t => t.isValid.1 with
      | false =>
        simp only [if_true, Bool.false_eq_true, if_false, HashedBlock.afterReads, List.append_nil]
        congr 2
        funext i t
        split <;> rfl
      | true =>
        simp only [if_true, HashedBlock.afterReads, HashedBlock.merkleRoot, HashedBlock.txHashes]
        congr 1
        apply List.ext_getElem?
        intro i
        rw [List.getElem?_map, List.getElem?_mapIdx, List.getElem?_mapIdx, Option.map_map]
        congr 1
        funext t
        dsimp only [Function.comp]
        split <;> rfl
  | clone =>
    simp only [apply, reads, HashedBlock.afterReads, HashedBlock.mapIdx_reads_nil]
    rfl

/-! ### Uses of a block -/

theorem map_modify {β γ : Type} {g : β → γ} {f : β → β} {f' : γ → γ} (h : ∀ x, g (f x) = f' (g x))
    (i : Nat) (xs : List β) : (xs.modify i f).map g = (xs.map g).modify i f' := by
  apply List.ext_getElem?
  intro j
  rw [List.getElem?_map, List.getElem?_modify, List.getElem?_modify, List.getElem?_map]
  cases xs[j]? with
  | none => rfl
  | some x =>
    simp only [Option.map_eq_map, Option.map_some]
    split
    · rw [h]
    · rfl

/-- A list made of elements of another one, taken by their places, and of new ones. There is nothing
at a place outside of the other list. -/
def arranged {β : Type} (slots : List (Nat ⊕ β)) (xs : List β) : List β :=
  slots.filterMap (Sum.elim (xs[·]?) some)

theorem map_arranged {β γ : Type} (g : β → γ) (slots : List (Nat ⊕ β)) (xs : List β) :
    (arranged slots xs).map g = arranged (slots.map (Sum.map id g)) (xs.map g) := by
  rw [arranged, arranged, List.map_filterMap, List.filterMap_map]
  congr 1
  funext slot
  cases slot <;> simp

/-- A use of a block: its parts are edited, or replaced by others with a life of their own, and its
transactions are moved, copied, added and taken away; or it is read. -/
inductive BlockUse where
  | editHeader (f : BlockHeader → BlockHeader)
  | editTx (i : Nat) (f : Transaction → Transaction)
  | setHeader (header : Life BlockHeader)
  | arrangeTxs (slots : List (Nat ⊕ Life Transaction))
  | read (r : BlockRead)

def BlockUse.apply : BlockUse → HashedBlock → HashedBlock
  | editHeader f, b => b.editHeader f
  | editTx i f, b => { b with txs := b.txs.modify i (Hashed.edit f) }
  | setHeader header, b => { b with header := header.object }
  | arrangeTxs slots, b => { b with txs := arranged (slots.map (Sum.map id Life.object)) b.txs }
  | read r, b => r.apply b

/-- What is left of the contents. -/
def BlockUse.contents : BlockUse → Block → Block
  | editHeader f, b => { b with header := f b.header }
  | editTx i f, b => { b with txs := b.txs.modify i f }
  | setHeader header, b => { b with header := header.contents }
  | arrangeTxs slots, b => { b with txs := arranged (slots.map (Sum.map id Life.contents)) b.txs }
  | read _, b => b

/-- Uses one after the other. -/
def HashedBlock.run (uses : List BlockUse) (b : HashedBlock) : HashedBlock :=
  uses.foldl (fun b u => u.apply b) b

/-! ### The lives of the parts -/

/-- The lives of a block's header and transactions. -/
structure BlockLife where
  header : Life BlockHeader
  txs : List (Life Transaction)

/-- The life goes on with some reads. -/
def Life.andReads {α : Type} (rs : List Read) (l : Life α) : Life α :=
  { l with uses := l.uses ++ rs.map .read }

namespace BlockLife

/-- The lives of the parts of a new block. -/
def new (b : Block) : BlockLife where
  header := ⟨b.header, []⟩
  txs := b.txs.map fun t => ⟨t, []⟩

/-- The block at the end of these lives. -/
def block (l : BlockLife) : HashedBlock where
  header := l.header.object
  txs := l.txs.map Life.object

/-- The lives go on with a use of the block. -/
def andThen (l : BlockLife) : BlockUse → BlockLife
  | .editHeader f => { l with header := l.header.andThen (.edit f) }
  | .editTx i f => { l with txs := l.txs.modify i (·.andThen (.edit f)) }
  | .setHeader header => { l with header }
  | .arrangeTxs slots => { l with txs := arranged slots l.txs }
  | .read r =>
    { header := l.header.andReads (r.reads l.block).header
      txs := l.txs.mapIdx fun i t => t.andReads ((r.reads l.block).tx i) }

def run (uses : List BlockUse) (l : BlockLife) : BlockLife :=
  uses.foldl andThen l

end BlockLife

theorem Life.object_andReads {α : Type} [Codec α] [Checked α] (rs : List Read) (l : Life α) :
    (l.andReads rs).object = l.object.reads rs := by
  simp only [object, andReads, Hashed.reads, List.foldl_append, List.foldl_map]
  rfl

theorem BlockLife.block_new (b : Block) : (new b).block = HashedBlock.ofBlock b := by
  simp only [new, block, HashedBlock.ofBlock, List.map_map]
  rfl

/-- One use: what becomes of a block is what becomes of its parts. -/
theorem BlockLife.block_andThen (l : BlockLife) (u : BlockUse) :
    (l.andThen u).block = u.apply l.block := by
  cases u with
  | editHeader f =>
    simp only [andThen, block, Life.object_andThen]
    rfl
  | editTx i f =>
    have hedit (t : Life Transaction) : (t.andThen (.edit f)).object = t.object.edit f :=
      t.object_andThen (.edit f)
    simp only [andThen, block, BlockUse.apply, map_modify hedit]
  | setHeader header => rfl
  | arrangeTxs slots =>
    simp only [andThen, block, BlockUse.apply, map_arranged]
  | read r =>
    rw [BlockUse.apply, BlockRead.apply_eq]
    have htxs (rs : Nat → List Read) : (l.txs.mapIdx fun i t => t.andReads (rs i)).map Life.object =
        (l.txs.map Life.object).mapIdx fun i t => t.reads (rs i) := by
      apply List.ext_getElem?
      intro i
      simp [Life.object_andReads, Function.comp_def]
    simp only [andThen, block, HashedBlock.afterReads, Life.object_andReads, htxs]

theorem BlockLife.block_run (l : BlockLife) (uses : List BlockUse) :
    (l.run uses).block = l.block.run uses := by
  induction uses generalizing l with
  | nil => rfl
  | cons u uses ih =>
    rw [run, List.foldl_cons, HashedBlock.run, List.foldl_cons, ← block_andThen]
    exact ih (l.andThen u)

/-! ### Contents -/

theorem Hashed.contents_reads {α : Type} [Codec α] [Checked α] (rs : List Read) (x : Hashed α) :
    (x.reads rs).contents = x.contents := by
  induction rs generalizing x with
  | nil => rfl
  | cons r rs ih => exact (ih (r.apply x)).trans (r.contents_apply x)

theorem HashedBlock.toBlock_afterReads (rs : BlockReads) (b : HashedBlock) :
    (b.afterReads rs).toBlock = b.toBlock := by
  have htxs : (b.txs.mapIdx fun i t => t.reads (rs.tx i)).map Hashed.contents =
      b.txs.map Hashed.contents := by
    apply List.ext_getElem?
    intro i
    simp [Hashed.contents_reads, Function.comp_def]
  rw [toBlock, toBlock, afterReads, htxs, Hashed.contents_reads]

/-- Only edits change the contents. -/
theorem BlockUse.toBlock_apply (u : BlockUse) (b : HashedBlock) :
    (u.apply b).toBlock = u.contents b.toBlock := by
  cases u with
  | editHeader f => rfl
  | editTx i f =>
    have hedit (t : Hashed Transaction) : (t.edit f).contents = f t.contents := rfl
    simp only [apply, contents, HashedBlock.toBlock, map_modify hedit]
  | setHeader header =>
    simp only [apply, contents, HashedBlock.toBlock, Life.contents_object]
  | arrangeTxs slots =>
    have hslots : (slots.map (Sum.map id Life.object)).map (Sum.map id Hashed.contents) =
        slots.map (Sum.map id Life.contents) := by
      rw [List.map_map]
      congr 1
      funext slot
      cases slot <;> simp [Life.contents_object]
    simp only [apply, contents, HashedBlock.toBlock, map_arranged, hslots]
  | read r => rw [apply, BlockRead.apply_eq, HashedBlock.toBlock_afterReads, contents]

theorem HashedBlock.toBlock_run (uses : List BlockUse) (b : HashedBlock) :
    (b.run uses).toBlock = uses.foldl (fun b u => u.contents b) b.toBlock := by
  induction uses generalizing b with
  | nil => rfl
  | cons u uses ih =>
    rw [run, List.foldl_cons, List.foldl_cons, ← u.toBlock_apply]
    exact ih (u.apply b)

/-! ### Encoding and comparison -/

theorem HashedBlock.encode_eq (b : HashedBlock) : Codec.encode b = Codec.encode b.toBlock := by
  have htxs : (Codec.encode b.txs : Bytes) = Codec.encode (b.txs.map Hashed.contents) := by
    show Encode.list Codec.encode b.txs = Encode.list Codec.encode (b.txs.map Hashed.contents)
    rw [Encode.list, Encode.list, List.length_map, List.flatMap_map]
    rfl
  show (Codec.encode b.header ++ Codec.encode b.txs : Bytes) = _
  rw [htxs]
  rfl

theorem Hashed.beq_list (xs ys : List (Hashed Transaction)) :
    (xs == ys) = (xs.map contents == ys.map contents) := by
  induction xs generalizing ys with
  | nil => cases ys <;> rfl
  | cons x xs ih =>
    cases ys with
    | nil => rfl
    | cons y ys =>
      rw [List.map_cons, List.map_cons, List.cons_beq_cons, List.cons_beq_cons, ih]
      rfl

theorem HashedBlock.beq_eq (a b : HashedBlock) : (a == b) = (a.toBlock == b.toBlock) := by
  show (a.header.contents == b.header.contents && a.txs == b.txs) = _
  rw [Hashed.beq_list, Bool.eq_iff_iff, Bool.and_eq_true, beq_iff_eq, beq_iff_eq, beq_iff_eq,
    toBlock, toBlock, Block.mk.injEq]

/-- What is read off the wire remembers nothing. -/
theorem yields_hashed {α : Type} [Codec α] :
    Decoder.Yields (Codec.decode : Decoder (Hashed α)) fun x => x = { contents := x.contents } :=
  .seq fun _ => Decoder.yields_pure rfl

theorem yields_hashedBlock :
    Decoder.Yields (Codec.decode : Decoder HashedBlock) fun x => x = .ofBlock x.toBlock := by
  refine Decoder.Yields.bind yields_hashed fun header hheader => ?_
  refine Decoder.Yields.bind (Decoder.Yields.list yields_hashed) fun txs htxs => ?_
  apply Decoder.yields_pure
  have hsame : (txs.map Hashed.contents).map (fun t => ({ contents := t } : Hashed Transaction)) =
      txs := by
    rw [List.map_map]
    exact (List.map_congr_left fun t ht => (htxs t ht).symm).trans (List.map_id txs)
  rw [HashedBlock.ofBlock, HashedBlock.toBlock, hsame]
  exact congrArg (HashedBlock.mk · txs) hheader

/-! ### Up-to-date blocks -/

section

variable {α : Type} [Codec α] {x : Hashed α}

theorem Hashed.upToDate_rehash (x : Hashed α) : x.rehash.2.UpToDate := by
  intro h hremembered
  exact (Option.some.inj hremembered).symm

theorem Hashed.UpToDate.hash (h : x.UpToDate) : x.hash.2.UpToDate := by
  unfold Hashed.hash
  cases hx : x.remembered with
  | none => exact x.upToDate_rehash
  | some a => exact h

theorem Hashed.UpToDate.peek_eq (h : x.UpToDate) : x.peek = identity x.contents := by
  rw [peek]
  cases hx : x.remembered with
  | none => rfl
  | some a => exact h a hx

theorem Hashed.UpToDate.apply [Checked α] (h : x.UpToDate) (r : Read) : (r.apply x).UpToDate := by
  rcases (Use.read r).apply_cases x with ⟨-, happly⟩ | ⟨-, -, happly⟩ | ⟨-, -, hkept⟩
  · rw [show r.apply x = _ from happly]
    exact x.upToDate_rehash
  · rw [show r.apply x = _ from happly]
    exact h.hash
  · intro a ha
    rw [r.contents_apply]
    exact h a (hkept.symm.trans ha)

theorem Hashed.UpToDate.reads [Checked α] (h : x.UpToDate) (rs : List Read) :
    (x.reads rs).UpToDate := by
  induction rs generalizing x with
  | nil => exact h
  | cons r rs ih => exact ih (h.apply r)

end

namespace HashedBlock

variable {b : HashedBlock}

/-- Every hash that the block remembers is that of the contents. -/
structure UpToDate (b : HashedBlock) : Prop where
  header : b.header.UpToDate
  txs : ∀ t ∈ b.txs, t.UpToDate

/-- The summary that goes by the contents alone: the header with its hash, and the hashes of the
transactions. -/
def summaryOf (b : Block) : Json :=
  .obj [
    ("header", .obj [
      ("hash", .str (identity b.header).toHex),
      ("version", .str (Hex.ofNat 8 b.header.version.toUInt32.toNat)),
      ("hashPrevBlock", .str b.header.prevBlock.toHex),
      ("hashMerkleRoot", .str b.header.merkleRoot.toHex),
      ("nTime", .str (Text.timestamp b.header.time.toNat)),
      ("nBits", .str (Hex.ofNat 8 b.header.bits.toNat)),
      ("nNonce", .str (Hex.ofNat 8 b.header.nonce.toNat))]),
    ("transactions", .arr (b.txs.map fun t => .str (identity t).toHex))]

/-- Every answer about hashes is the one that is computed from the contents. -/
structure Current (b : HashedBlock) : Prop where
  hash : b.hash.1 = identity b.toBlock.header
  txHashes : b.txHashes.1 = b.toBlock.txs.map identity
  merkleRoot : b.merkleRoot.1 = Merkle.reduce (b.toBlock.txs.map identity)
  summary : b.summary = summaryOf b.toBlock

theorem upToDate_rehash (b : HashedBlock) : b.rehash.2.UpToDate where
  header := b.header.upToDate_rehash
  txs := by
    intro t ht
    obtain ⟨x, -, rfl⟩ := List.mem_map.mp ht
    exact x.upToDate_rehash

theorem toBlock_rehash (b : HashedBlock) : b.rehash.2.toBlock = b.toBlock :=
  (BlockUse.read .rehash).toBlock_apply b

theorem UpToDate.read (h : b.UpToDate) (r : BlockRead) : (r.apply b).UpToDate := by
  rw [r.apply_eq]
  refine ⟨h.header.reads _, fun t ht => ?_⟩
  obtain ⟨i, hi, rfl⟩ := List.mem_mapIdx.mp ht
  exact (h.txs _ (List.getElem_mem hi)).reads _

theorem UpToDate.summary_eq (h : b.UpToDate) : b.summary = summaryOf b.toBlock := by
  have htxs : (b.txs.map fun t => t.peek.toJson) =
      b.toBlock.txs.map fun t => .str (identity t).toHex := by
    rw [toBlock, List.map_map]
    exact List.map_congr_left fun t ht => congrArg Hash256.toJson (h.txs t ht).peek_eq
  rw [summary, Hashed.headerSummary, h.header.peek_eq, htxs]
  rfl

theorem UpToDate.current (h : b.UpToDate) : b.Current := by
  have htxs : b.txHashes.1 = b.toBlock.txs.map identity := by
    rw [txHashes_eq h.txs, toBlock, List.map_map]
    rfl
  have hroot : b.merkleRoot.1 = Merkle.reduce (b.toBlock.txs.map identity) :=
    (congrArg Merkle.root htxs).trans (Merkle.root_eq _)
  exact ⟨h.header.hash_eq, htxs, hroot, h.summary_eq⟩

/-- Reads of a block one after the other. -/
def readAll (rs : List BlockRead) (b : HashedBlock) : HashedBlock :=
  rs.foldl (fun b r => r.apply b) b

/-- Up to the next edit a block stays up to date. -/
theorem UpToDate.readAll (h : b.UpToDate) (rs : List BlockRead) :
    (b.readAll rs).UpToDate ∧ (b.readAll rs).toBlock = b.toBlock := by
  induction rs generalizing b with
  | nil => exact ⟨h, rfl⟩
  | cons r rs ih =>
    obtain ⟨hlast, hcontents⟩ := ih (h.read r)
    exact ⟨hlast, hcontents.trans ((BlockUse.read r).toBlock_apply b)⟩

end HashedBlock

/-! ### Any uses -/

/-- What a block remembers when its parts have these lives, and what that matters for. -/
structure BlockLife.Remembers (l : BlockLife) (x : HashedBlock) : Prop where
  header : l.header.Remembers x.header
  txs : List.Forall₂ Life.Remembers l.txs x.txs
  encoded : Codec.encode x = Codec.encode x.toBlock
  compared : ∀ y, (x == y) = (x.toBlock == y.toBlock)
  /-- After every hash was computed again, reads do not change that the answers are those of the
  contents. -/
  rehashed : ∀ reads, (x.rehash.2.readAll reads).toBlock = x.toBlock ∧
    (x.rehash.2.readAll reads).Current

theorem BlockLife.remembers_block (l : BlockLife) : l.Remembers l.block where
  header := l.header.remembers_object
  txs := by
    rw [block, List.forall₂_map_right_iff, List.forall₂_same]
    exact fun t _ => t.remembers_object
  encoded := l.block.encode_eq
  compared := l.block.beq_eq
  rehashed := by
    intro reads
    obtain ⟨hlast, hcontents⟩ := l.block.upToDate_rehash.readAll reads
    exact ⟨hcontents.trans l.block.toBlock_rehash, hlast.current⟩

/-- **Remembered hashes**: a transaction, a header, and every part of a block, however it was used,
remembers the hash of its contents at the last refresh, and none before it was needed. Only edits
change the contents, and only the contents count for encoding and comparison. A block of which every
hash was computed again answers by its contents up to the next edit. Objects that are read off the
wire begin like new ones. -/
theorem remembered_hashes :
    (∀ l : Life Transaction, l.Remembers l.object) ∧
    (∀ l : Life BlockHeader, l.Remembers l.object) ∧
    (∀ (b : Block) (uses : List BlockUse),
      ((BlockLife.new b).run uses).Remembers ((HashedBlock.ofBlock b).run uses) ∧
      ((HashedBlock.ofBlock b).run uses).toBlock = uses.foldl (fun b u => u.contents b) b) ∧
    (Decoder.Yields Codec.decode fun x : Hashed Transaction => x = { contents := x.contents }) ∧
    (Decoder.Yields Codec.decode fun x : Hashed BlockHeader => x = { contents := x.contents }) ∧
    Decoder.Yields Codec.decode fun x : HashedBlock => x = .ofBlock x.toBlock := by
  refine ⟨Life.remembers_object, Life.remembers_object, ?_, yields_hashed, yields_hashed,
    yields_hashedBlock⟩
  intro b uses
  have hblock : ((BlockLife.new b).run uses).block = (HashedBlock.ofBlock b).run uses := by
    rw [BlockLife.block_run, BlockLife.block_new]
  have hstart : (HashedBlock.ofBlock b).toBlock = b := by
    simp [HashedBlock.toBlock, HashedBlock.ofBlock, Function.comp_def]
  constructor
  · rw [← hblock]
    exact BlockLife.remembers_block _
  · rw [HashedBlock.toBlock_run, hstart]

end BitcoinPeer
