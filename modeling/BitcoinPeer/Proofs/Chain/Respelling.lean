import BitcoinPeer.Proofs.Chain.Encoding
import BitcoinPeer.Proofs.Codec.Respelling

/-!
# Transactions and blocks in other forms

A transaction or block that stands in an input with compact sizes longer than needed is read like
any other, and written again with the shortest ones. So the bytes that its hash is computed from are
those it was read from just if every compact size in these has its shortest form
(`ChainObject.decode_respelled`).
-/

namespace BitcoinPeer

open Decoder (Yields Exact exact_octets exact_uint32 exact_int32 exact_int64 exact_pure yields_pure
  yields_byteString)
open Recorder (Follows follows_plain follows_byteString follows_pure)

/-! ### Parts without a compact size -/

theorem Hash256.exact : Exact Codec.decode [] (Codec.encode : Hash256 → Bytes) :=
  .map (exact_octets 32)

theorem OutPoint.exact : Exact Codec.decode [] (Codec.encode : OutPoint → Bytes) :=
  Hash256.exact.bind fun _ => exact_uint32.bind fun _ => exact_pure rfl

theorem BlockHeader.exact : Exact Codec.decode [] (Codec.encode : BlockHeader → Bytes) :=
  exact_int32.bind fun _ => Hash256.exact.bind fun _ => Hash256.exact.bind fun _ =>
    exact_uint32.bind fun _ => exact_uint32.bind fun _ => exact_uint32.bind fun _ => exact_pure rfl

/-! ### Reading with notes -/

namespace TxIn

def recorder : Recorder TxIn := do
  let prevout ← Recorder.plain Codec.decode
  let scriptSig ← Recorder.byteString
  let sequence ← Recorder.plain Decoder.uint32
  return { prevout, scriptSig, sequence }

theorem follows_recorder : recorder.Follows Codec.decode [] Codec.encode :=
  (follows_plain OutPoint.exact).bind fun _ => follows_byteString.bind fun _ =>
    (follows_plain exact_uint32).bind fun _ => follows_pure rfl

theorem yields_fits : Yields (Codec.decode : Decoder TxIn) Fits :=
  .seq fun _ => yields_byteString.bind fun _ hscript => .seq fun _ => yields_pure hscript

end TxIn

namespace TxOut

def recorder : Recorder TxOut := do
  let value ← Recorder.plain Decoder.int64
  let scriptPubKey ← Recorder.byteString
  return { value, scriptPubKey }

theorem follows_recorder : recorder.Follows Codec.decode [] Codec.encode :=
  (follows_plain exact_int64).bind fun _ => follows_byteString.bind fun _ => follows_pure rfl

theorem yields_fits : Yields (Codec.decode : Decoder TxOut) Fits :=
  .seq fun _ => yields_byteString.bind fun _ hscript => yields_pure hscript

end TxOut

namespace Transaction

def recorder : Recorder Transaction := do
  let version ← Recorder.plain Decoder.int32
  let inputs ← Recorder.list TxIn.recorder
  let outputs ← Recorder.list TxOut.recorder
  let lockTime ← Recorder.plain Decoder.uint32
  return { version, inputs, outputs, lockTime }

theorem follows_recorder : recorder.Follows Codec.decode [] Codec.encode :=
  (follows_plain exact_int32).bind fun _ => TxIn.follows_recorder.list.bind fun _ =>
    TxOut.follows_recorder.list.bind fun _ => (follows_plain exact_uint32).bind fun _ =>
      follows_pure rfl

theorem yields_fits : Yields (Codec.decode : Decoder Transaction) Fits :=
  .seq fun _ => TxIn.yields_fits.allFit.bind fun _ hinputs => TxOut.yields_fits.allFit.bind
    fun _ houtputs => .seq fun _ => yields_pure ⟨hinputs, houtputs⟩

end Transaction

namespace Block

def recorder : Recorder Block := do
  let header ← Recorder.plain Codec.decode
  let txs ← Recorder.list Transaction.recorder
  return { header, txs }

theorem follows_recorder : recorder.Follows Codec.decode [] Codec.encode :=
  (follows_plain BlockHeader.exact).bind fun _ => Transaction.follows_recorder.list.bind fun _ =>
    follows_pure rfl

theorem yields_fits : Yields (Codec.decode : Decoder Block) Fits :=
  .seq fun _ => Transaction.yields_fits.allFit.bind fun _ htxs => yields_pure htxs

end Block

/-! ### Both of them -/

/-- What is named by a hash and has lists in it. -/
inductive ChainObject where
  | transaction
  | block

namespace ChainObject

def Value : ChainObject → Type
  | transaction => Transaction
  | block => Block

instance codec : (t : ChainObject) → Codec t.Value
  | transaction => inferInstanceAs (Codec Transaction)
  | block => inferInstanceAs (Codec Block)

def recorder : (t : ChainObject) → Recorder t.Value
  | transaction => Transaction.recorder
  | block => Block.recorder

/-- No byte string and no list in the value is longer than a length may say. -/
def Fits : (t : ChainObject) → t.Value → Prop
  | transaction => Transaction.Fits
  | block => Block.Fits

theorem follows_recorder (t : ChainObject) : t.recorder.Follows Codec.decode [] Codec.encode := by
  cases t with
  | transaction => exact Transaction.follows_recorder
  | block => exact Block.follows_recorder

theorem yields_fits (t : ChainObject) : Yields (Codec.decode : Decoder t.Value) t.Fits := by
  cases t with
  | transaction => exact Transaction.yields_fits
  | block => exact Block.yields_fits

theorem reads (t : ChainObject) {v : t.Value} (h : t.Fits v) :
    (Codec.decode : Decoder t.Value).Reads (Codec.encode v) v := by
  cases t with
  | transaction => exact Transaction.reads h
  | block => exact Block.reads h

/-- **Read in any form, written in the shortest**: with its notes on compact sizes left out the
decoder with notes is the decoder. What is read comes back from what is written of it. That is not
more than the bytes it was read from, and as many, or just these, if and only if every compact size
in them has its shortest form. Every value that may be written comes back. -/
theorem decode_respelled (t : ChainObject) :
    Prod.fst <$> t.recorder.run [] = Codec.decode ∧
    (∀ (bs rest : Bytes) (v : t.Value), Codec.decode.run bs = .ok (v, rest) →
      ∃ used sizes, bs = used ++ rest ∧ (t.recorder.run []).run bs = .ok ((v, sizes), rest) ∧
        (∀ more, Codec.decode.run (Codec.encode v ++ more) = .ok (v, more)) ∧
        (Codec.encode v).length ≤ used.length ∧
        List.TFAE [(Codec.encode v).length = used.length, Codec.encode v = used,
          ∀ f ∈ sizes, f.Shortest]) ∧
    ∀ v : t.Value, t.Fits v →
      ∀ more, Codec.decode.run (Codec.encode v ++ more) = .ok (v, more) := by
  refine ⟨t.follows_recorder.erase [], ?_, fun v hfits => t.reads hfits⟩
  intro bs rest v hrun
  obtain ⟨sizes, hnoted⟩ := t.follows_recorder.exists_run [] hrun
  obtain ⟨sizes, used, written, rfl, hbs, hwritten, hrespelled⟩ :=
    t.follows_recorder.respelled hnoted
  obtain rfl : Codec.encode v = written := hwritten
  exact ⟨used, sizes, hbs, hnoted, t.reads (t.yields_fits hrun), hrespelled.length_le,
    hrespelled.tfae⟩

/-- A transaction whose number of inputs stands in three bytes. -/
theorem decode_respelled_padded :
    let bs : Bytes := [1, 0, 0, 0, 0xfd, 0, 0, 0, 0, 0, 0, 0, 7]
    (Codec.decode : Decoder Transaction).run bs = .ok ({}, [7]) ∧
      Transaction.Fits {} ∧
      (Codec.decode : Decoder Transaction).run (Codec.encode ({} : Transaction) ++ [7]) =
        .ok ({}, [7]) ∧
      ∃ sizes, (Transaction.recorder.run []).run bs = .ok (({}, sizes), [7]) ∧
        ¬∀ f ∈ sizes, f.Shortest := by
  intro bs
  have hrun : (Codec.decode : Decoder Transaction).run bs = .ok ({}, [7]) := by decide
  have hfits : Transaction.Fits {} := ⟨⟨by decide, nofun⟩, ⟨by decide, nofun⟩⟩
  obtain ⟨-, hread, hwritten⟩ := decode_respelled .transaction
  obtain ⟨used, sizes, hused, hnoted, -, -, htfae⟩ := hread bs [7] ({} : Transaction) hrun
  refine ⟨hrun, hfits, hwritten ({} : Transaction) hfits [7], sizes, hnoted, ?_⟩
  intro hall
  -- only ten bytes are written
  have hlen : (Codec.encode ({} : Transaction)).length = used.length := (htfae.out 2 0).mp hall
  have htotal := congrArg List.length hused
  rw [List.length_append, ← hlen] at htotal
  revert htotal
  decide

end ChainObject

end BitcoinPeer
