import BitcoinPeer.Proofs.Message.Encoding

/-!
# Messages, written and read back

A message that is written as a payload is read back by its command in its canonical form
(`decodePayload_encodePayload`). Reading gives nothing but messages in canonical form, and of the
command by which they were read.
-/

namespace BitcoinPeer.Message

open Decoder (Reads Yields reads_bool reads_uint64 reads_list reads_list_same reads_pure yields_pure)

/-- The form in which a message is read back. A version message has the fields that its version calls
for; policies and hashes that another field keeps off the wire are lost; mapped addresses, kinds of
objects and short ids have the forms that the wire has for them. All else stays as it is. -/
def canon : Message → Message
  | version m => version m.canon
  | protoconf p => protoconf p.canon
  | addr addresses => addr (addresses.map SeenAddress.canon)
  | inv entries => inv (entries.map Inventory.canon)
  | getData entries => getData (entries.map Inventory.canon)
  | notFound entries => notFound (entries.map Inventory.canon)
  | reject r => reject r.canon
  | compactBlock c => compactBlock c.canon
  | m => m

/-- No byte string, text or list that is written has more than 2³² elements. -/
def Fits : Message → Prop
  | version m => m.Fits
  | protoconf p => p.Fits
  | createStream c => c.Fits
  | addr addresses => addresses.length ≤ maxLength.toNat
  | alert a => a.Fits
  | inv entries | getData entries | notFound entries => entries.length ≤ maxLength.toNat
  | getBlocks r | getHeaders r => r.Fits
  | tx t => t.Fits
  | block b => b.Fits
  | headers hs => hs.length ≤ maxLength.toNat
  | reject r => r.Fits
  | compactBlock c => c.Fits
  | getBlockTxn r => r.Fits
  | blockTxn b => b.Fits
  | merkleBlock m => m.Fits
  | _ => True

/-- The payload says all that is needed to read it: a stream's association is named, and a ping has a
nonce if and only if pings are read with one. -/
def Readable (legacyPing : Bool) : Message → Prop
  | createStream c => c.associationId.isSome
  | streamAck a => a.associationId.isSome
  | ping nonce => nonce.isNone = legacyPing
  | _ => True

instance (legacyPing : Bool) (m : Message) : Decidable (m.Readable legacyPing) := by
  cases m <;> simp only [Readable] <;> infer_instance

theorem canon_canon (m : Message) : m.canon.canon = m.canon := by
  cases m <;> simp only [canon, VersionMessage.canon_canon, Protoconf.canon_canon, List.map_map,
    Function.comp_def, SeenAddress.canon_canon, Inventory.canon_canon, Reject.canon_canon,
    CompactBlock.canon_canon]

theorem command_canon (m : Message) : m.canon.command = m.command := by
  cases m <;> rfl

/-- A message fits if its payload is no longer than a length may say. -/
theorem fits_of_length (m : Message) (h : m.encodePayload.length ≤ maxLength.toNat) : m.Fits := by
  have hinventory (entries : List Inventory) :
      entries.length ≤ (Encode.list Codec.encode entries).length :=
    Encode.length_le_list (fun i => by rw [Inventory.length_encode]; decide) entries
  cases m with
  | version m => exact m.fits_of_length h
  | protoconf p => exact p.fits_of_length h
  | createStream c => exact c.fits_of_length h
  | addr addresses =>
    exact Nat.le_trans (Encode.length_le_list SeenAddress.encode_pos addresses) h
  | alert a => exact a.fits_of_length h
  | inv entries | getData entries | notFound entries => exact Nat.le_trans (hinventory entries) h
  | getBlocks r | getHeaders r => exact r.fits_of_length h
  | tx t => exact t.fits_of_length h
  | block b => exact b.fits_of_length h
  | headers hs =>
    have hle := Encode.length_le_list Block.encode_pos (hs.map fun header => { header : Block })
    rw [List.length_map] at hle
    exact Nat.le_trans hle h
  | reject r => exact r.fits_of_length h
  | compactBlock c => exact c.fits_of_length h
  | getBlockTxn r => exact r.fits_of_length h
  | blockTxn b => exact b.fits_of_length h
  | merkleBlock m => exact m.fits_of_length h
  | _ => trivial

theorem reads_inventory {entries : List Inventory} (h : entries.length ≤ maxLength.toNat) :
    Reads Codec.decode (Codec.encode entries) (entries.map Inventory.canon) :=
  reads_list (.of_true h) fun i _ => i.reads

/-- Headers travel as blocks without transactions. -/
theorem reads_headers {hs : List BlockHeader} (h : hs.length ≤ maxLength.toNat) :
    Reads ((fun bs : List Block => headers (bs.map Block.header)) <$> Codec.decode)
      (encodePayload (headers hs)) (headers hs) := by
  have hread : Reads Codec.decode (Codec.encode (hs.map fun header => { header : Block }))
      (hs.map fun header => { header : Block }) := by
    have hfit : AllFit Block.Fits (hs.map fun header => { header : Block }) := {
      length := by rwa [List.length_map]
      each := fun b hb => by
        obtain ⟨header, -, rfl⟩ := List.mem_map.mp hb
        exact ⟨Nat.zero_le _, fun t ht => absurd ht List.not_mem_nil⟩ }
    exact reads_list_same hfit fun _ => Block.reads
  have hheaders := hread.map (g := fun bs : List Block => headers (bs.map Block.header))
  simp only [List.map_map, Function.comp_def, List.map_id'] at hheaders
  exact hheaders

/-- Each command has the decoder that reads the payloads of its messages back. -/
theorem exists_decoder {legacyPing : Bool} {m : Message} (hfits : m.Fits)
    (hm : m.Readable legacyPing) :
    ∃ d, decoder legacyPing m.command = some d ∧ d.front m.encodePayload = .ok m.canon := by
  cases m with
  | version m =>
    refine ⟨_, rfl, ?_⟩
    rw [encodePayload, Decoder.front, map_eq_pure_bind,
      Decoder.run_bind_ok _ (VersionMessage.run_encode hfits)]
    rfl
  | verack => exact ⟨_, rfl, rfl⟩
  | protoconf p => exact ⟨_, rfl, (Protoconf.reads hfits).map.front⟩
  | createStream c => exact ⟨_, rfl, (CreateStream.reads hm hfits).map.front⟩
  | streamAck a => exact ⟨_, rfl, (StreamAck.reads hm).map.front⟩
  | addr addresses =>
    exact ⟨_, rfl, (reads_list (.of_true hfits) fun a _ => SeenAddress.reads a).map.front⟩
  | alert a => exact ⟨_, rfl, (Alert.reads hfits).map.front⟩
  | inv entries => exact ⟨_, rfl, (reads_inventory hfits).map.front⟩
  | getData entries => exact ⟨_, rfl, (reads_inventory hfits).map.front⟩
  | notFound entries => exact ⟨_, rfl, (reads_inventory hfits).map.front⟩
  | getBlocks r => exact ⟨_, rfl, (LocatorRequest.reads hfits).map.front⟩
  | getHeaders r => exact ⟨_, rfl, (LocatorRequest.reads hfits).map.front⟩
  | tx t => exact ⟨_, rfl, (Transaction.reads hfits).map.front⟩
  | block b => exact ⟨_, rfl, (Block.reads hfits).map.front⟩
  | headers hs => exact ⟨_, rfl, (reads_headers hfits).front⟩
  | getAddr => exact ⟨_, rfl, rfl⟩
  | mempool => exact ⟨_, rfl, rfl⟩
  | ping nonce =>
    cases nonce with
    | none =>
      obtain rfl : true = legacyPing := hm
      exact ⟨_, rfl, rfl⟩
    | some nonce =>
      obtain rfl : false = legacyPing := hm
      exact ⟨_, rfl, (reads_uint64 nonce).map.front⟩
  | pong nonce => exact ⟨_, rfl, (reads_uint64 nonce).map.front⟩
  | reject r => exact ⟨_, rfl, (Reject.reads hfits).map.front⟩
  | feeFilter rate => exact ⟨_, rfl, (reads_uint64 rate).map.front⟩
  | sendHeaders => exact ⟨_, rfl, rfl⟩
  | sendCompact announce scheme =>
    refine ⟨_, rfl, Reads.front ?_⟩
    exact .bind (reads_bool announce) <| .ret (reads_uint64 scheme)
  | compactBlock c => exact ⟨_, rfl, (CompactBlock.reads hfits).map.front⟩
  | getBlockTxn r => exact ⟨_, rfl, (BlockTransactionsRequest.reads hfits).map.front⟩
  | blockTxn b => exact ⟨_, rfl, (BlockTransactions.reads hfits).map.front⟩
  | merkleBlock m => exact ⟨_, rfl, (MerkleBlock.reads hfits).map.front⟩

/-- Whatever a command's decoder reads is a message of that command in its canonical form. -/
theorem decoder_yields {legacyPing : Bool} {command : String} {d : Decoder Message}
    (h : decoder legacyPing command = some d) :
    d.Yields fun m => m.command = command ∧ m.canon = m := by
  have hinventory : Yields Codec.decode fun entries : List Inventory =>
      entries.map Inventory.canon = entries :=
    Inventory.yields.list.mono fun entries h => by rw [List.map_congr_left h, List.map_id']
  have haddresses : Yields Codec.decode fun addresses : List SeenAddress =>
      addresses.map SeenAddress.canon = addresses :=
    SeenAddress.yields.list.mono fun addresses h => by rw [List.map_congr_left h, List.map_id']
  unfold decoder at h
  split at h <;> cases h
  -- the messages with something to bring into canonical form, in the order of the commands
  case h_1.refl => exact .map <| VersionMessage.yields.mono fun _ h => ⟨rfl, congrArg version h⟩
  case h_3.refl => exact .map <| Protoconf.yields.mono fun _ h => ⟨rfl, congrArg protoconf h⟩
  case h_6.refl => exact .map <| haddresses.mono fun _ h => ⟨rfl, congrArg addr h⟩
  case h_8.refl => exact .map <| hinventory.mono fun _ h => ⟨rfl, congrArg inv h⟩
  case h_9.refl => exact .map <| hinventory.mono fun _ h => ⟨rfl, congrArg getData h⟩
  case h_10.refl => exact .map <| hinventory.mono fun _ h => ⟨rfl, congrArg notFound h⟩
  case h_20.refl => exact .map <| Reject.yields.mono fun _ h => ⟨rfl, congrArg reject h⟩
  case h_24.refl => exact .map <| CompactBlock.yields.mono fun _ h => ⟨rfl, congrArg compactBlock h⟩
  case h_18.refl =>
    cases legacyPing
    · exact .map fun _ _ _ _ => ⟨rfl, rfl⟩
    · exact yields_pure ⟨rfl, rfl⟩
  case h_23.refl => exact .seq fun _ => .seq fun _ => yields_pure ⟨rfl, rfl⟩
  all_goals first
    | exact yields_pure ⟨rfl, rfl⟩
    | exact .map fun _ _ _ _ => ⟨rfl, rfl⟩

/-- Reading a payload by the command of its message gives the canonical form. -/
theorem decodePayload_of_readable {legacyPing : Bool} {m : Message} (hfits : m.Fits)
    (hm : m.Readable legacyPing) :
    decodePayload legacyPing m.command m.encodePayload = .ok (some m.canon) := by
  obtain ⟨d, hd, hfront⟩ := exists_decoder hfits hm
  simp only [decodePayload, hd, hfront]
  rfl

/-- Every message that is read is of the command it is read by, and in canonical form. -/
theorem canonical_of_decodePayload {legacyPing : Bool} {command : String} {payload : Bytes}
    {m : Message} (h : decodePayload legacyPing command payload = .ok (some m)) :
    m.command = command ∧ m.canon = m := by
  unfold decodePayload at h
  cases hd : decoder legacyPing command with
  | none => simp [hd] at h
  | some d =>
    rw [hd] at h
    cases hfront : d.front payload with
    | error e => simp [hfront, Except.map] at h
    | ok m' =>
      simp only [hfront, Except.map, Except.ok.injEq, Option.some.injEq] at h
      exact h ▸ (decoder_yields hd).front hfront

/-- **Round trip**: the payload of a message is read back by its command as the canonical form of the
message, to which nothing is left to do; and every message that any payload is read as, by any
command, is of that command and in canonical form. -/
theorem decodePayload_encodePayload :
    (∀ (legacyPing : Bool) (m : Message), m.Fits → m.Readable legacyPing →
      decodePayload legacyPing m.command m.encodePayload = .ok (some m.canon)) ∧
    (∀ m : Message, m.canon.canon = m.canon) ∧
    (∀ (legacyPing : Bool) (command : String) (payload : Bytes) (m : Message),
      decodePayload legacyPing command payload = .ok (some m) → m.command = command ∧ m.canon = m) :=
  ⟨fun _ _ => decodePayload_of_readable, canon_canon, fun _ _ _ _ => canonical_of_decodePayload⟩

/-- Version 10300 means 300, which has no relay flag and calls for four fields that are absent here;
the receiver's address is a mapped one. -/
theorem decodePayload_encodePayload_misspelled :
    let written : Message := version {
      version := 10300
      services := Services.network
      time := 0
      receiver := { ip := .v6 (IpAddress.toMapped (Octets.zero 4)) }
      relay := true }
    let read : Message := version {
      version := 300
      services := Services.network
      time := 0
      receiver := { ip := .v4 (Octets.zero 4) }
      sender := some {}
      nonce := some 0
      userAgent := some ""
      startHeight := some (-1) }
    written.Fits ∧ written.Readable false ∧ written ≠ read ∧ read.canon = read ∧
      decodePayload false "version" written.encodePayload = .ok (some read) := by
  intro written read
  have hfits : written.Fits := fun _ => by decide
  have hread : decodePayload false "version" written.encodePayload = .ok (some read) :=
    decodePayload_encodePayload.1 false written hfits trivial
  exact ⟨hfits, trivial, by decide, (decodePayload_encodePayload.2.2 _ _ _ _ hread).2, hread⟩

end BitcoinPeer.Message
