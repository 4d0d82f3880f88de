import BitcoinPeer.Proofs.Net.Lifecycle

/-!
# The inputs of an open session

While a session is open, bytes arrive, messages are handled one at a time, others are sent and the
transport takes what is waiting (`Input`). Reads in any pieces come down to such inputs
(`exists_feedAll_eq`), so what holds after every list of them holds at every moment of a run.
-/

namespace BitcoinPeer.Session

variable {s t : Session} {now : Instant} {m : Message}

/-! ### What happens to an open session -/

/-- What happens to an open session, as small as it gets. -/
inductive Input where
  /-- Bytes arrive. -/
  | bytes (bs : Bytes)
  /-- The next message in the receive buffer is handled, if there is one. -/
  | next (now : Instant)
  /-- A message is sent from outside; the session goes on if that fails. -/
  | say (now : Instant) (m : Message)
  /-- The transport takes bytes. -/
  | written (n : Nat)

def react : Input → Session → Except ConnectionError Unit × Session
  | .bytes bs, s => (.ok (), s.receive bs)
  | .next now, s =>
    andThen (s.act Connection.nextMessage) fun
      | none, t => (.ok (), t)
      | some m, t => t.deliver now m
  | .say now m, s => (.ok (), (s.act (Connection.send now m false)).2)
  | .written n, s => (.ok (), { s with conn := s.conn.consume n })

/-- Takes one input after the other, up to the first error. -/
def reactAll : List Input → Session → Except ConnectionError Unit × Session
  | [], s => (.ok (), s)
  | i :: inputs, s => andThen (s.react i) fun _ t => t.reactAll inputs

def Input.arrived : Input → Bytes
  | bytes bs => bs
  | _ => []

/-- The bytes that arrive. -/
def arrived (inputs : List Input) : Bytes :=
  inputs.flatMap Input.arrived

theorem reactAll_append (inputs more : List Input) (s : Session) :
    s.reactAll (inputs ++ more) = andThen (s.reactAll inputs) fun _ t => t.reactAll more := by
  induction inputs generalizing s with
  | nil => rfl
  | cons i inputs ih =>
    rw [List.cons_append, reactAll, reactAll, andThen_assoc]
    exact congrArg _ (funext fun _ => funext ih)

theorem react_next (now : Instant) (s : Session) :
    s.react (.next now) =
      match s.conn.codec.decode s.conn.receiveBuffer with
      | (.error e, rest) => (.error e, (s.leave rest).complain e)
      | (.ok none, rest) => (.ok (), s.leave rest)
      | (.ok (some m), rest) => (s.leave rest).deliver now m := by
  have hnext : s.react (.next now) = andThen (s.act Connection.nextMessage) _ := rfl
  rw [hnext, act_nextMessage]
  rcases s.conn.codec.decode s.conn.receiveBuffer with ⟨_ | _ | _, _⟩ <;> rfl

/-- Handling what is in the buffer is handling one message after the other. -/
theorem exists_processReceived_eq (h : s.handlers = Handlers.usual) (now : Instant) :
    ∃ n, s.processReceived now = s.reactAll (List.replicate n (.next now)) := by
  induction hn : s.conn.receiveBuffer.length using Nat.strongRecOn generalizing s with
  | ind n ih =>
  have hone : s.reactAll [.next now] = s.react (.next now) := andThen_pure _
  have hnext := react_next now s
  rw [processReceived_eq h]
  rcases hdecode : s.conn.codec.decode s.conn.receiveBuffer with ⟨e | _ | m, rest⟩ <;>
    rw [hdecode] at hnext
  · exact ⟨1, (hone.trans hnext).symm⟩
  · exact ⟨1, (hone.trans hnext).symm⟩
  · have hlt := FrameCodec.rest_lt_of_decode_some hdecode
    obtain ⟨husual, hunread⟩ := deliver_unread (s := s.leave rest) h now m
    dsimp only at hnext ⊢
    rcases hdeliver : (s.leave rest).deliver now m with ⟨e | _, t⟩ <;>
      rw [hdeliver] at husual hunread hnext
    · exact ⟨1, (hone.trans hnext).symm⟩
    · obtain ⟨k, hk⟩ := ih rest.length (hn ▸ hlt) husual (congrArg List.length hunread)
      refine ⟨k + 1, ?_⟩
      rw [List.replicate_succ, reactAll, hnext]
      exact hk

/-- Reads in any pieces and at any times, with the messages handled one at a time. -/
theorem exists_feedAll_eq (h : s.handlers = Handlers.usual) (reads : List (Instant × Bytes)) :
    ∃ inputs, s.feedAll reads = s.reactAll inputs ∧
      arrived inputs = (reads.map Prod.snd).flatten := by
  induction reads generalizing s with
  | nil => exact ⟨[], rfl, rfl⟩
  | cons read reads ih =>
    obtain ⟨now, bs⟩ := read
    obtain ⟨n, hn⟩ := exists_processReceived_eq (s := s.receive bs) h now
    have hfeed : s.feed now bs = s.reactAll (.bytes bs :: List.replicate n (.next now)) := hn
    have harrived : arrived (.bytes bs :: List.replicate n (.next now)) = bs := by
      simp [arrived, Input.arrived]
    have husual := (processReceived_appends (s := s.receive bs) h now).1
    rw [feedAll]
    rcases hresult : s.feed now bs with ⟨e | _, t⟩
    · -- what would be read after an error is kept as bytes only
      refine ⟨.bytes bs :: List.replicate n (.next now) ++
        (reads.map fun read => .bytes read.2), ?_, ?_⟩
      · rw [reactAll_append, ← hfeed, hresult]
        rfl
      · rw [arrived, List.flatMap_append, ← arrived, harrived]
        simp only [List.flatMap_def, List.map_map]
        rfl
    · rw [show (s.receive bs).processReceived now = _ from hresult] at husual
      obtain ⟨inputs, hinputs, hmore⟩ := ih husual
      refine ⟨.bytes bs :: List.replicate n (.next now) ++ inputs, ?_, ?_⟩
      · rw [reactAll_append, ← hfeed, hresult, andThen_ok, andThen_ok, hinputs]
      · rw [arrived, List.flatMap_append, ← arrived, ← arrived, harrived, hmore]
        rfl

/-! ### What one message changes -/

/-- What becomes of a session that handles a message: it may fail before the message is handed on,
or after that. -/
inductive Took (now : Instant) (m : Message) (s : Session) :
    Except ConnectionError Unit × Session → Prop
  | refused {e : ConnectionError} {t : Session}
      (sends : (s.setCodec (s.conn.codec.heard m)).Sends t) : Took now m s (.error e, t)
  | handed {r : Except ConnectionError Unit} {t : Session} (handlers : t.handlers = s.handlers)
      (calls : t.calls = s.calls ++ [.message m]) (tracker : t.tracker = s.tracker.record now m)
      (codec : t.conn.codec = s.conn.codec.heard m ∨
        t.conn.codec = (s.conn.codec.heard m).agreed m)
      (unread : t.conn.receiveBuffer = s.conn.receiveBuffer) : Took now m s (r, t)

theorem deliver_took (h : s.handlers = Handlers.usual) (now : Instant) (m : Message) :
    Took now m s (s.deliver now m) := by
  have hgot := Sends.gotMessage now m s
  rw [deliver_eq]
  rcases hresult : s.act (Connection.gotMessage now m) with ⟨_ | _, t⟩ <;> rw [hresult] at hgot
  · exact .refused hgot
  · obtain ⟨sendBuffer, lastSent, log, rfl⟩ : (s.setCodec (s.conn.codec.heard m)).Sends t := hgot
    rw [andThen_ok]
    generalize hu : record now m _ = u
    have hsent := Sends.sendAll now (u.conn.codec.replies m) u
    rw [show u.handlers = Handlers.usual from hu ▸ h, act_dispatch]
    rcases hreplies : u.act (Connection.sendAll now (u.conn.codec.replies m)) with ⟨_ | _, v⟩ <;>
      rw [hreplies] at hsent <;> obtain ⟨sendBuffer', lastSent', log', rfl⟩ := hsent <;> subst hu
    · exact .handed rfl rfl rfl (.inl rfl) rfl
    · exact .handed rfl rfl rfl (.inr rfl) rfl

end BitcoinPeer.Session
