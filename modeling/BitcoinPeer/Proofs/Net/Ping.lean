import BitcoinPeer.Net.Registry
import BitcoinPeer.Proofs.Net.Queue

/-!
# Waiting for the answer to a ping

A call queues a ping and returns in time once the latest pong has its nonce. The nonce changes only
when a call returns in time, so the pings of all calls since then share it, and the answer to any of
them ends the wait: one of these pings was processed by the peer (`exists_processed_of_conclude`), but
not always the one of the call that returns (`exists_unprocessed_of_conclude`). The invariant says
where the pings with the present nonce stand (`Tidy`), and every step keeps it (`Tidy.step`).
-/

namespace BitcoinPeer

/-! ### Calls and the peer -/

/-- The nonces that a peer answers a message with. -/
def Message.echoes : Message → List UInt64
  | .ping (some nonce) => [nonce]
  | _ => []

theorem Message.eq_of_mem_echoes {m : Message} {nonce : UInt64} (h : nonce ∈ m.echoes) :
    m = .ping (some nonce) := by
  unfold echoes at h
  split at h
  · rw [List.mem_singleton.mp h]
  · exact absurd h List.not_mem_nil

/-- A session with one handle, and its peer, which processes what was queued in order and answers
every ping. -/
structure Exchange where
  session : Session
  handle : SessionHandle := { id := 0 }
  /-- The messages that the peer has processed, the oldest first. -/
  processed : List Message := []
  /-- The messages that are queued behind them. -/
  toPeer : List Message := []
  /-- The nonces of the pongs on their way back. -/
  pongs : List UInt64 := []
  /-- Whether a call waits for its pong. -/
  calling : Bool := false
  /-- How many messages were queued before the ping of each call since the last that returned in time,
  the latest first. -/
  pings : List Nat := []
  /-- How many calls have returned in time. -/
  succeeded : Nat := 0

namespace Exchange

def queued (x : Exchange) : List Message :=
  x.processed ++ x.toPeer

/-- The outcome of an action of the session. What it has sent is queued, unless it failed. -/
def follow (outcome : Except ConnectionError Unit × Session) (x : Exchange) :
    Except ConnectionError Unit × Exchange :=
  match outcome with
  | (.ok (), session) =>
    (.ok (), { x with session, toPeer := x.toPeer ++ session.sent.drop x.session.sent.length })
  | (.error e, session) => (.error e, { x with session })

/-- A call queues its ping and waits, unless the ping could not be sent. -/
def call (now : Instant) (x : Exchange) : Except ConnectionError Unit × Exchange :=
  match x.follow (x.session.sendPing now x.handle) with
  | (.ok (), y) => (.ok (), { y with calling := true, pings := x.queued.length :: x.pings })
  | (.error e, y) => (.error e, y)

/-- The call returns: in time if its pong is there, and with an error if its time is up. -/
def conclude (x : Exchange) : Except ConnectionError Unit × Exchange :=
  match x.handle.afterPong x.session with
  | (.ok (), handle) =>
    (.ok (), { x with handle, calling := false, pings := [], succeeded := x.succeeded + 1 })
  | (.error e, handle) => (.error e, { x with handle, calling := false })

inductive Event where
  /-- A message is sent from outside. -/
  | say (now : Instant) (m : Message)
  /-- The next call is made, if none waits. -/
  | call (now : Instant)
  /-- The call that waits returns. -/
  | conclude
  /-- The peer processes the next message. -/
  | process
  /-- The next pong is delivered. -/
  | deliver (now : Instant)
  /-- The counts of received messages are cleared. -/
  | clear

/-- Pings that ask for an answer are left to the calls. -/
def Event.Allowed : Event → Prop
  | say _ m => ∀ nonce, m = .ping (some nonce) → nonce = 0
  | _ => True

def step : Event → Exchange → Except ConnectionError Unit × Exchange
  | .say now m, x => x.follow (x.session.act (Connection.send now m false))
  | .call now, x => if x.calling then (.ok (), x) else x.call now
  | .conclude, x => if x.calling then x.conclude else (.ok (), x)
  | .process, x =>
    match x.toPeer with
    | [] => (.ok (), x)
    | m :: ms =>
      (.ok (), { x with
        processed := x.processed ++ [m]
        toPeer := ms
        pongs := x.pongs ++ m.echoes })
  | .deliver now, x =>
    match x.pongs with
    | [] => (.ok (), x)
    | nonce :: pongs =>
      { x with pongs }.follow (x.session.deliver now (.pong nonce))
  | .clear, x => (.ok (), { x with session.tracker := x.session.tracker.clear })

end Exchange

/-- A connected session with the usual handlers, whose peer knows ping nonces. -/
structure Session.Open (s : Session) : Prop where
  connected : s.conn.state = .connected
  usual : s.handlers = Handlers.usual
  legacyPing : s.conn.codec.legacyPing = false

namespace Exchange

/-- No call was made yet, and no ping asks for an answer. -/
structure Fresh (x : Exchange) : Prop where
  session : x.session.Open
  counter : x.handle.pingCounter = 1
  calls : x.calling = false ∧ x.pings = [] ∧ x.succeeded = 0
  queued : ∀ nonce, .ping (some nonce) ∈ x.queued → nonce = 0
  pongs : ∀ nonce ∈ x.pongs, nonce = 0
  latest : ∀ nonce, x.session.tracker.lastPong? = some nonce → nonce = 0

/-- What becomes of a session and its peer by any steps. -/
inductive Reachable : Exchange → Prop
  | start {x : Exchange} (h : x.Fresh) : Reachable x
  | step {x : Exchange} (h : Reachable x) {e : Event} (he : e.Allowed) : Reachable (x.step e).2

def run (events : List Event) (x : Exchange) : Exchange :=
  events.foldl (fun x e => (x.step e).2) x

theorem Reachable.run {x : Exchange} (h : Reachable x) {events : List Event}
    (hevents : ∀ e ∈ events, e.Allowed) : Reachable (x.run events) := by
  induction events generalizing x with
  | nil => exact h
  | cons e events ih =>
    exact ih (h.step (hevents e List.mem_cons_self)) fun e he => hevents e (List.mem_cons_of_mem _ he)

end Exchange

/-! ### The latest pong -/

theorem SessionHandle.afterPong_eq (handle : SessionHandle) (s : Session) :
    handle.afterPong s =
      if s.tracker.lastPong? = some handle.pingCounter then
        (.ok (), { handle with pingCounter := handle.pingCounter + 1 })
      else (.error (.timeout "pong"), handle) := by
  rw [afterPong, Session.checkFor, Session.has]
  by_cases h : s.tracker.lastPong? = some handle.pingCounter
  · rw [if_pos (decide_eq_true h), if_pos h]
  · rw [if_neg (by simpa using h), if_neg h]
    rfl

/-! ### What a step can do -/

namespace Exchange

variable {x : Exchange}

/-- What an action has sent is queued. -/
theorem follow_ok {s : Session} {ms : List Message} (hsent : s.sent = x.session.sent ++ ms) :
    x.follow (.ok (), s) = (.ok (), { x with session := s, toPeer := x.toPeer ++ ms }) := by
  rw [follow, hsent, List.drop_left]

/-- A message is queued, or sending it fails and nothing is queued. -/
theorem follow_send (h : x.session.Open) (now : Instant) (m : Message) :
    ∃ s : Session, s.Open ∧ s.tracker = x.session.tracker ∧
      (x.follow (x.session.act (Connection.send now m false)) =
          (.ok (), { x with session := s, toPeer := x.toPeer ++ [m] }) ∨
        ∃ e, x.follow (x.session.act (Connection.send now m false)) =
          (.error e, { x with session := s })) := by
  by_cases hsize : m.encodePayload.length ≤ FrameCodec.maxPayload
  · refine ⟨x.session.queueAll now [m], ⟨h.connected, h.usual, h.legacyPing⟩, rfl, .inl ?_⟩
    rw [Session.act_send_of_size (.inl h.connected) hsize]
    exact follow_ok (Session.sent_queueAll [m])
  · have hencode : x.session.conn.codec.encode m =
        .error (.payloadTooLarge (UInt32.ofNat m.encodePayload.length)) :=
      if_pos (Nat.not_le.mp hsize)
    refine ⟨x.session.report (.sending m), ⟨h.connected, h.usual, h.legacyPing⟩, rfl,
      .inr ⟨.payloadTooLarge (UInt32.ofNat m.encodePayload.length), ?_⟩⟩
    rw [Session.act_send, if_neg fun hstate => hstate.1 h.connected, hencode]
    rfl

/-- A pong becomes the latest one, and at most a ping that asks for no answer is queued. -/
theorem follow_deliver (h : x.session.Open) (now : Instant) (nonce : UInt64) :
    ∃ (s : Session) (ms : List Message), s.Open ∧ s.tracker.lastPong? = some nonce ∧
      (∀ m ∈ ms, m = .ping (some 0)) ∧
      x.follow (x.session.deliver now (.pong nonce)) =
        (.ok (), { x with session := s, toPeer := x.toPeer ++ ms }) := by
  refine ⟨x.session.handled now (.pong nonce), x.session.keepalive now,
    ⟨h.connected, h.usual, h.legacyPing⟩, Tracker.lastPong?_record_pong _ _ _,
    fun m hm => Session.eq_of_mem_keepalive hm, ?_⟩
  rw [Session.deliver_of_connected h.connected h.usual h.legacyPing rfl
    fun r hr => absurd hr List.not_mem_nil]
  refine follow_ok ?_
  rw [Session.sent_handled, Session.answers, show FrameCodec.replies _ (.pong nonce) = [] from rfl,
    List.append_nil]

theorem succeeded_follow (outcome : Except ConnectionError Unit × Session) (x : Exchange) :
    (x.follow outcome).2.succeeded = x.succeeded := by
  obtain ⟨_ | _, _⟩ := outcome <;> rfl

theorem succeeded_call (now : Instant) (x : Exchange) : (x.call now).2.succeeded = x.succeeded := by
  have hfollow := succeeded_follow (x.session.sendPing now x.handle) x
  rw [call]
  split <;> simpa [*] using hfollow

theorem succeeded_le_step (e : Event) (x : Exchange) : x.succeeded ≤ (x.step e).2.succeeded := by
  cases e with
  | say now m => exact Nat.le_of_eq (succeeded_follow ..).symm
  | call now =>
    rw [step]
    split_ifs
    · exact Nat.le_refl _
    · exact Nat.le_of_eq (succeeded_call now x).symm
  | conclude =>
    rw [step, conclude]
    split_ifs
    · split
      · exact Nat.le_succ _
      · exact Nat.le_refl _
    · exact Nat.le_refl _
  | process =>
    rw [step]
    split <;> exact Nat.le_refl _
  | deliver now =>
    rw [step]
    split
    · exact Nat.le_refl _
    next pongs _ =>
      exact Nat.le_of_eq (succeeded_follow _ { x with pongs }).symm
  | clear => exact Nat.le_refl _

/-! ### The invariant -/

/-- A nonce that the peer sends back: the one of a ping it has processed, or zero. -/
def Answered (x : Exchange) (nonce : UInt64) : Prop :=
  nonce = 0 ∨ .ping (some nonce) ∈ x.processed

/-- The pings with the present nonce are those of the calls since the last that returned in time, and
no nonce comes back before its ping was processed. -/
structure Tidy (x : Exchange) : Prop where
  session : x.session.Open
  counter : x.handle.pingCounter.toNat = x.succeeded + 1
  ours : ∀ k ∈ x.pings, x.queued[k]? = some (.ping (some x.handle.pingCounter))
  others : ∀ k nonce, x.queued[k]? = some (.ping (some nonce)) →
    k ∈ x.pings ∨ nonce.toNat ≤ x.succeeded
  pongs : ∀ nonce ∈ x.pongs, x.Answered nonce
  latest : ∀ nonce, x.session.tracker.lastPong? = some nonce → x.Answered nonce

namespace Tidy

theorem of_fresh (h : x.Fresh) : x.Tidy := by
  obtain ⟨-, hpings, hsucceeded⟩ := h.calls
  exact {
    session := h.session
    counter := by rw [h.counter, hsucceeded]; rfl
    ours := fun k hk => absurd (hpings ▸ hk) List.not_mem_nil
    others := fun k nonce hk => by
      rw [h.queued nonce (List.mem_of_getElem? hk)]
      exact .inr (Nat.zero_le _)
    pongs := fun nonce hnonce => .inl (h.pongs nonce hnonce)
    latest := fun nonce hnonce => .inl (h.latest nonce hnonce) }

/-- More messages may be queued, if the pings among them are accounted for. -/
theorem extend (h : x.Tidy) {s : Session} (hs : s.Open)
    (hlatest : ∀ nonce, s.tracker.lastPong? = some nonce → x.Answered nonce) {ms : List Message}
    (ks : List Nat) {calling : Bool}
    (hours : ∀ k ∈ ks, (x.queued ++ ms)[k]? = some (.ping (some x.handle.pingCounter)))
    (hothers : ∀ k nonce, ms[k]? = some (.ping (some nonce)) →
      x.queued.length + k ∈ ks ∨ nonce.toNat ≤ x.succeeded) :
    Tidy { x with session := s, toPeer := x.toPeer ++ ms, pings := ks ++ x.pings, calling } := by
  have hqueued : x.processed ++ (x.toPeer ++ ms) = x.queued ++ ms := (List.append_assoc ..).symm
  exact {
    session := hs
    counter := h.counter
    ours := fun k hk => by
      rw [queued, hqueued]
      rcases List.mem_append.mp hk with hk | hk
      · exact hours k hk
      · have hours := h.ours k hk
        rw [List.getElem?_append_left (List.getElem?_eq_some_iff.mp hours).1, hours]
    others := fun k nonce hk => by
      rw [queued, hqueued] at hk
      rw [List.mem_append, or_assoc]
      rcases Nat.lt_or_ge k x.queued.length with hlt | hge
      · rw [List.getElem?_append_left hlt] at hk
        exact .inr (h.others k nonce hk)
      · rw [List.getElem?_append_right hge] at hk
        have hnew := hothers _ nonce hk
        rw [Nat.add_sub_cancel' hge] at hnew
        exact hnew.imp_right .inr
    pongs := h.pongs
    latest := hlatest }

/-- Messages without a ping that asks for an answer change nothing. -/
theorem extend_quiet (h : x.Tidy) {s : Session} (hs : s.Open)
    (hlatest : ∀ nonce, s.tracker.lastPong? = some nonce → x.Answered nonce) {ms : List Message}
    (hms : ∀ nonce, .ping (some nonce) ∈ ms → nonce = 0) :
    Tidy { x with session := s, toPeer := x.toPeer ++ ms } :=
  h.extend hs hlatest [] nofun fun k nonce hk => by
    rw [hms nonce (List.mem_of_getElem? hk)]
    exact .inr (Nat.zero_le _)

/-- A message that could not be sent changes nothing. -/
theorem fail (h : x.Tidy) {s : Session} (hs : s.Open) (htracker : s.tracker = x.session.tracker) :
    Tidy { x with session := s } :=
  ⟨hs, h.counter, h.ours, h.others, h.pongs, htracker ▸ h.latest⟩

theorem call (h : x.Tidy) (now : Instant) : (x.call now).2.Tidy := by
  obtain ⟨s, hs, htracker, hok | ⟨e, herror⟩⟩ :=
    follow_send h.session now (.ping (some x.handle.pingCounter))
  · rw [Exchange.call, Session.sendPing, hok]
    refine h.extend hs (htracker ▸ h.latest) [x.queued.length] (fun k hk => ?_)
      fun k nonce hk => .inl ?_
    · rw [List.mem_singleton.mp hk, List.getElem?_concat_length]
    · obtain rfl : k = 0 := Nat.lt_one_iff.mp (List.getElem?_eq_some_iff.mp hk).1
      exact List.mem_singleton_self _
  · rw [Exchange.call, Session.sendPing, herror]
    exact h.fail hs htracker

theorem conclude (h : x.Tidy) (hcount : x.conclude.2.succeeded + 1 < UInt64.size) :
    x.conclude.2.Tidy := by
  rw [Exchange.conclude, SessionHandle.afterPong_eq] at hcount ⊢
  split_ifs at hcount ⊢
  · have hcounter : (x.handle.pingCounter + 1).toNat = x.succeeded + 2 := by
      rw [UInt64.toNat_add, h.counter]
      exact Nat.mod_eq_of_lt hcount
    exact {
      session := h.session
      counter := hcounter
      ours := nofun
      others := fun k nonce hk => by
        refine .inr ((h.others k nonce hk).elim (fun hours => ?_) Nat.le_succ_of_le)
        obtain rfl : nonce = x.handle.pingCounter := by simpa using hk.symm.trans (h.ours k hours)
        exact Nat.le_of_eq h.counter
      pongs := h.pongs
      latest := h.latest }
  · exact ⟨h.session, h.counter, h.ours, h.others, h.pongs, h.latest⟩

theorem process (h : x.Tidy) {m : Message} {ms : List Message} (htoPeer : x.toPeer = m :: ms) :
    Tidy { x with
      processed := x.processed ++ [m], toPeer := ms, pongs := x.pongs ++ m.echoes } := by
  have hqueued : x.processed ++ [m] ++ ms = x.queued := by
    rw [List.append_assoc, queued, htoPeer]
    rfl
  have hmore {nonce : UInt64} (hnonce : x.Answered nonce) :
      nonce = 0 ∨ .ping (some nonce) ∈ x.processed ++ [m] :=
    hnonce.imp_right (List.mem_append_left _)
  exact {
    session := h.session
    counter := h.counter
    ours := fun k hk => by rw [queued, hqueued]; exact h.ours k hk
    others := fun k nonce hk => by rw [queued, hqueued] at hk; exact h.others k nonce hk
    pongs := fun nonce hnonce => by
      rcases List.mem_append.mp hnonce with hnonce | hnonce
      · exact hmore (h.pongs nonce hnonce)
      · rw [Message.eq_of_mem_echoes hnonce]
        exact .inr (List.mem_append_right _ List.mem_cons_self)
    latest := fun nonce hnonce => hmore (h.latest nonce hnonce) }

theorem step (h : x.Tidy) {e : Event} (he : e.Allowed)
    (hcount : (x.step e).2.succeeded + 1 < UInt64.size) : (x.step e).2.Tidy := by
  cases e with
  | say now m =>
    obtain ⟨s, hs, htracker, hok | ⟨e, herror⟩⟩ := follow_send h.session now m
    · rw [Exchange.step, hok]
      refine h.extend_quiet hs (htracker ▸ h.latest) fun nonce hnonce => ?_
      exact he nonce (List.mem_singleton.mp hnonce).symm
    · rw [Exchange.step, herror]
      exact h.fail hs htracker
  | call now =>
    rw [Exchange.step]
    split_ifs
    · exact h
    · exact h.call now
  | conclude =>
    rw [Exchange.step] at hcount ⊢
    split_ifs at hcount ⊢
    · exact h.conclude hcount
    · exact h
  | process =>
    rw [Exchange.step]
    split
    · exact h
    · exact h.process ‹_›
  | deliver now =>
    rw [Exchange.step]
    split
    · exact h
    next nonce pongs hpongs =>
      have hrest : Tidy { x with pongs } :=
        { h with pongs := fun n hn => h.pongs n (hpongs ▸ List.mem_cons_of_mem _ hn) }
      obtain ⟨s, ms, hs, hlatest, hms, hfollow⟩ := follow_deliver hrest.session now nonce
      rw [hfollow]
      refine hrest.extend_quiet hs (fun n hn => ?_) fun n hn => by simpa using hms _ hn
      obtain rfl : nonce = n := Option.some.inj (hlatest.symm.trans hn)
      exact h.pongs nonce (hpongs ▸ List.mem_cons_self)
  | clear =>
    refine ⟨⟨h.session.connected, h.session.usual, h.session.legacyPing⟩, h.counter, h.ours, h.others,
      h.pongs, fun nonce hnonce => h.latest nonce ?_⟩
    rwa [← Tracker.lastPong?_clear]

end Tidy

theorem Reachable.tidy (h : Reachable x) (hcount : x.succeeded + 1 < UInt64.size) : x.Tidy := by
  induction h with
  | start hfresh => exact .of_fresh hfresh
  | step _ he ih =>
    exact (ih (Nat.lt_of_le_of_lt (Nat.succ_le_succ (succeeded_le_step ..)) hcount)).step he hcount

/-! ### What a call that returns in time says -/

theorem conclude_eq_ok :
    x.conclude.1 = .ok () ↔ x.session.tracker.lastPong? = some x.handle.pingCounter := by
  rw [conclude, SessionHandle.afterPong_eq]
  by_cases h : x.session.tracker.lastPong? = some x.handle.pingCounter
  · rw [if_pos h]
    exact iff_of_true rfl h
  · rw [if_neg h]
    exact iff_of_false nofun h

/-- **A call that returns in time**: of the pings queued by it and by the calls since the last one that
returned in time, one was processed, and so was all that was queued before that one. It is the ping of
the call itself if no call has run out of time since. -/
theorem exists_processed_of_conclude (h : Reachable x) (hcount : x.succeeded + 1 < UInt64.size)
    (hok : x.conclude.1 = .ok ()) :
    (∃ k ∈ x.pings, x.queued[k]? = some (.ping (some x.handle.pingCounter)) ∧
      k < x.processed.length) ∧
    ∀ k, x.pings = [k] → k < x.processed.length := by
  have htidy := h.tidy hcount
  have hne : x.handle.pingCounter ≠ 0 := fun hzero => by
    have hcounter := htidy.counter
    rw [hzero] at hcounter
    exact absurd hcounter.symm (Nat.succ_ne_zero _)
  -- the pong that ends the wait answers a ping with the present nonce
  have hmem := (htidy.latest _ (conclude_eq_ok.mp hok)).resolve_left hne
  obtain ⟨k, hk⟩ := List.getElem?_of_mem hmem
  have hlt : k < x.processed.length := (List.getElem?_eq_some_iff.mp hk).1
  have hqueued : x.queued[k]? = some (.ping (some x.handle.pingCounter)) := by
    rw [queued, List.getElem?_append_left hlt, hk]
  have hours : k ∈ x.pings := (htidy.others k _ hqueued).resolve_right fun hle => by
    have hcounter := htidy.counter
    omega
  refine ⟨⟨k, hours, hqueued, hlt⟩, fun k' hpings => ?_⟩
  rw [hpings, List.mem_singleton] at hours
  exact hours ▸ hlt

/-- A session that was just opened. -/
def opened : Exchange where
  session := {
    conn := {
      peer := { ip := .unspecified, port := 18444 }
      network := .regtest
      state := .connected
      codec := .ofNetwork .regtest
      maxInvElements := Inventory.maxElements legacyMaxPayload } }

theorem reachable_opened : Reachable opened :=
  .start {
    session := ⟨rfl, rfl, rfl⟩
    counter := rfl
    calls := ⟨rfl, rfl, rfl⟩
    queued := nofun
    pongs := nofun
    latest := nofun }

/-- A call that has its pong. -/
def answered : Exchange :=
  opened.run [.say 0 .mempool, .call 1, .process, .process, .deliver 2]

theorem exists_processed_of_conclude_answered :
    Reachable answered ∧ answered.pings = [1] ∧ answered.conclude.1 = .ok () ∧
      1 < answered.processed.length := by
  have hreachable : Reachable answered := reachable_opened.run (by simp [Event.Allowed])
  have hok : answered.conclude.1 = .ok () := by decide +kernel
  have hpings : answered.pings = [1] := by decide +kernel
  exact ⟨hreachable, hpings, hok,
    (exists_processed_of_conclude hreachable (by decide +kernel) hok).2 1 hpings⟩

/-- A second call, after the first one ran out of time and its pong came late. -/
def retried : Exchange :=
  opened.run [.call 0, .conclude, .process, .deliver 1, .say 2 .mempool, .call 3]

/-- A call may return in time although its own ping, and what was queued before it, is unprocessed:
the late answer to an earlier call has the same nonce. -/
theorem exists_unprocessed_of_conclude :
    ¬∀ x : Exchange, Reachable x → x.calling → x.conclude.1 = .ok () →
      ∀ k ∈ x.pings.head?, k < x.processed.length := by
  intro hall
  have hreachable : Reachable retried := reachable_opened.run (by simp [Event.Allowed])
  have hprocessed : retried.processed.length = 1 := by decide +kernel
  have hlt := hall retried hreachable (by decide +kernel) (by decide +kernel) 2 (by decide +kernel)
  omega

end Exchange

end BitcoinPeer
