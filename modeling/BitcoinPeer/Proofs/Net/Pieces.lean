import BitcoinPeer.Proofs.Net.Frame
import BitcoinPeer.Proofs.Net.Handling
import BitcoinPeer.Proofs.Net.Tracking

/-!
# A stream in pieces

However a stream of bytes is cut into reads, a session with the usual handlers does the same
(`feedAll_eq_of_flatten_eq`). Bytes that come later change nothing of what is done with those that
are there (`processReceived_receive`), so reads at one time can be joined. The times themselves only
matter when a ping is due: up to then a session can be run without a clock (`feedAll_undated`).
-/

namespace BitcoinPeer

namespace Tracker

/-- What has been received, without the times. -/
def undated (t : Tracker) : Tracker :=
  { t with receipts := t.receipts.map fun entry => (entry.1, { entry.2 with time := 0 }) }

theorem receipt?_undated (t : Tracker) (command : String) :
    t.undated.receipt? command = (t.receipt? command).map fun r => { r with time := 0 } :=
  lookup_map_receipts (fun r => { r with time := 0 }) t.receipts command

theorem count_undated (t : Tracker) (command : String) :
    t.undated.count command = t.count command := by
  rw [count, count, receipt?_undated, Option.map_map]
  rfl

theorem undated_record (t : Tracker) (now : Instant) (m : Message) :
    (t.record now m).undated = t.undated.record 0 m := by
  simp only [record, count_undated]
  simp only [undated, List.map_cons, List.filter_map]
  rfl

end Tracker

namespace Session

variable {s t : Session} {now now' : Instant} {R : Session → Session → Prop}

/-! ### Handling what is in the buffer -/

/-- Leaves other bytes unread. -/
def leave (rest : Bytes) (s : Session) : Session :=
  { s with conn := { s.conn with receiveBuffer := rest } }

def receive (bs : Bytes) (s : Session) : Session :=
  { s with conn := s.conn.receive bs }

/-- An unknown command is reported. -/
def complain : ConnectionError → Session → Session
  | .unknownCommand command, s => s.report (.unknownCommand command)
  | _, s => s

theorem act_nextMessage (s : Session) :
    s.act Connection.nextMessage =
      match s.conn.codec.decode s.conn.receiveBuffer with
      | (.ok m, rest) => (.ok m, s.leave rest)
      | (.error e, rest) => (.error e, (s.leave rest).complain e) := by
  simp only [Connection.nextMessage, act_bind, act_get, andThen_ok, act_modify]
  obtain ⟨e | _, _⟩ := s.conn.codec.decode s.conn.receiveBuffer
  · cases e <;> rfl
  · rfl

/-- The usual handlers leave the unread bytes alone. -/
theorem lockstep_receive (bs : Bytes) (now : Instant) :
    Lockstep now now fun s t => s.handlers = Handlers.usual ∧ t = s.receive bs where
  usual := fun ⟨h, ht⟩ => ⟨h, ht ▸ h⟩
  state := fun ⟨_, ht⟩ => ht ▸ rfl
  codec := fun ⟨_, ht⟩ => ht ▸ rfl
  due := fun ⟨_, ht⟩ => ht ▸ rfl
  report := fun ⟨h, ht⟩ _ => ⟨h, ht ▸ rfl⟩
  enqueue := fun ⟨h, ht⟩ _ => ⟨h, ht ▸ rfl⟩
  setCodec := fun ⟨h, ht⟩ _ => ⟨h, ht ▸ rfl⟩
  setServices := fun ⟨h, ht⟩ _ => ⟨h, ht ▸ rfl⟩
  record := fun ⟨h, ht⟩ _ => ⟨h, ht ▸ rfl⟩

/-- The session as it is, with bytes that stay unread. -/
theorem lockstep_unread (rest : Bytes) (now : Instant) :
    Lockstep now now fun s t =>
      s.handlers = Handlers.usual ∧ s.conn.receiveBuffer = rest ∧ t = s where
  usual := fun ⟨h, _, ht⟩ => ⟨h, ht ▸ h⟩
  state := fun ⟨_, _, ht⟩ => ht ▸ rfl
  codec := fun ⟨_, _, ht⟩ => ht ▸ rfl
  due := fun ⟨_, _, ht⟩ => ht ▸ rfl
  report := fun ⟨h, hrest, ht⟩ _ => ⟨h, hrest, ht ▸ rfl⟩
  enqueue := fun ⟨h, hrest, ht⟩ _ => ⟨h, hrest, ht ▸ rfl⟩
  setCodec := fun ⟨h, hrest, ht⟩ _ => ⟨h, hrest, ht ▸ rfl⟩
  setServices := fun ⟨h, hrest, ht⟩ _ => ⟨h, hrest, ht ▸ rfl⟩
  record := fun ⟨h, hrest, ht⟩ _ => ⟨h, hrest, ht ▸ rfl⟩

theorem deliver_unread (h : s.handlers = Handlers.usual) (now : Instant) (m : Message) :
    (s.deliver now m).2.handlers = Handlers.usual ∧
      (s.deliver now m).2.conn.receiveBuffer = s.conn.receiveBuffer :=
  have hmeets := ((lockstep_unread s.conn.receiveBuffer now).deliver ⟨h, rfl, rfl⟩ m).2
  ⟨hmeets.1, hmeets.2.1⟩

/-- With the usual handlers every message makes the buffer shorter, so all of it is handled. -/
theorem processReceived_eq (h : s.handlers = Handlers.usual) (now : Instant) :
    s.processReceived now =
      match s.conn.codec.decode s.conn.receiveBuffer with
      | (.error e, rest) => (.error e, (s.leave rest).complain e)
      | (.ok none, rest) => (.ok (), s.leave rest)
      | (.ok (some m), rest) =>
        andThen ((s.leave rest).deliver now m) fun _ t => t.processReceived now := by
  rw [processReceived, act_nextMessage]
  rcases hdecode : s.conn.codec.decode s.conn.receiveBuffer with ⟨_ | _ | m, rest⟩
  · rfl
  · rfl
  · have hunread := (deliver_unread (s := s.leave rest) h now m).2
    have hlt := FrameCodec.rest_lt_of_decode_some hdecode
    dsimp only
    rcases hdeliver : (s.leave rest).deliver now m with ⟨_ | _, t⟩
    · rfl
    · rw [hdeliver] at hunread
      exact if_pos (hunread ▸ hlt)

/-- Sessions that have the same to read stay in step for all of it. -/
theorem Lockstep.processReceived (hR : Lockstep now now' R)
    (hbuffer : ∀ {s t}, R s t → s.conn.receiveBuffer = t.conn.receiveBuffer)
    (hleave : ∀ {s t}, R s t → ∀ rest, R (s.leave rest) (t.leave rest)) (h : R s t) :
    Meets R (s.processReceived now) (t.processReceived now') := by
  induction hn : s.conn.receiveBuffer.length using Nat.strongRecOn generalizing s t with
  | ind n ih =>
  rw [processReceived_eq (hR.usual h).1, processReceived_eq (hR.usual h).2, ← hR.codec h, ← hbuffer h]
  rcases hdecode : s.conn.codec.decode s.conn.receiveBuffer with ⟨e | _ | m, rest⟩
  · refine ⟨rfl, ?_⟩
    cases e with
    | unknownCommand command => exact hR.report (hleave h rest) _
    | _ => exact hleave h rest
  · exact ⟨rfl, hleave h rest⟩
  · refine (hR.deliver (hleave h rest) m).andThen fun _ s' t' hdeliver h' => ih _ ?_ h' rfl
    have hunread := (deliver_unread (s := s.leave rest) (hR.usual h).1 now m).2
    have hlt := FrameCodec.rest_lt_of_decode_some hdecode
    rw [hdeliver] at hunread
    exact hn ▸ hunread ▸ hlt

/-- Nothing that waits to be sent is lost by handling messages. -/
theorem lockstep_appends (waiting : Bytes) (now : Instant) :
    Lockstep now now fun s t =>
      s.handlers = Handlers.usual ∧ waiting <+: s.conn.sendBuffer ∧ t = s where
  usual := fun ⟨h, _, ht⟩ => ⟨h, ht ▸ h⟩
  state := fun ⟨_, _, ht⟩ => ht ▸ rfl
  codec := fun ⟨_, _, ht⟩ => ht ▸ rfl
  due := fun ⟨_, _, ht⟩ => ht ▸ rfl
  report := fun ⟨h, hwaiting, ht⟩ _ => ⟨h, hwaiting, ht ▸ rfl⟩
  enqueue := fun ⟨h, hwaiting, ht⟩ _ => ⟨h, hwaiting.trans (List.prefix_append ..), ht ▸ rfl⟩
  setCodec := fun ⟨h, hwaiting, ht⟩ _ => ⟨h, hwaiting, ht ▸ rfl⟩
  setServices := fun ⟨h, hwaiting, ht⟩ _ => ⟨h, hwaiting, ht ▸ rfl⟩
  record := fun ⟨h, hwaiting, ht⟩ _ => ⟨h, hwaiting, ht ▸ rfl⟩

theorem processReceived_appends (h : s.handlers = Handlers.usual) (now : Instant) :
    (s.processReceived now).2.handlers = Handlers.usual ∧
      s.conn.sendBuffer <+: (s.processReceived now).2.conn.sendBuffer :=
  have hmeets := ((lockstep_appends s.conn.sendBuffer now).processReceived
    (fun ⟨_, _, ht⟩ => ht ▸ rfl) (fun ⟨h, hwaiting, ht⟩ _ => ⟨h, hwaiting, ht ▸ rfl⟩)
    ⟨h, List.prefix_rfl, rfl⟩).2
  ⟨hmeets.1, hmeets.2.1⟩

/-- What is handled of a buffer does not depend on the bytes behind it: they are handled after it, or
left unread behind an error. -/
theorem processReceived_receive (h : s.handlers = Handlers.usual) (now : Instant) (bs : Bytes) :
    (s.receive bs).processReceived now =
      match s.processReceived now with
      | (.ok (), t) => (t.receive bs).processReceived now
      | (.error e, t) => (.error e, t.receive bs) := by
  induction hn : s.conn.receiveBuffer.length using Nat.strongRecOn generalizing s with
  | ind n ih =>
  rw [processReceived_eq h]
  rcases hdecode : s.conn.codec.decode s.conn.receiveBuffer with ⟨e | _ | m, rest⟩
  · have hmore : (s.receive bs).conn.codec.decode (s.receive bs).conn.receiveBuffer =
        (.error e, rest ++ bs) := FrameCodec.decode_append hdecode nofun bs
    rw [processReceived_eq (s := s.receive bs) h, hmore]
    cases e <;> rfl
  · obtain rfl := FrameCodec.rest_of_decode_none hdecode
    rfl
  · have hmore : (s.receive bs).conn.codec.decode (s.receive bs).conn.receiveBuffer =
        (.ok (some m), rest ++ bs) := FrameCodec.decode_append hdecode nofun bs
    have hmeets : Meets _ ((s.leave rest).deliver now m)
        (((s.receive bs).leave (rest ++ bs)).deliver now m) :=
      (lockstep_receive bs now).deliver (s := s.leave rest) ⟨h, rfl⟩ m
    have hunread := (deliver_unread (s := s.leave rest) h now m).2
    have hlt := FrameCodec.rest_lt_of_decode_some hdecode
    rw [processReceived_eq (s := s.receive bs) h, hmore]
    dsimp only
    rcases hdeliver : (s.leave rest).deliver now m with ⟨e | _, t⟩ <;>
      rcases hdeliver' : ((s.receive bs).leave (rest ++ bs)).deliver now m with ⟨e' | _, t'⟩ <;>
      rw [hdeliver, hdeliver'] at hmeets <;> obtain ⟨hresult, ht, rfl⟩ := hmeets <;> cases hresult
    · rfl
    · rw [hdeliver] at hunread
      exact ih _ (hn ▸ hunread ▸ hlt) ht rfl

/-! ### Reads at one time -/

/-- Reads one piece after the other, up to the first error. -/
def feedAll : List (Instant × Bytes) → Session → Except ConnectionError Unit × Session
  | [], s => (.ok (), s)
  | (now, bs) :: more, s => andThen (s.feed now bs) fun _ t => t.feedAll more

/-- Two outcomes differ at most in what an error left unread. -/
structure SameButUnread (r r' : Except ConnectionError Unit × Session) : Prop where
  result : r.1 = r'.1
  session : r.2.leave [] = r'.2.leave []
  unread : r.1 = .ok () → r.2 = r'.2

theorem SameButUnread.refl (r : Except ConnectionError Unit × Session) : SameButUnread r r :=
  ⟨rfl, rfl, fun _ => rfl⟩

theorem SameButUnread.symm {r r' : Except ConnectionError Unit × Session}
    (h : SameButUnread r r') : SameButUnread r' r :=
  ⟨h.result.symm, h.session.symm, fun hok => (h.unread (h.result.trans hok)).symm⟩

theorem SameButUnread.trans {r r' r'' : Except ConnectionError Unit × Session}
    (h : SameButUnread r r') (h' : SameButUnread r' r'') : SameButUnread r r'' :=
  ⟨h.result.trans h'.result, h.session.trans h'.session,
    fun hok => (h.unread hok).trans (h'.unread (h.result.symm.trans hok))⟩

/-- Pieces that are read at one time are as good as all their bytes in one read. -/
theorem feedAll_same_time (h : s.handlers = Handlers.usual) (now : Instant) {pieces : List Bytes}
    (hne : pieces ≠ []) :
    SameButUnread (s.feedAll (pieces.map fun bs => (now, bs))) (s.feed now pieces.flatten) := by
  induction pieces generalizing s with
  | nil => exact absurd rfl hne
  | cons bs pieces ih =>
    cases pieces with
    | nil =>
      rw [List.flatten_cons, List.flatten_nil, List.append_nil]
      show SameButUnread (andThen (s.feed now bs) fun _ t => (.ok (), t)) _
      rw [andThen_pure]
      exact .refl _
    | cons bs' pieces =>
      -- the first piece is handled alone, all the others after it
      have hjoined : s.feed now (bs :: bs' :: pieces).flatten =
          match s.feed now bs with
          | (.ok (), t) => t.feed now (bs' :: pieces).flatten
          | (.error e, t) => (.error e, t.receive (bs' :: pieces).flatten) := by
        have hassoc : s.receive (bs ++ (bs' :: pieces).flatten) =
            (s.receive bs).receive (bs' :: pieces).flatten := by
          simp only [receive, Connection.receive, List.append_assoc]
        show (s.receive (bs ++ (bs' :: pieces).flatten)).processReceived now = _
        rw [hassoc, processReceived_receive (s := s.receive bs) h]
        rfl
      have husual := (processReceived_appends (s := s.receive bs) h now).1
      rw [hjoined]
      show SameButUnread (andThen (s.feed now bs) fun _ t =>
        t.feedAll ((bs' :: pieces).map fun bs => (now, bs))) _
      rcases hfeed : s.feed now bs with ⟨e | _, t⟩
      · exact ⟨rfl, rfl, nofun⟩
      · rw [show (s.receive bs).processReceived now = s.feed now bs from rfl, hfeed] at husual
        exact ih husual (List.cons_ne_nil _ _)

/-! ### Times -/

/-- The session without the times at which things happened. -/
def undated (s : Session) : Session :=
  { s with conn := { s.conn with lastSent := some 0 }, tracker := s.tracker.undated }

theorem keepaliveDue_enqueue (now : Instant) (frame : Bytes) (s : Session) :
    (s.enqueue now frame).conn.keepaliveDue now = false := by
  simp [enqueue, Connection.keepaliveDue]

/-- As long as no ping is due, the time does not matter. -/
theorem lockstep_undated (now : Instant) :
    Lockstep now 0 fun s t =>
      s.handlers = Handlers.usual ∧ s.conn.keepaliveDue now = false ∧ t = s.undated where
  usual := fun ⟨h, _, ht⟩ => ⟨h, ht ▸ h⟩
  state := fun ⟨_, _, ht⟩ => ht ▸ rfl
  codec := fun ⟨_, _, ht⟩ => ht ▸ rfl
  due := fun ⟨_, hdue, ht⟩ => ht ▸ hdue
  report := fun ⟨h, hdue, ht⟩ _ => ⟨h, hdue, ht ▸ rfl⟩
  enqueue := fun ⟨h, hdue, ht⟩ _ => ⟨h, by simp [keepaliveDue_enqueue], ht ▸ rfl⟩
  setCodec := fun ⟨h, hdue, ht⟩ _ => ⟨h, hdue, ht ▸ rfl⟩
  setServices := fun ⟨h, hdue, ht⟩ _ => ⟨h, hdue, ht ▸ rfl⟩
  record := fun ⟨h, hdue, ht⟩ _ => ⟨h, hdue, ht ▸ by
    simp only [Session.record, undated, Tracker.undated_record]⟩

theorem processReceived_undated (h : s.handlers = Handlers.usual)
    (hdue : s.conn.keepaliveDue now = false) :
    s.undated.processReceived 0 = ((s.processReceived now).1, (s.processReceived now).2.undated) := by
  have hmeets := (lockstep_undated now).processReceived (fun ⟨_, _, ht⟩ => ht ▸ rfl)
    (fun ⟨h, hdue, ht⟩ _ => ⟨h, hdue, ht ▸ rfl⟩) ⟨h, hdue, rfl⟩
  exact Prod.ext hmeets.1.symm hmeets.2.2.2

/-- No ping is due when a piece is read. -/
def NeverDue : List (Instant × Bytes) → Session → Prop
  | [], _ => True
  | (now, bs) :: more, s =>
    s.conn.keepaliveDue now = false ∧ ((s.feed now bs).1 = .ok () → NeverDue more (s.feed now bs).2)

/-- Where no ping is due, none falls due as long as no time passes. -/
theorem neverDue_same_time (h : s.handlers = Handlers.usual)
    (hdue : s.conn.keepaliveDue now = false) (pieces : List Bytes) :
    s.NeverDue (pieces.map fun bs => (now, bs)) := by
  induction pieces generalizing s with
  | nil => trivial
  | cons bs pieces ih =>
    refine ⟨hdue, fun _ => ?_⟩
    have hmeets := (lockstep_undated now).processReceived (s := s.receive bs)
      (fun ⟨_, _, ht⟩ => ht ▸ rfl) (fun ⟨h, hdue, ht⟩ _ => ⟨h, hdue, ht ▸ rfl⟩) ⟨h, hdue, rfl⟩
    exact ih hmeets.2.1 hmeets.2.2.1

theorem feedAll_undated {reads : List (Instant × Bytes)} (h : s.handlers = Handlers.usual)
    (hdue : s.NeverDue reads) :
    s.undated.feedAll (reads.map fun read => (0, read.2)) =
      ((s.feedAll reads).1, (s.feedAll reads).2.undated) := by
  induction reads generalizing s with
  | nil => rfl
  | cons read reads ih =>
    obtain ⟨now, bs⟩ := read
    have hfeed : s.undated.feed 0 bs = ((s.feed now bs).1, (s.feed now bs).2.undated) :=
      processReceived_undated (s := s.receive bs) h hdue.1
    have husual : (s.feed now bs).2.handlers = Handlers.usual :=
      (processReceived_appends (s := s.receive bs) h now).1
    have hmore := hdue.2
    rw [List.map_cons, feedAll, feedAll, hfeed]
    rcases hresult : s.feed now bs with ⟨_ | _, t⟩ <;> rw [hresult] at husual hmore
    · rfl
    · exact ih husual (hmore rfl)

/-! ### Reads cut in any way -/

theorem feedAll_appends {reads : List (Instant × Bytes)} (h : s.handlers = Handlers.usual) :
    s.conn.sendBuffer <+: (s.feedAll reads).2.conn.sendBuffer := by
  induction reads generalizing s with
  | nil => exact List.prefix_rfl
  | cons read reads ih =>
    obtain ⟨now, bs⟩ := read
    obtain ⟨husual, hprefix⟩ := processReceived_appends (s := s.receive bs) h now
    rw [feedAll]
    rcases hresult : s.feed now bs with ⟨_ | _, t⟩ <;>
      rw [show (s.receive bs).processReceived now = _ from hresult] at husual hprefix
    · exact hprefix
    · exact hprefix.trans (ih husual)

/-- A read that completes no frame is kept, and nothing else happens. -/
theorem feed_of_not_holdsFrame (h : s.handlers = Handlers.usual) {bs : Bytes}
    (hframe : ¬s.conn.codec.HoldsFrame (s.conn.receiveBuffer ++ bs)) (now : Instant) :
    (s.feed now bs).2 = { s with conn := s.conn.receive bs } := by
  show ((s.receive bs).processReceived now).2 = s.receive bs
  rw [processReceived_eq (s := s.receive bs) h]
  rcases FrameCodec.decode_of_not_holdsFrame hframe with hdecode | ⟨e, hrefusal, hdecode⟩
  · rw [show (s.receive bs).conn.codec.decode (s.receive bs).conn.receiveBuffer = _ from hdecode]
    rfl
  · rw [show (s.receive bs).conn.codec.decode (s.receive bs).conn.receiveBuffer = _ from hdecode]
    obtain rfl | ⟨_, rfl⟩ := FrameCodec.of_refusal_eq_some hrefusal <;> rfl

/-- If what is unread has to wait for more, nothing happens when nothing comes. -/
theorem feed_nil (h : s.handlers = Handlers.usual) (now : Instant)
    (hwaits : (s.conn.codec.decode s.conn.receiveBuffer).1 = .ok none) :
    s.feed now [] = (.ok (), s) := by
  have hnone : s.conn.codec.decode s.conn.receiveBuffer = (.ok none, s.conn.receiveBuffer) :=
    Prod.ext hwaits (FrameCodec.rest_of_decode_none (Prod.ext hwaits rfl))
  have hreceive : s.receive [] = s := by
    rw [receive, Connection.receive, List.append_nil]
  show (s.receive []).processReceived now = _
  rw [hreceive, processReceived_eq h, hnone]
  rfl

/-- Two runs of one session differ in nothing but times, and in what an error left unread. -/
structure SameRun (s : Session) (r r' : Except ConnectionError Unit × Session) : Prop where
  result : r.1 = r'.1
  calls : r.2.calls = r'.2.calls
  tracker : r.2.tracker.undated = r'.2.tracker.undated
  queued : ∃ frames, r.2.conn.sendBuffer = s.conn.sendBuffer ++ frames ∧
    r'.2.conn.sendBuffer = s.conn.sendBuffer ++ frames
  codec : r.2.conn.codec = r'.2.conn.codec
  services : r.2.conn.services = r'.2.conn.services
  unread : r.1 = .ok () → r.2.conn.receiveBuffer = r'.2.conn.receiveBuffer

/-- **Reads cut in any way**: a session with the usual handlers, at which no ping falls due, does the
same with a stream of bytes however it is cut into reads, up to the same error if there is one. Only
if there was something to do with the bytes unread before does it matter whether there is a read at
all. A read that completes no frame only makes the buffer longer. -/
theorem feedAll_eq_of_flatten_eq (h : s.handlers = Handlers.usual)
    {first second : List (Instant × Bytes)}
    (hbytes : (first.map Prod.snd).flatten = (second.map Prod.snd).flatten)
    (hwaits : (s.conn.codec.decode s.conn.receiveBuffer).1 = .ok none ∨ (first = [] ↔ second = []))
    (hfirst : s.NeverDue first) (hsecond : s.NeverDue second) :
    SameRun s (s.feedAll first) (s.feedAll second) ∧
    ∀ now bs, ¬s.conn.codec.HoldsFrame (s.conn.receiveBuffer ++ bs) →
      (s.feed now bs).2 = { s with conn := s.conn.receive bs } := by
  refine ⟨?_, fun now bs hframe => feed_of_not_holdsFrame h hframe now⟩
  have hsame : SameButUnread ((s.feedAll first).1, (s.feedAll first).2.undated)
      ((s.feedAll second).1, (s.feedAll second).2.undated) := by
    rw [← feedAll_undated h hfirst, ← feedAll_undated h hsecond]
    have hjoin (reads : List (Instant × Bytes))
        (hread : (s.conn.codec.decode s.conn.receiveBuffer).1 = .ok none ∨ reads ≠ []) :
        SameButUnread (s.undated.feedAll (reads.map fun read => (0, read.2)))
          (s.undated.feed 0 (reads.map Prod.snd).flatten) := by
      by_cases hnone : reads = []
      · have hnil := feed_nil (s := s.undated) h 0 (hread.resolve_right (not_not.mpr hnone))
        rw [hnone, List.map_nil, List.map_nil, List.flatten_nil, hnil]
        exact .refl _
      · have hpieces : reads.map Prod.snd ≠ [] := mt List.map_eq_nil_iff.mp hnone
        have hsame := feedAll_same_time (s := s.undated) h 0 hpieces
        rwa [List.map_map] at hsame
    by_cases hnone : first = [] ∧ second = []
    · rw [hnone.1, hnone.2]
      exact .refl _
    · have hread : (s.conn.codec.decode s.conn.receiveBuffer).1 = .ok none ∨
          first ≠ [] ∧ second ≠ [] := hwaits.imp_right fun hempty => by tauto
      exact (hjoin first (hread.imp_right And.left)).trans
        (hbytes ▸ (hjoin second (hread.imp_right And.right)).symm)
  obtain ⟨frames, hframes⟩ : s.conn.sendBuffer <+: (s.feedAll first).2.conn.sendBuffer :=
    feedAll_appends h
  obtain ⟨hresult, hsession, hunread⟩ := hsame
  have hsendBuffer : (s.feedAll first).2.conn.sendBuffer = (s.feedAll second).2.conn.sendBuffer :=
    congrArg (fun t => t.conn.sendBuffer) hsession
  exact {
    result := hresult
    calls := congrArg (fun t => t.calls) hsession
    tracker := congrArg (fun t => t.tracker) hsession
    queued := ⟨frames, hframes.symm, hsendBuffer ▸ hframes.symm⟩
    codec := congrArg (fun t => t.conn.codec) hsession
    services := congrArg (fun t => t.conn.services) hsession
    unread := fun hok => congrArg (fun t => t.conn.receiveBuffer) (hunread hok) }

/-- A peer of version 106, whose frames have no checksum once its version is known. The cuts are inside
the magic and the payload of its version, and inside the shorter header after it. -/
theorem feedAll_eq_of_flatten_eq_early :
    let peer : SocketAddress := { ip := .unspecified, port := 18444 }
    let fresh : Freshness := { time := 0, nonce := 1, associationId := .random (Octets.zero 16) }
    let s : Session :=
      { conn := (Connection.new peer (.forNetwork .regtest) fresh 0).handleConnect.2 }
    let version : Message := .version {
      version := 106, services := Services.network, time := 0, receiver := {} }
    let stream := s.conn.codec.frame "version" version.encodePayload
      ++ FrameCodec.frame { s.conn.codec with sendVersion := 106 } "verack" []
    let first := [stream.take 3, (stream.drop 3).take 87, (stream.drop 90).take 25, stream.drop 115]
      |>.map fun bs => (0, bs)
    let second := [(5, stream)]
    s.conn.isConnected ∧ s.handlers = Handlers.usual ∧
      (first.map Prod.snd).flatten = (second.map Prod.snd).flatten ∧
      s.NeverDue first ∧ s.NeverDue second ∧ SameRun s (s.feedAll first) (s.feedAll second) ∧
      (s.feed 0 (stream.take 3)).2 = { s with conn := s.conn.receive (stream.take 3) } ∧
      (s.feedAll second).2.calls = [.message version.canon, .message .verack] := by
  intro peer fresh s version stream first second
  have hdue : s.conn.keepaliveDue 0 = false ∧ s.conn.keepaliveDue 5 = false := by decide +kernel
  have hframe : ¬s.conn.codec.HoldsFrame (s.conn.receiveBuffer ++ stream.take 3) := by
    decide +kernel
  have hcalls : (s.feedAll second).2.calls = [.message version.canon, .message .verack] := by
    decide +kernel
  have hcut : (first.map Prod.snd).flatten = (second.map Prod.snd).flatten := by
    have hthird : stream.drop 115 = (stream.drop 90).drop 25 := by rw [List.drop_drop]
    have hsecond : stream.drop 90 = (stream.drop 3).drop 87 := by rw [List.drop_drop]
    simp only [first, second, List.map_cons, List.map_nil, List.flatten_cons, List.flatten_nil,
      List.append_nil]
    rw [hthird, List.take_append_drop, hsecond, List.take_append_drop, List.take_append_drop]
  have hfirst : s.NeverDue first := neverDue_same_time rfl hdue.1 _
  have hsecond : s.NeverDue second := ⟨hdue.2, fun _ => trivial⟩
  obtain ⟨hrun, hkept⟩ :=
    feedAll_eq_of_flatten_eq (s := s) rfl hcut (.inl (by decide +kernel)) hfirst hsecond
  exact ⟨by decide +kernel, rfl, hcut, hfirst, hsecond, hrun, hkept 0 _ hframe, hcalls⟩

end Session

end BitcoinPeer
