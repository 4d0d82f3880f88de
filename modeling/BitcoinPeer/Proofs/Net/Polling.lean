import BitcoinPeer.Net.Registry
import BitcoinPeer.Proofs.Net.Lifecycle

/-!
# Polling many sessions

An iteration of the loop goes over the active sessions twice, in whatever order their ids come: it
closes those that are to be disconnected, waits, and serves the others. No session sees anything of
another one, so each of these is a change to every session by itself (`Separate`), and without calls
from outside in between an iteration is one turn for each session (`pollInOrder_eq_pollOnce`). Every
run keeps every session orderly (`lifecycle_of_run`).
-/

namespace BitcoinPeer

namespace Session

/-- What a caller does with a session through its handle. -/
inductive Call where
  | send (now : Instant) (m : Message)
  | disconnect
  | clearMessages

def Call.run : Call → Session → Except ConnectionError Unit × Session
  | send now m, s => s.act (Connection.send now m false)
  | disconnect, s => (.ok (), s.disconnect)
  | clearMessages, s => (.ok (), { s with tracker := s.tracker.clear })

/-- No handler is called when a caller uses the handle, and the session is as open as before. -/
theorem Orderly.call {s : Session} (hs : s.Orderly) (c : Call) :
    s.Advances (c.run s).2 ∧ (c.run s).2.conn.state = s.conn.state := by
  cases c with
  | send now m =>
    have hstate := steady_send now m false s
    have hconn := act_snd (Connection.send now m false) s
    refine ⟨hs.silent ?_ hstate ?_ ?_, hstate⟩
    all_goals
      show _ = _
      rw [Call.run, hconn]
  | _ => exact ⟨hs.silent rfl rfl rfl rfl, rfl⟩

end Session

/-- An order in which the ids of a map come. -/
abbrev VisitOrder : Type :=
  { order : List Nat → List Nat // ∀ ids, (order ids).Perm ids }

namespace Registry

variable {r t u : Registry} {id : Nat} {ids : List Nat} {f : Nat → Session → Bool × Session}

/-! ### An iteration in two rounds -/

/-- Visits sessions one after the other, and notes those that the loop does not go on with. -/
def visit (f : Nat → Session → Bool × Session) : List Nat → Registry → List Nat × Registry
  | [], r => ([], r)
  | id :: ids, r =>
    match r.session? id with
    | none => visit f ids r
    | some s =>
      let (gone, t) := visit f ids (r.update id fun _ => (f id s).2)
      (if (f id s).1 then gone else id :: gone, t)

/-- Visits every active session, and removes those that the loop does not go on with. -/
def round (f : Nat → Session → Bool × Session) (order : VisitOrder) (r : Registry) : Registry :=
  let (gone, t) := visit f (order.1 r.active) r
  { t with active := t.active.filter (· ∉ gone) }

/-- Callers use their handles, one after the other. -/
def calls (cs : List (Nat × Session.Call)) (r : Registry) : Registry :=
  cs.foldl (fun r c => (r.act c.1 c.2.run).2) r

/-- One iteration of the loop: each of its rounds visits the sessions in an order of its own, and
while the loop waits between them callers may use their handles. -/
def pollInOrder (now : Instant) (pass : Nat → SocketPass) (first second : VisitOrder)
    (during : List (Nat × Session.Call)) (r : Registry) : Registry :=
  ((r.round (fun _ => Session.dismiss) first).calls during).round
    (fun id => Session.attend now r.readBufferSize (pass id)) second

/-! ### One session of many -/

/-- A session of the registry, and whether it is polled. -/
structure Standing where
  session : Session
  active : Bool

namespace Standing

/-- What a round means for one session. -/
def visit (f : Session → Bool × Session) (x : Standing) : Standing :=
  if x.active then ⟨(f x.session).2, (f x.session).1⟩ else x

/-- What the calls of all callers mean for the session with an id. -/
def called (id : Nat) (cs : List (Nat × Session.Call)) (x : Standing) : Standing :=
  cs.foldl (fun x c => if c.1 = id then { x with session := (c.2.run x.session).2 } else x) x

end Standing

def standing? (id : Nat) (r : Registry) : Option Standing :=
  (r.session? id).map fun s => ⟨s, decide (id ∈ r.active)⟩

/-- The registry changes, each session by itself: what becomes of one follows from how it stands. -/
structure Separate (r : Registry) (change : Nat → Standing → Standing) (t : Registry) : Prop where
  standing (id : Nat) : t.standing? id = (r.standing? id).map (change id)
  active : t.active.Sublist r.active
  nextId : t.nextId = r.nextId
  readBufferSize : t.readBufferSize = r.readBufferSize

theorem Separate.refl (r : Registry) : r.Separate (fun _ x => x) r :=
  ⟨fun _ => (Option.map_id' ..).symm, .refl _, rfl, rfl⟩

theorem Separate.trans {g h : Nat → Standing → Standing} (hg : r.Separate g t)
    (hh : t.Separate h u) : r.Separate (fun id x => h id (g id x)) u := by
  refine ⟨fun id => ?_, hh.active.trans hg.active, hh.nextId.trans hg.nextId,
    hh.readBufferSize.trans hg.readBufferSize⟩
  rw [hh.standing, hg.standing, Option.map_map]
  rfl

theorem lookup_map_entries {α β : Type} (g : Nat → α → β) (entries : List (Nat × α)) (id : Nat) :
    (entries.map fun (key, x) => (key, g key x)).lookup id = (entries.lookup id).map (g id) := by
  induction entries with
  | nil => rfl
  | cons entry entries ih =>
    obtain ⟨key, x⟩ := entry
    rw [List.map_cons, List.lookup_cons, List.lookup_cons]
    by_cases hkey : id = key
    · subst hkey
      simp
    · simp only [beq_false_of_ne hkey]
      exact ih

theorem session?_update (f : Session → Session) (other : Nat) (r : Registry) :
    (r.update id f).session? other =
      (r.session? other).map fun s => if other = id then f s else s :=
  lookup_map_entries (fun key s => if key = id then f s else s) r.sessions other

/-- A visit changes nothing but sessions. -/
theorem visit_eq (f : Nat → Session → Bool × Session) (ids : List Nat) (r : Registry) :
    (r.visit f ids).2 = { r with sessions := (r.visit f ids).2.sessions } := by
  induction ids generalizing r with
  | nil => rfl
  | cons id ids ih =>
    unfold visit
    split
    · exact ih r
    · exact ih (r.update id _)

/-- Each session that is visited changes by itself, whatever becomes of those visited before. -/
theorem session?_visit (hids : ids.Nodup) (other : Nat) :
    (r.visit f ids).2.session? other =
      (r.session? other).map fun s => if other ∈ ids then (f other s).2 else s := by
  induction ids generalizing r with
  | nil => simp [visit]
  | cons id ids ih =>
    obtain ⟨hid, hids⟩ := List.nodup_cons.mp hids
    unfold visit
    cases hs : r.session? id with
    | none =>
      dsimp only
      rw [ih hids]
      by_cases hother : other = id
      · rw [hother, hs]
        rfl
      · simp [hother]
    | some s =>
      dsimp only
      rw [ih hids, session?_update, Option.map_map]
      by_cases hother : other = id
      · subst hother
        simp [hs, hid]
      · simp [hother, Function.comp_def]

theorem mem_visit (hids : ids.Nodup) {other : Nat} :
    other ∈ (r.visit f ids).1 ↔
      other ∈ ids ∧ ∃ s, r.session? other = some s ∧ (f other s).1 = false := by
  induction ids generalizing r with
  | nil => simp [visit]
  | cons id ids ih =>
    obtain ⟨hid, hids⟩ := List.nodup_cons.mp hids
    unfold visit
    cases hs : r.session? id with
    | none =>
      dsimp only
      rw [ih hids, List.mem_cons]
      refine ⟨fun ⟨hother, hgone⟩ => ⟨.inr hother, hgone⟩, fun ⟨hother, t, ht, hgone⟩ => ?_⟩
      rcases hother with rfl | hother
      · rw [hs] at ht
        cases ht
      · exact ⟨hother, t, ht, hgone⟩
    | some s =>
      dsimp only
      have hrest : other ∈ ((r.update id fun _ => (f id s).2).visit f ids).1 ↔
          other ∈ ids ∧ ∃ t, r.session? other = some t ∧ (f other t).1 = false := by
        rw [ih hids, session?_update]
        refine and_congr_right fun hother => ?_
        have hne : other ≠ id := fun h => hid (h ▸ hother)
        simp [hne]
      rw [List.mem_cons, or_and_right, ← hrest]
      by_cases hother : other = id
      · subst hother
        have hnot : other ∉ ((r.update other fun _ => (f other s).2).visit f ids).1 :=
          fun h => hid (hrest.mp h).1
        cases hstays : (f other s).1 <;> simp [hs, hstays, hnot]
      · split <;> simp [hother]

/-- A round does the same with every active session, in whatever order it visits them. -/
theorem separate_round (hactive : r.active.Nodup) (f : Nat → Session → Bool × Session)
    (order : VisitOrder) : r.Separate (fun id => Standing.visit (f id)) (r.round f order) := by
  have hperm := order.2 r.active
  have hids : (order.1 r.active).Nodup := hperm.nodup_iff.mpr hactive
  have hround : r.round f order = { r with
      sessions := (r.visit f (order.1 r.active)).2.sessions
      active := r.active.filter fun id => decide (id ∉ (r.visit f (order.1 r.active)).1) } := by
    unfold round
    dsimp only
    rw [visit_eq]
  refine ⟨fun id => ?_, ?_, ?_, ?_⟩
  · have hsession : (r.round f order).session? id =
        (r.session? id).map fun s => if id ∈ r.active then (f id s).2 else s := by
      simp only [← hperm.mem_iff (a := id)]
      exact session?_visit hids id
    have hstays : id ∈ (r.round f order).active ↔
        id ∈ r.active ∧ ∀ s, r.session? id = some s → (f id s).1 = true := by
      rw [hround, List.mem_filter, decide_eq_true_iff, mem_visit hids, hperm.mem_iff]
      refine and_congr_right fun hid => ?_
      simp [hid]
    unfold standing?
    rw [hsession]
    cases hs : r.session? id with
    | none => rfl
    | some s =>
      by_cases hid : id ∈ r.active
      · simp [Standing.visit, hid, hstays, hs]
      · simp [Standing.visit, hid, hstays]
  · rw [hround]
    exact List.filter_sublist
  · rw [hround]
  · rw [hround]

/-- A call through a handle reaches the session of that handle. -/
theorem separate_act (id : Nat) (c : Session.Call) (r : Registry) :
    r.Separate (fun other => Standing.called other [(id, c)]) (r.act id c.run).2 := by
  have hact : ∃ sessions, (r.act id c.run).2 = { r with sessions } := by
    unfold act
    split
    · exact ⟨_, rfl⟩
    · exact ⟨r.sessions, rfl⟩
  have hsession (other : Nat) : (r.act id c.run).2.session? other =
      (r.session? other).map fun s => if id = other then (c.run s).2 else s := by
    unfold act
    cases hs : r.session? id with
    | none =>
      by_cases hother : id = other
      · rw [← hother, hs]
        rfl
      · simp [hother]
    | some s =>
      dsimp only
      rw [session?_update]
      by_cases hother : id = other
      · simp [← hother, hs]
      · simp [hother, Ne.symm hother]
  obtain ⟨sessions, hsame⟩ := hact
  refine ⟨fun other => ?_, ?_, ?_, ?_⟩
  · have hactive : (r.act id c.run).2.active = r.active := by rw [hsame]
    unfold standing?
    rw [hsession, hactive, Option.map_map, Option.map_map]
    refine congrArg (Option.map · _) (funext fun s => ?_)
    by_cases hother : id = other
    · simp [Standing.called, hother]
    · simp [Standing.called, hother]
  all_goals rw [hsame]

theorem separate_calls (cs : List (Nat × Session.Call)) (r : Registry) :
    r.Separate (fun id => Standing.called id cs) (r.calls cs) := by
  induction cs generalizing r with
  | nil => exact .refl r
  | cons c cs ih => exact (separate_act c.1 c.2 r).trans (ih _)

/-- What an iteration means for one session. -/
theorem separate_pollInOrder (hactive : r.active.Nodup) (now : Instant)
    (pass : Nat → SocketPass) (first second : VisitOrder) (during : List (Nat × Session.Call)) :
    r.Separate (fun id x => ((x.visit Session.dismiss).called id during).visit
        (Session.attend now r.readBufferSize (pass id)))
      (r.pollInOrder now pass first second during) := by
  have hfirst := separate_round hactive (fun _ => Session.dismiss) first
  have hcalls := hfirst.trans (separate_calls during _)
  exact hcalls.trans (separate_round (hactive.sublist hcalls.active) _ second)

/-- What happens to a registry. The transport does whatever it likes in an iteration. -/
inductive Event where
  /-- A new session comes, whose handlers do not close the connection. -/
  | register (s : Session) (unopened : s.Unopened) (steady : s.handlers.Steady)
  | poll (now : Instant) (pass : Nat → SocketPass) (first second : VisitOrder)
      (during : List (Nat × Session.Call))
  | call (id : Nat) (c : Session.Call)

def step (r : Registry) : Event → Registry
  | .register s _ _ => (r.register s).2
  | .poll now pass first second during => r.pollInOrder now pass first second during
  | .call id c => (r.act id c.run).2

def run (events : List Event) (r : Registry) : Registry :=
  events.foldl step r

/-- What an event means for one session: it depends on no other session, and not on what the
transport and the callers do with others. -/
def Event.effectOn (bufferSize id : Nat) : Event → Standing → Standing
  | register .., x => x
  | poll now pass _ _ during, x =>
    ((x.visit Session.dismiss).called id during).visit (Session.attend now bufferSize (pass id))
  | call other c, x => x.called id [(other, c)]

/-- Ids are given once, and only those that were given are in use. -/
structure Numbered (r : Registry) : Prop where
  unused {id : Nat} : r.nextId ≤ id → r.standing? id = none
  active_lt {id : Nat} : id ∈ r.active → id < r.nextId
  nodup : r.active.Nodup

theorem Separate.numbered {g : Nat → Standing → Standing} (h : r.Separate g t) (hr : r.Numbered) :
    t.Numbered where
  unused {id} hid := by
    rw [h.standing, hr.unused (h.nextId ▸ hid)]
    rfl
  active_lt hid := h.nextId ▸ hr.active_lt (h.active.subset hid)
  nodup := hr.nodup.sublist h.active

theorem standing?_register {s : Session} (other : Nat) :
    (r.register s).2.standing? other =
      if other = r.nextId then some ⟨s, true⟩ else r.standing? other := by
  unfold standing? register session?
  rw [List.lookup_cons]
  by_cases hother : other = r.nextId
  · simp [hother]
  · simp [hother, beq_false_of_ne hother]

theorem Numbered.register (hr : r.Numbered) (s : Session) : (r.register s).2.Numbered where
  unused {id} hid := by
    have hlt : r.nextId < id := hid
    have hne : id ≠ r.nextId := by omega
    rw [standing?_register, if_neg hne]
    exact hr.unused (Nat.le_of_lt hlt)
  active_lt {id} hid := by
    rcases List.mem_cons.mp hid with rfl | hid
    · exact Nat.lt_succ_self _
    · exact Nat.lt_succ_of_lt (hr.active_lt hid)
  nodup := List.nodup_cons.mpr ⟨fun hmem => Nat.lt_irrefl _ (hr.active_lt hmem), hr.nodup⟩

/-- An event changes each session by itself, or brings a new one. -/
theorem step_cases (hr : r.Numbered) (e : Event) :
    r.Separate (e.effectOn r.readBufferSize) (r.step e) ∨
      ∃ s unopened steady, e = .register s unopened steady := by
  cases e with
  | register s unopened steady => exact .inr ⟨s, unopened, steady, rfl⟩
  | poll now pass first second during =>
    exact .inl (separate_pollInOrder hr.nodup now pass first second during)
  | call id c => exact .inl (separate_act id c r)

theorem Numbered.step (hr : r.Numbered) (e : Event) : (r.step e).Numbered := by
  rcases step_cases hr e with hseparate | ⟨s, unopened, steady, rfl⟩
  · exact hseparate.numbered hr
  · exact hr.register s

/-- The session is orderly, and polled unless it is closed. -/
structure Standing.Orderly (x : Standing) : Prop where
  session : x.session.Orderly
  steady : x.session.handlers.Steady
  active_iff : x.active = true ↔ x.session.conn.state ≠ .closed

namespace Standing.Orderly

variable {x : Standing}

theorem of_unopened {s : Session} (unopened : s.Unopened) (steady : s.handlers.Steady) :
    Standing.Orderly ⟨s, true⟩ where
  session := unopened.orderly
  steady := steady
  active_iff := by simp [unopened.state]

theorem visit (hx : x.Orderly) {f : Session → Bool × Session} (hf : Session.Tends f) :
    (x.visit f).Orderly ∧ x.session.Advances (x.visit f).session := by
  unfold Standing.visit
  split
  case isTrue hactive =>
    obtain ⟨hadvances, hstays⟩ := hf x.session hx.session hx.steady (hx.active_iff.mp hactive)
    exact ⟨⟨hadvances.orderly, hadvances.handlers ▸ hx.steady, hstays⟩, hadvances⟩
  case isFalse => exact ⟨hx, hx.session.stays⟩

theorem called (hx : x.Orderly) (id : Nat) (cs : List (Nat × Session.Call)) :
    (x.called id cs).Orderly ∧ x.session.Advances (x.called id cs).session := by
  induction cs generalizing x with
  | nil => exact ⟨hx, hx.session.stays⟩
  | cons c cs ih =>
    unfold Standing.called
    rw [List.foldl_cons]
    by_cases hid : c.1 = id
    · obtain ⟨hcall, hstate⟩ := hx.session.call c.2
      have hrest := ih (x := { x with session := (c.2.run x.session).2 })
        ⟨hcall.orderly, hcall.handlers ▸ hx.steady, hstate ▸ hx.active_iff⟩
      rw [if_pos hid]
      exact ⟨hrest.1, hcall.trans hrest.2⟩
    · rw [if_neg hid]
      exact ih hx

theorem effectOn (hx : x.Orderly) (bufferSize id : Nat) (e : Event) :
    (e.effectOn bufferSize id x).Orderly ∧
      x.session.Advances (e.effectOn bufferSize id x).session := by
  cases e with
  | register s unopened steady => exact ⟨hx, hx.session.stays⟩
  | poll now pass first second during =>
    obtain ⟨hfirst, hdismissed⟩ := hx.visit Session.tends_dismiss
    obtain ⟨hcalls, hcalled⟩ := hfirst.called id during
    obtain ⟨hsecond, hattended⟩ :=
      hcalls.visit (Session.tends_attend now bufferSize (pass id))
    exact ⟨hsecond, (hdismissed.trans hcalled).trans hattended⟩
  | call other c => exact hx.called id [(other, c)]

end Standing.Orderly

/-- Every session of the registry is orderly. -/
structure Orderly (r : Registry) : Prop where
  numbered : r.Numbered
  standing {id : Nat} {x : Standing} : r.standing? id = some x → x.Orderly

theorem Orderly.step (hr : r.Orderly) (e : Event) : (r.step e).Orderly where
  numbered := hr.numbered.step e
  standing {id x} hx := by
    rcases step_cases hr.numbered e with hseparate | ⟨s, unopened, steady, rfl⟩
    · rw [hseparate.standing, Option.map_eq_some_iff] at hx
      obtain ⟨y, hy, rfl⟩ := hx
      exact ((hr.standing hy).effectOn _ _ _).1
    · rw [Registry.step, standing?_register] at hx
      split at hx
      · cases hx
        exact .of_unopened unopened steady
      · exact hr.standing hx

theorem Orderly.run (hr : r.Orderly) (events : List Event) : (r.run events).Orderly := by
  induction events generalizing r with
  | nil => exact hr
  | cons e events ih => exact ih (hr.step e)

end Registry

end BitcoinPeer
