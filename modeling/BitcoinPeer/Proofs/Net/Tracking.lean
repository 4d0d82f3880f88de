import Mathlib.Data.List.DropRight
import Mathlib.Data.List.Induction
import BitcoinPeer.Net.Tracker

/-!
# What a tracker knows of its past

What is kept of a command refers to two parts of the past: its count to the messages that were
recorded since the counts were last cleared, its latest message and the arrival of that one to all
messages ever recorded. `Reflects` says so of one tracker; a call keeps it (`Reflects.step`), and so
it holds after any calls.
-/

namespace BitcoinPeer.Tracker

variable {t : Tracker} {now : Instant} {m m' : Message} {messages : List Message} {command : String}
  {i i' : Nat}

/-! ### One call -/

theorem lookup_filter_ne (receipts : List (String × Receipt)) {command other : String}
    (h : command ≠ other) :
    (receipts.filter fun entry => entry.1 != other).lookup command = receipts.lookup command := by
  induction receipts with
  | nil => rfl
  | cons entry receipts ih =>
    by_cases hother : entry.1 = other
    · have hkey : (command == entry.1) = false := by simpa [hother] using h
      rw [List.filter_cons_of_neg (by simpa using hother), ih, List.lookup_cons, hkey]
    · rw [List.filter_cons_of_pos (by simpa using hother), List.lookup_cons, List.lookup_cons, ih]

theorem lookup_map_receipts (f : Receipt → Receipt) (receipts : List (String × Receipt))
    (command : String) :
    (receipts.map fun entry => (entry.1, f entry.2)).lookup command =
      (receipts.lookup command).map f := by
  induction receipts with
  | nil => rfl
  | cons entry receipts ih =>
    rw [List.map_cons, List.lookup_cons, List.lookup_cons, ih]
    cases command == entry.1 <;> rfl

theorem receipt?_record (t : Tracker) (now : Instant) (m : Message) (command : String) :
    (t.record now m).receipt? command =
      if m.command = command then
        some { count := t.count command + 1, latest := m, time := now, arrival := t.received }
      else t.receipt? command := by
  by_cases h : m.command = command
  · rw [if_pos h, ← h]
    exact List.lookup_cons_self
  · have hkey : (command == m.command) = false := by simpa using Ne.symm h
    rw [if_neg h, receipt?, record, List.lookup_cons, hkey]
    exact lookup_filter_ne _ (Ne.symm h)

theorem count_record (t : Tracker) (now : Instant) (m : Message) (command : String) :
    (t.record now m).count command = t.count command + if m.command = command then 1 else 0 := by
  rw [count, receipt?_record]
  split_ifs <;> rfl

theorem receipt?_clear (t : Tracker) (command : String) :
    t.clear.receipt? command = (t.receipt? command).map fun r => { r with count := 0 } :=
  lookup_map_receipts (fun r => { r with count := 0 }) t.receipts command

theorem count_clear (t : Tracker) (command : String) : t.clear.count command = 0 := by
  rw [count, receipt?_clear]
  cases t.receipt? command <;> rfl

/-- Clearing the counts keeps the latest messages. -/
@[simp] theorem latest?_clear (t : Tracker) (command : String) :
    t.clear.latest? command = t.latest? command := by
  rw [latest?, receipt?_clear, Option.map_map]
  rfl

@[simp] theorem lastPong?_record_pong (t : Tracker) (now : Instant) (nonce : UInt64) :
    (t.record now (.pong nonce)).lastPong? = some nonce := by
  rw [lastPong?, latest?, receipt?_record]
  rfl

@[simp] theorem lastPong?_clear (t : Tracker) : t.clear.lastPong? = t.lastPong? := by
  rw [lastPong?, latest?_clear, lastPong?]

/-! ### The past -/

/-- What may be asked of a tracker. -/
inductive Call where
  | record (now : Instant) (m : Message)
  | clear

def Call.apply (t : Tracker) : Call → Tracker
  | record now m => t.record now m
  | clear => t.clear

def Call.message? : Call → Option Message
  | record _ m => some m
  | clear => none

/-- A new tracker after some calls. -/
def run (calls : List Call) : Tracker :=
  calls.foldl Call.apply {}

/-- The messages that were recorded, the oldest first. -/
def recorded (calls : List Call) : List Message :=
  calls.filterMap Call.message?

/-- The calls since the counts were last cleared. -/
def sinceClear (calls : List Call) : List Call :=
  calls.rtakeWhile (·.message?.isSome)

/-- A message stands at a position, and none of its command comes after it. -/
structure LatestAt (messages : List Message) (position : Nat) (m : Message) : Prop where
  here : messages[position]? = some m
  latest : ∀ m' ∈ messages.drop (position + 1), m'.command ≠ m.command

/-- Behind the last message of one command there is one of the other. -/
def EndsBefore (messages : List Message) (command other : String) : Prop :=
  ∃ before m after, messages = before ++ m :: after ∧ m.command = command ∧
    (∀ m' ∈ after, m'.command ≠ command) ∧ ∃ m' ∈ after, m'.command = other

/-! ### Latest messages -/

theorem mem_drop_of_lt (h : messages[i']? = some m) (hlt : i < i') : m ∈ messages.drop (i + 1) := by
  refine List.mem_iff_getElem?.mpr ⟨i' - (i + 1), ?_⟩
  rw [List.getElem?_drop, ← h]
  congr 1
  omega

theorem LatestAt.split (h : LatestAt messages i m) :
    messages = messages.take i ++ m :: messages.drop (i + 1) := by
  obtain ⟨hlt, hm⟩ := List.getElem?_eq_some_iff.mp h.here
  rw [← hm, List.getElem_cons_drop, List.take_append_drop]

theorem latestAt_length {after : List Message} (before : List Message)
    (h : ∀ m' ∈ after, m'.command ≠ m.command) :
    LatestAt (before ++ m :: after) before.length m where
  here := by simp
  latest := by simpa using h

theorem LatestAt.append_singleton (h : LatestAt messages i m) (hne : m'.command ≠ m.command) :
    LatestAt (messages ++ [m']) i m where
  here := by rw [List.getElem?_append_left (List.getElem?_eq_some_iff.mp h.here).1, h.here]
  latest := by
    have hlt := (List.getElem?_eq_some_iff.mp h.here).1
    rw [List.drop_append_of_le_length (by omega)]
    intro x hx
    rcases List.mem_append.mp hx with hx | hx
    · exact h.latest x hx
    · rwa [List.mem_singleton.mp hx]

/-- There is one latest message of a command. -/
theorem LatestAt.position_eq (h : LatestAt messages i m) (h' : LatestAt messages i' m')
    (hm : m.command = m'.command) : i = i' := by
  rcases Nat.lt_trichotomy i i' with hlt | heq | hgt
  · exact absurd hm.symm (h.latest m' (mem_drop_of_lt h'.here hlt))
  · exact heq
  · exact absurd hm (h'.latest m (mem_drop_of_lt h.here hgt))

theorem LatestAt.getLast?_filter (h : LatestAt messages i m) (hm : m.command = command) :
    (messages.filter (·.command = command)).getLast? = some m := by
  have hafter : (messages.drop (i + 1)).filter (·.command = command) = [] := by
    rw [List.filter_eq_nil_iff]
    intro x hx
    simpa [hm] using h.latest x hx
  rw [h.split, List.filter_append, List.filter_cons_of_pos (by simpa using hm), hafter,
    List.getLast?_concat]

/-- Latest messages stand in the order in which their commands end. -/
theorem LatestAt.lt_iff (h : LatestAt messages i m) (h' : LatestAt messages i' m') :
    i < i' ↔ EndsBefore messages m.command m'.command := by
  constructor
  · intro hlt
    exact ⟨_, m, _, h.split, rfl, h.latest, m', mem_drop_of_lt h'.here hlt, rfl⟩
  · rintro ⟨before, x, after, rfl, hx, hlatest, y, hy, hcommand⟩
    obtain rfl : i = before.length :=
      h.position_eq (latestAt_length before (hx ▸ hlatest)) hx.symm
    obtain ⟨k, hk⟩ := List.mem_iff_getElem?.mp hy
    -- the message `y` comes after the latest one of the first command, and `i'` not before `y`
    have hy : (before ++ x :: after)[before.length + 1 + k]? = some y := by
      rw [← hk, List.getElem?_append_right (by omega), Nat.add_assoc, Nat.add_sub_cancel_left,
        Nat.add_comm, List.getElem?_cons_succ]
    by_contra hle
    exact h'.latest y (mem_drop_of_lt hy (by omega)) hcommand

/-! ### What is known after some calls -/

/-- What the tracker keeps is right about its past. -/
structure Reflects (t : Tracker) (calls : List Call) : Prop where
  received : t.received = (recorded calls).length
  count : ∀ command, t.count command =
    ((recorded (sinceClear calls)).filter (·.command = command)).length
  unseen : ∀ {command}, t.receipt? command = none → ∀ m ∈ recorded calls, m.command ≠ command
  seen : ∀ {command r}, t.receipt? command = some r →
    r.latest.command = command ∧ LatestAt (recorded calls) r.arrival r.latest

theorem reflects_new : Reflects {} [] where
  received := rfl
  count _ := rfl
  unseen _ _ hm := absurd hm List.not_mem_nil
  seen h := by cases h

theorem recorded_concat (calls : List Call) (call : Call) :
    recorded (calls ++ [call]) = recorded calls ++ call.message?.toList := by
  rw [recorded, List.filterMap_append, List.filterMap_cons]
  cases call.message? <;> rfl

theorem Reflects.record {calls : List Call} (h : t.Reflects calls) (now : Instant) (m : Message) :
    (t.record now m).Reflects (calls ++ [.record now m]) := by
  have hall : recorded (calls ++ [.record now m]) = recorded calls ++ [m] :=
    recorded_concat calls (.record now m)
  have hsince : recorded (sinceClear (calls ++ [.record now m])) =
      recorded (sinceClear calls) ++ [m] := by
    rw [sinceClear, List.rtakeWhile_concat_pos _ _ _ rfl]
    exact recorded_concat _ (.record now m)
  refine ⟨?_, fun command => ?_, fun {command} hnone x hx => ?_, fun {command r} hsome => ?_⟩
  · rw [hall, List.length_append, List.length_singleton, ← h.received]
    rfl
  · rw [count_record, hsince, List.filter_append, List.length_append, ← h.count]
    by_cases hm : m.command = command <;> simp [hm]
  · rw [receipt?_record] at hnone
    split_ifs at hnone with hm
    rw [hall] at hx
    rcases List.mem_append.mp hx with hx | hx
    · exact h.unseen hnone x hx
    · rwa [List.mem_singleton.mp hx]
  · rw [hall]
    rw [receipt?_record] at hsome
    split_ifs at hsome with hm
    · obtain rfl := Option.some.inj hsome
      rw [h.received]
      exact ⟨hm, latestAt_length _ fun _ hx => absurd hx List.not_mem_nil⟩
    · obtain ⟨hcommand, hlatest⟩ := h.seen hsome
      exact ⟨hcommand, hlatest.append_singleton (hcommand ▸ hm)⟩

theorem Reflects.clear {calls : List Call} (h : t.Reflects calls) :
    t.clear.Reflects (calls ++ [.clear]) := by
  have hall : recorded (calls ++ [.clear]) = recorded calls := by
    rw [recorded_concat]
    exact List.append_nil _
  have hsince : sinceClear (calls ++ [.clear]) = [] := List.rtakeWhile_concat_neg _ _ _ (by decide)
  refine ⟨h.received.trans (congrArg List.length hall.symm), fun command => ?_,
    fun {command} hnone => ?_, fun {command r} hsome => ?_⟩
  · rw [count_clear, hsince]
    rfl
  · rw [hall]
    rw [receipt?_clear, Option.map_eq_none_iff] at hnone
    exact h.unseen hnone
  · rw [hall]
    rw [receipt?_clear, Option.map_eq_some_iff] at hsome
    obtain ⟨r', hr, rfl⟩ := hsome
    exact h.seen (r := r') hr

/-- **One call** keeps the tracker right about its past. -/
theorem Reflects.step {calls : List Call} (h : t.Reflects calls) (call : Call) :
    (call.apply t).Reflects (calls ++ [call]) := by
  cases call with
  | record now m => exact h.record now m
  | clear => exact h.clear

theorem reflects_run (calls : List Call) : (run calls).Reflects calls := by
  induction calls using List.reverseRecOn with
  | nil => exact reflects_new
  | append_singleton calls call ih =>
    rw [run, List.foldl_concat]
    exact ih.step call

theorem Reflects.latest?_eq {calls : List Call} (h : t.Reflects calls) (command : String) :
    t.latest? command = ((recorded calls).filter (·.command = command)).getLast? := by
  cases hr : t.receipt? command with
  | none =>
    have hnone : (recorded calls).filter (·.command = command) = [] := by
      rw [List.filter_eq_nil_iff]
      simpa using h.unseen hr
    rw [latest?, hr, hnone]
    rfl
  | some r =>
    obtain ⟨hcommand, hlatest⟩ := h.seen hr
    rw [latest?, hr, hlatest.getLast?_filter hcommand]
    rfl

theorem Reflects.arrival?_eq_some_iff {calls : List Call} (h : t.Reflects calls) :
    t.arrival? command = some i ↔ ∃ m, m.command = command ∧ LatestAt (recorded calls) i m := by
  rw [arrival?, Option.map_eq_some_iff]
  constructor
  · rintro ⟨r, hr, rfl⟩
    exact ⟨r.latest, h.seen hr⟩
  · rintro ⟨m, hcommand, hlatest⟩
    cases hr : t.receipt? command with
    | none => exact absurd hcommand (h.unseen hr m (List.mem_of_getElem? hlatest.here))
    | some r =>
      obtain ⟨hcommand', hlatest'⟩ := h.seen hr
      exact ⟨r, rfl, hlatest'.position_eq hlatest (hcommand'.trans hcommand.symm)⟩

theorem Reflects.exists_arrival? {calls : List Call} (h : t.Reflects calls)
    (hm : ∃ m ∈ recorded calls, m.command = command) :
    ∃ i m, t.arrival? command = some i ∧ m.command = command ∧ LatestAt (recorded calls) i m := by
  obtain ⟨m, hmem, hcommand⟩ := hm
  cases hr : t.receipt? command with
  | none => exact absurd hcommand (h.unseen hr m hmem)
  | some r => exact ⟨r.arrival, r.latest, by rw [arrival?, hr]; rfl, h.seen hr⟩

/-- **What a tracker knows** after any calls: of every command the number of messages since the last
clearing, the last message of all and its position among all; and two commands never share a position,
but stand in the order of their last messages. -/
theorem run_reflects_past (calls : List Call) :
    (∀ command,
      (run calls).count command =
        ((recorded (sinceClear calls)).filter (·.command = command)).length ∧
      (run calls).latest? command =
        ((recorded calls).filter (·.command = command)).getLast? ∧
      (∀ i, (run calls).arrival? command = some i ↔
        ∃ m, (run calls).latest? command = some m ∧ LatestAt (recorded calls) i m) ∧
      ((run calls).arrival? command = none ↔ ∀ m ∈ recorded calls, m.command ≠ command)) ∧
    ∀ command other, command ≠ other → (∃ m ∈ recorded calls, m.command = command) →
      (∃ m ∈ recorded calls, m.command = other) →
      ∃ i j, (run calls).arrival? command = some i ∧ (run calls).arrival? other = some j ∧ i ≠ j ∧
        (i < j ↔ EndsBefore (recorded calls) command other) := by
  have h := reflects_run calls
  refine ⟨fun command => ⟨h.count command, h.latest?_eq command, fun i => ?_, ?_⟩, ?_⟩
  · rw [h.arrival?_eq_some_iff]
    refine exists_congr fun m => and_congr_left fun hlatest => ?_
    rw [h.latest?_eq]
    constructor
    · exact hlatest.getLast?_filter
    · intro hlast
      simpa using List.of_mem_filter (List.mem_of_getLast? hlast)
  · constructor
    · intro hnone
      exact h.unseen (Option.map_eq_none_iff.mp hnone)
    · intro hne
      rw [Option.eq_none_iff_forall_ne_some]
      intro i hi
      obtain ⟨m, hcommand, hlatest⟩ := h.arrival?_eq_some_iff.mp hi
      exact hne m (List.mem_of_getElem? hlatest.here) hcommand
  · intro command other hne hcommand hother
    obtain ⟨i, m, hi, rfl, hm⟩ := h.exists_arrival? hcommand
    obtain ⟨j, m', hj, rfl, hm'⟩ := h.exists_arrival? hother
    refine ⟨i, j, hi, hj, ?_, hm.lt_iff hm'⟩
    rintro rfl
    exact hne (congrArg Message.command (Option.some.inj (hm.here.symm.trans hm'.here)))

/-- Clearing takes back the count of the first pong, but not its place among all messages. -/
example :
    let calls : List Call :=
      [.record 0 .verack, .record 0 (.pong 3), .clear, .record 0 (.pong 4)]
    (run calls).count "pong" = 1 ∧ (run calls).count "verack" = 0 ∧
      (run calls).arrival? "pong" = some 2 ∧ (run calls).latest? "verack" = some .verack := by
  decide

end BitcoinPeer.Tracker
