import BitcoinPeer.Net.Connection

/-!
# What has been received

For every command, how often it was received since the counts were last cleared, the latest message
and when it came.
-/

namespace BitcoinPeer

/-- What is kept of the messages of one command. -/
structure Receipt where
  count : Nat
  latest : Message
  time : Instant
  /-- The number of messages, of any command, received before the latest one. -/
  arrival : Nat

/-- What has been received on a connection. The numbers, here and in a receipt, have no bound: counters
of 64 bits would differ from them only after 2⁶⁴ messages, and no connection lasts for so many. -/
structure Tracker where
  /-- Whether the connection has been opened and not yet closed. -/
  connected : Bool := false
  receipts : List (String × Receipt) := []
  /-- The number of messages received in all. -/
  received : Nat := 0

namespace Tracker

def receipt? (t : Tracker) (command : String) : Option Receipt :=
  t.receipts.lookup command

/-- How often a command was received since the counts were last cleared. -/
def count (t : Tracker) (command : String) : Nat :=
  ((t.receipt? command).map Receipt.count).getD 0

/-- The latest message of a command, whether or not the counts were cleared since. -/
def latest? (t : Tracker) (command : String) : Option Message :=
  (t.receipt? command).map Receipt.latest

/-- The position of the latest message of a command among all messages received. -/
def arrival? (t : Tracker) (command : String) : Option Nat :=
  (t.receipt? command).map Receipt.arrival

/-- Takes note of a message. -/
def record (now : Instant) (message : Message) (t : Tracker) : Tracker :=
  let command := message.command
  let receipt : Receipt :=
    { count := t.count command + 1, latest := message, time := now, arrival := t.received }
  { t with
    receipts := (command, receipt) :: t.receipts.filter fun entry => entry.1 != command
    received := t.received + 1 }

/-- Sets every count to zero and keeps the latest messages. -/
def clear (t : Tracker) : Tracker :=
  { t with receipts := t.receipts.map fun entry => (entry.1, { entry.2 with count := 0 }) }

def verackReceived (t : Tracker) : Bool :=
  0 < t.count "verack"

/-- The nonce of the latest pong. -/
def lastPong? (t : Tracker) : Option UInt64 :=
  match t.latest? "pong" with
  | some (.pong nonce) => some nonce
  | _ => none

end Tracker

end BitcoinPeer
