import BitcoinPeer.Command
import BitcoinPeer.CommandLine

/-!
# The program

Runs one command. Files and streams are read and written here and nowhere else. A peer is talked to
over the standard input and output, so the report on it goes to the standard error.
-/

open BitcoinPeer

/-- The block file with the given name. -/
def readBlockFile (name : String) : IO BlockFile := do
  try
    let content ← IO.FS.readBinFile name
    return { content := some content.toList }
  catch _ => return { content := none }

/-- One iteration of the loop over the standard streams. -/
def pollStreams (id : Nat) (r : Registry) : IO Registry := do
  let some s := r.session? id | return r
  let now ← IO.monoMsNow
  if s.conn.wantsDisconnect then
    return r.pollOnce now fun _ => { write := .blocked, reads := [] }
  let output ← IO.getStdout
  output.write ⟨s.conn.sendBuffer.toArray⟩
  output.flush
  let bytes ← (← IO.getStdin).read (USize.ofNat r.readBufferSize)
  let read := if bytes.isEmpty then ReadOutcome.endOfStream else .received bytes.toList
  return r.pollOnce (← IO.monoMsNow) fun _ =>
    { write := .accepted s.conn.sendBuffer.length, reads := [read] }

/-- Iterates until the session has what is awaited, is closed, or the time is up; the time is looked
at between two readings. -/
partial def waitOnStreams (deadline : Nat) (id : Nat) (awaited : Session.Awaited) (r : Registry) :
    IO Registry := do
  match r.check id awaited with
  | .ok () => return r
  | .error _ =>
    if r.active.contains id ∧ (← IO.monoMsNow) < deadline then
      waitOnStreams deadline id awaited (← pollStreams id r)
    else return r

/-- The values that make our version message unlike any other. -/
def freshValues (time : Nat) : IO Freshness := do
  let bytes := (← IO.getRandomBytes 24).toList
  let nonce := (Octets.ofBytes? 8 (bytes.take 8)).getD default
  let id := (Octets.ofBytes? 16 (bytes.drop 8)).getD default
  return .ofRandom (Int64.ofNat time) nonce id

def runConnect (host : String) (port : Option UInt16) (network : Network) (timeoutSecs time : Nat) :
    IO Command.Outcome := do
  let some peer := Command.resolvePeer host port network
    | throw (IO.userError ("could not resolve " ++ host))
  let now ← IO.monoMsNow
  Command.connect (.ok ()) peer network (← freshValues time) now
    (waitOnStreams (now + 1000 * timeoutSecs))

/-- Shows what a command printed and says whether it succeeded. -/
def report (out : IO.FS.Stream) (o : Command.Outcome) : IO UInt32 := do
  out.putStr o.printed
  match o.result with
  | .ok () => return 0
  | .error e =>
    IO.eprintln ("Error: " ++ e.message)
    return 1

def main (args : List String) : IO UInt32 := do
  let stdout ← IO.getStdout
  match Request.ofArgs args with
  | .error message =>
    IO.eprintln (message ++ "\n\n" ++ Request.usage)
    return 2
  | .ok (.connect host port network timeoutSecs time) =>
    report (← IO.getStderr) (← runConnect host port network timeoutSecs time)
  | .ok (.loadBlock file offset) => report stdout (Command.loadBlock (← readBlockFile file) offset)
  | .ok (.proof tx block hashes) => report stdout (Command.proof block tx hashes)
  | .ok (.verifyProof json) => report stdout (Command.verifyProof json)
