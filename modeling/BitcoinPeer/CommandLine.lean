import BitcoinPeer.Net.Network

/-!
# The command line

What the program can be asked for, and how a request is read from its arguments: the name of a
command, options with a value each, and, for one command, values without an option.
-/

namespace BitcoinPeer

inductive Request where
  | connect (host : String) (port : Option UInt16) (network : Network) (timeoutSecs time : Nat)
  | loadBlock (file : String) (offset : Nat)
  | proof (tx : String) (block : Option String) (hashes : List String)
  | verifyProof (json : String)
deriving DecidableEq

/-- The arguments after the command: the values of options by their names, and all others. -/
structure Arguments where
  options : List (String × String) := []
  others : List String := []
deriving DecidableEq

namespace Arguments

/-- Reads arguments, of which the options must be among the given names. -/
def read (names : List String) : List String → Except String Arguments
  | [] => .ok {}
  | arg :: rest =>
    if arg.startsWith "--" then
      if names.contains arg then
        match rest with
        | [] => .error ("Missing value for " ++ arg)
        | value :: rest => do
          let more ← read names rest
          return { more with options := (arg, value) :: more.options }
      else .error ("Unknown option " ++ arg)
    else do
      let more ← read names rest
      return { more with others := arg :: more.others }

/-- The value of an option, of which the first one counts. -/
def option? (a : Arguments) (name : String) : Option String :=
  a.options.lookup name

/-- The value of an option that must be there. -/
def required (a : Arguments) (name : String) : Except String String :=
  match a.option? name with
  | some value => .ok value
  | none => .error ("Missing option " ++ name)

/-- A number below a bound; `usual` if the option is left out. -/
def number (a : Arguments) (name : String) (bound usual : Nat) : Except String Nat :=
  match a.option? name with
  | none => .ok usual
  | some text =>
    match text.toNat? with
    | some n => if n < bound then .ok n else .error ("Value of " ++ name ++ " is too large")
    | none => .error ("Value of " ++ name ++ " is not a number")

/-- Refuses values without an option. -/
def noOthers (a : Arguments) : Except String Unit :=
  match a.others with
  | [] => .ok ()
  | other :: _ => .error ("Unexpected argument " ++ other)

end Arguments

namespace Request

/-- How the program is called. -/
def usage : String :=
  "\n".intercalate
    ["Bitcoin SV peer protocol and Merkle proof tools", "",
      "  connect [--host ADDRESS] [--port N] [--network NAME] [--timeout-secs N] [--time N]",
      "      shake hands with the peer at the other end of the standard streams",
      "  load-block --file PATH [--offset N]",
      "      show the block at a byte offset of a block file",
      "  proof --tx HASH [--block HASH] HASH...",
      "      build a Merkle inclusion proof",
      "  verify-proof --json TEXT",
      "      check a proof that was built before"]

def connectOf (args : List String) : Except String Request := do
  let a ← Arguments.read ["--host", "--port", "--network", "--timeout-secs", "--time"] args
  a.noOthers
  let port ←
    match a.option? "--port" with
    | none => pure none
    | some _ => some <$> a.number "--port" 65536 0
  let network ← Network.ofText ((a.option? "--network").getD "regtest")
  let timeoutSecs ← a.number "--timeout-secs" UInt32.size 30
  let time ← a.number "--time" (UInt64.size / 2) 0
  return .connect ((a.option? "--host").getD "127.0.0.1") (port.map UInt16.ofNat) network
    timeoutSecs time

def loadBlockOf (args : List String) : Except String Request := do
  let a ← Arguments.read ["--file", "--offset"] args
  a.noOthers
  return .loadBlock (← a.required "--file") (← a.number "--offset" UInt64.size 0)

def proofOf (args : List String) : Except String Request := do
  let a ← Arguments.read ["--tx", "--block"] args
  let tx ← a.required "--tx"
  if a.others.isEmpty then throw "Missing the transaction hashes of the block"
  return .proof tx (a.option? "--block") a.others

def verifyProofOf (args : List String) : Except String Request := do
  let a ← Arguments.read ["--json"] args
  a.noOthers
  return .verifyProof (← a.required "--json")

/-- Reads a request. -/
def ofArgs : List String → Except String Request
  | [] => .error "Missing command"
  | "connect" :: args => connectOf args
  | "load-block" :: args => loadBlockOf args
  | "proof" :: args => proofOf args
  | "verify-proof" :: args => verifyProofOf args
  | other :: _ => .error ("Unknown command " ++ other)

end Request

end BitcoinPeer
