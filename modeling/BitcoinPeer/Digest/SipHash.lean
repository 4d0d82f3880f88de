import BitcoinPeer.Hash256

/-!
# SipHash-2-4 of 256-bit values

The message is always four 64-bit words, followed by the word that holds its length.
-/

namespace BitcoinPeer.SipHash

structure State where
  v0 : UInt64
  v1 : UInt64
  v2 : UInt64
  v3 : UInt64

/-- The state before the first word, under the two keys. -/
def State.keyed (k0 k1 : UInt64) : State :=
  ⟨0x736f6d6570736575 ^^^ k0, 0x646f72616e646f6d ^^^ k1,
    0x6c7967656e657261 ^^^ k0, 0x7465646279746573 ^^^ k1⟩

def rotl (x : UInt64) (n : UInt64) : UInt64 :=
  (x <<< n) ||| (x >>> (64 - n))

def State.round (s : State) : State :=
  let v0 := s.v0 + s.v1
  let v1 := rotl s.v1 13 ^^^ v0
  let v0 := rotl v0 32
  let v2 := s.v2 + s.v3
  let v3 := rotl s.v3 16 ^^^ v2
  let v0 := v0 + v3
  let v3 := rotl v3 21 ^^^ v0
  let v2 := v2 + v1
  let v1 := rotl v1 17 ^^^ v2
  let v2 := rotl v2 32
  ⟨v0, v1, v2, v3⟩

/-- Takes in one word, in two rounds. -/
def State.absorb (s : State) (word : UInt64) : State :=
  let t := (State.round { s with v3 := s.v3 ^^^ word }).round
  { t with v0 := t.v0 ^^^ word }

/-- The value of the state after four more rounds. -/
def State.finish (s : State) : UInt64 :=
  let t := (State.round { s with v2 := s.v2 ^^^ 0xff }).round.round.round
  t.v0 ^^^ t.v1 ^^^ t.v2 ^^^ t.v3

/-- The word after a message of 32 bytes: their number in the top byte. -/
def lengthWord : UInt64 := 0x2000000000000000

/-- The keyed hash of a 256-bit value. -/
def hash (k0 k1 : UInt64) (value : Hash256) : UInt64 :=
  let s := State.keyed k0 k1
  let s := s.absorb (value.word 0)
  let s := s.absorb (value.word 1)
  let s := s.absorb (value.word 2)
  let s := s.absorb (value.word 3)
  (s.absorb lengthWord).finish

end BitcoinPeer.SipHash
