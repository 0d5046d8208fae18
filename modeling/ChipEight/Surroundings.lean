import ChipEight.Machine

/-!
# The surroundings of a machine

A machine asks its surroundings which key is held, draws random bytes from them and has them start a tone; they stop the
tone themselves or are told to.

* `Surroundings` : the answers, each by the number of the call, the first call being number `0`.
* `Tally` : how many calls of each kind were made so far, and whether the last call about the tone started it.
* `Session` : a machine together with the tally of its calls.
-/

namespace ChipEight

/-- The answers of the surroundings by the number of the call.  A key may be any byte. -/
structure Surroundings where
  key : Nat → Option UInt8
  random : Nat → UInt8

/-- The calls made so far, and whether a tone sounds. -/
structure Tally where
  asked : Nat := 0
  started : Nat := 0
  stopped : Nat := 0
  drawn : Nat := 0
  sounding : Bool := false
  deriving DecidableEq, Repr

namespace Tally

def ask (t : Tally) : Tally := { t with asked := t.asked + 1 }

def draw (t : Tally) : Tally := { t with drawn := t.drawn + 1 }

def startTone (t : Tally) : Tally := { t with started := t.started + 1, sounding := true }

def stopTone (t : Tally) : Tally := { t with stopped := t.stopped + 1, sounding := false }

end Tally

/-- The answer to the next question, if it is a key of the keypad. -/
def Surroundings.heldKey (o : Surroundings) (t : Tally) : Option UInt8 :=
  (o.key t.asked).filter (· < 16)

/-- A machine and the calls it has made. -/
structure Session extends Machine where
  tally : Tally := {}
  deriving DecidableEq

end ChipEight
