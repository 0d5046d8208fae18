import ChipEight.Keypad
import ChipEight.Surroundings

/-!
# The panel

What whoever plays has in front of them: the keypad and a speaker.

* `Panel.meet` : the panel after a key has been pressed or released, or the tone started or stopped.
* `Panel.surroundings` : the surroundings of a machine that has a panel for its keys.
-/

namespace ChipEight

/-- The keypad, and whether the speaker sounds. -/
structure Panel where
  keypad : Keypad := {}
  sounding : Bool := false
  deriving DecidableEq, Repr

namespace Panel

/-- What a panel meets with: keys from one side, the tone from the other. -/
inductive Event where
  | press (k : Digit)
  | release (k : Digit)
  | startTone
  | stopTone
  deriving DecidableEq, Repr

def meet (p : Panel) : Event → Panel
  | .press k => { p with keypad := p.keypad.press k }
  | .release k => { p with keypad := p.keypad.release k }
  | .startTone => { p with sounding := true }
  | .stopTone => { p with sounding := false }

/-- A panel that nobody has touched, after these events. -/
def after (es : List Event) : Panel := es.foldl meet {}

/-- The key that is reported as held. -/
def key? (p : Panel) : Option UInt8 := p.keypad.lowest?.map fun k => .ofNat k.val

/-- The surroundings of a machine whose question number `n` is put to a panel that has met with `history n`. -/
def surroundings (history : Nat → List Event) (random : Nat → UInt8) : Surroundings where
  key n := (after (history n)).key?
  random := random

end Panel

end ChipEight
