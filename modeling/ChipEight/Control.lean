/-!
# Control keys

What a key outside the keypad asks for.
-/

namespace ChipEight

/-- A wish of the person at the keyboard. -/
inductive Control where
  | togglePause
  | save
  | load
  | reset
  | faster
  | slower
  | quit
  deriving DecidableEq, Repr

def Control.name : Control → String
  | .togglePause => "TogglePause"
  | .save => "Save"
  | .load => "Load"
  | .reset => "Reset"
  | .faster => "Faster"
  | .slower => "Slower"
  | .quit => "Quit"

end ChipEight
