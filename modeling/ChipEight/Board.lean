import ChipEight.Machine

/-!
# The board

What the two clocks and the desk share behind one lock (`Shared`): the run state, the timers, the screen, the number of
instructions a second, and the fault that ended the last run, if one did.  Every access takes the lock for itself, so
two accesses are never one.
-/

namespace ChipEight

/-- Whether the clocks run. -/
inductive Mode where
  | stopped
  | running
  | paused
  deriving DecidableEq, Repr

def Mode.name : Mode → String
  | .stopped => "Stopped"
  | .running => "Running"
  | .paused => "Paused"

/-- What is shared behind the lock. -/
structure Board where
  mode : Mode := .stopped
  timers : Timers := {}
  screen : Screen := .blank
  rate : UInt32 := 700
  fault : Option Fault := none
  deriving DecidableEq

namespace Board

/-- Stops the run because of a fault and keeps the fault. -/
def fail (b : Board) (f : Fault) : Board := { b with mode := .stopped, fault := some f }

def clearFault (b : Board) : Board := { b with fault := none }

/-- Sets the number of instructions a second, at least one. -/
def setRate (b : Board) (hz : UInt32) : Board := { b with rate := max hz 1 }

/-- One tick of the timers, and whether it ended the tone. -/
def tick (b : Board) : Board × Bool :=
  let (timers, silent) := b.timers.tick
  ({ b with timers }, silent)

/-- Replaces timers and screen; run state, rate and fault stay. -/
def restore (b : Board) (t : Timers) (s : Screen) : Board := { b with timers := t, screen := s }

def reset (b : Board) : Board := b.restore {} .blank

/-- The machine that a processor makes up with the timers and the screen of the board. -/
def machine (b : Board) (p : Processor) : Machine := { toProcessor := p, toTimers := b.timers, screen := b.screen }

end Board

end ChipEight
