import ChipEight.Control
import ChipEight.DeskError
import ChipEight.Step

/-!
# The journal

Notes about what goes on, each with a level and a text.

* `Note` : what is worth a line.
* `Session.narrate` : the notes that a step makes, read off the session before it.
* `Journal` : the notes of the clocks and the desk in order, less the ones below level `info`.
-/

namespace ChipEight

/-- How grave a note is. -/
inductive Level where
  | error
  | warn
  | info
  | debug
  | trace
  deriving DecidableEq, Repr

namespace Level

def name : Level → String
  | .error => "error"
  | .warn => "warn"
  | .info => "info"
  | .debug => "debug"
  | .trace => "trace"

def kept : Level → Bool
  | .error | .warn | .info => true
  | .debug | .trace => false

end Level

/-- What is worth a line in the journal. -/
inductive Note where
  -- the instruction clock
  | executing (w : Word) (v : Vector UInt8 16) (i pc : UInt16)
  | skipping (w : Word) (here : UInt16)
  | runnerStarted (pc : UInt16)
  | runnerStopped (pc : UInt16)
  | imageApplied (pc : UInt16)
  | faulted (f : Fault)
  -- the desk
  | discardingRun (e : DeskError)
  | previousRunEnded (f : Fault)
  | loaded (size : Nat)
  | running (hz : UInt32)
  | paused
  | resumed
  | stopped
  | metronomeDied
  | runnerDied
  | savedTo (path : String)
  | loadedFrom (path : String)
  | rateSet (hz : UInt32)
  | resetToRun
  | controlFailed (c : Control) (e : DeskError)
  | leftBehind (e : DeskError)
  -- the command line
  | programRead (path : String) (size : Nat)
  deriving DecidableEq

namespace Note

def level : Note → Level
  | .executing .. => .trace
  | .imageApplied _ => .debug
  | .skipping .. | .discardingRun _ | .metronomeDied => .warn
  | .faulted _ | .previousRunEnded _ | .runnerDied | .controlFailed .. | .leftBehind _ => .error
  | .runnerStarted _ | .runnerStopped _ | .loaded _ | .running _ | .paused | .resumed | .stopped | .savedTo _
  | .loadedFrom _ | .rateSet _ | .resetToRun | .programRead .. => .info

/-- Registers as a list of two-digit numerals. -/
def registers (v : Vector UInt8 16) : String :=
  "[" ++ ", ".intercalate (v.toList.map fun b => Text.Hex.upper 2 b.toNat) ++ "]"

def text : Note → String
  | .executing w v i pc =>
    w.text ++ " v" ++ registers v ++ " i" ++ Text.Hex.upper 4 i.toNat ++ " pc" ++ Text.Hex.upper 4 pc.toNat
  | .skipping w here => "skipping unimplemented instruction " ++ w.text ++ " at " ++ Text.Hex.address 3 here.toNat
  | .runnerStarted pc => "interpreter started at " ++ Text.Hex.address 3 pc.toNat
  | .runnerStopped pc => "interpreter stopped at " ++ Text.Hex.address 3 pc.toNat
  | .imageApplied pc => "state restored, pc " ++ Text.Hex.address 3 pc.toNat
  | .faulted f => f.message
  | .discardingRun e => "discarding previous run: " ++ e.message
  | .previousRunEnded f => "previous run ended with: " ++ f.message
  | .loaded size => "loaded " ++ toString size ++ " byte ROM"
  | .running hz => "running at " ++ toString hz.toNat ++ "Hz"
  | .paused => "paused"
  | .resumed => "unpaused"
  | .stopped => "stopped"
  | .metronomeDied => "timer thread panicked"
  | .runnerDied => "interpreter thread panicked, state lost"
  | .savedTo path => "saved state to " ++ path
  | .loadedFrom path => "loaded state from " ++ path
  | .rateSet hz => "cycle frequency " ++ toString hz.toNat ++ "Hz"
  | .resetToRun => "machine is stopped; reset to run again"
  | .controlFailed c e => c.name ++ " failed: " ++ e.message
  | .leftBehind e => e.message
  | .programRead path size => "read " ++ path ++ " (" ++ toString size ++ " bytes)"

end Note

namespace Session

/-- The notes of executing a word: one when it stands for no instruction. -/
def narrateWord (s : Session) (w : Word) : List Note :=
  match Instr.ofWord? w with
  | some _ => []
  | none => [.skipping w s.here]

/-- The notes of a step: what is executed on which registers. -/
def narrate (s : Session) : List Note :=
  match s.memory.word s.pc with
  | .error _ => []
  | .ok w => .executing w s.v s.i (s.pc + 2) :: { s with pc := s.pc + 2 }.narrateWord w

end Session

/-- Who makes a note. -/
inductive Voice where
  | runner
  | desk
  deriving DecidableEq, Repr

/-- The notes kept so far, the oldest first. -/
abbrev Journal := Array (Voice × Note)

/-- The journal with one more note, if its level is kept. -/
def Journal.add (j : Journal) (who : Voice) (n : Note) : Journal := if n.level.kept then j.push (who, n) else j

end ChipEight
