import ChipEight.Fault
import ChipEight.Image
import ChipEight.SystemError

/-!
# Errors of the control desk

Why a control operation did not do what it was asked for.
-/

namespace ChipEight

/-- The answer of a control operation that failed. -/
inductive DeskError where
  /-- The program does not fit into memory. -/
  | romTooLarge (size max : Nat)
  /-- The run had ended by itself. -/
  | fault (f : Fault)
  /-- The system refused. -/
  | system (e : SystemError)
  /-- The state file holds no image. -/
  | invalidImage (d : Image.Defect)
  /-- The machine is running. -/
  | busy
  /-- The instruction clock died. -/
  | disconnected
  deriving DecidableEq, Repr

namespace DeskError

def systemMessage (words : String) : String := "state file error: " ++ words

def imageMessage (words : String) : String := "invalid snapshot: " ++ words

def message : DeskError → String
  | .romTooLarge size max =>
    "ROM is too large (" ++ toString size ++ " bytes), max size is " ++ toString max ++ " bytes"
  | .fault f => "run stopped by fault: " ++ f.message
  | .system e => systemMessage e.message
  | .invalidImage d => imageMessage d.message
  | .busy => "state can only be restored while paused or stopped"
  | .disconnected => "interpreter thread exited before answering"

end DeskError

end ChipEight
