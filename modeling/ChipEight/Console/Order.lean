import ChipEight.Console.Procedure

/-!
# The orders of the desk

The methods of `Machine`, each a procedure; one that can fail answers a `DeskError`.

* `reset`, `start`, `stop` : begin and end a run.  The processor goes from the desk to the runner and back.
* `endRun`, `settleTone` : `halt` and `sync_tone`, of which other orders are made.  `takeUp`, `launch` and `accompany`
  are the rest of `start`.
* `pause`, `resume` : hold both clocks and let them go (`pause`, `unpause`).
* `capture`, `restore`, `save`, `load` : copy and replace the whole machine (`snapshot`, `restore`, `save_state`,
  `load_state`).
* `setRate` : another number of instructions a second, from the next batch on (`set_cycle_frequency`).
* `obey` : what a control key does (`handle`).
-/

namespace ChipEight.Order

open Procedure (single)

/-- An order that can fail. -/
abbrev Op := ExceptT DeskError Procedure

/-- Carries out an order and goes on with its answer, whether it failed or not. -/
def attempt (p : Op Unit) : Op (Except DeskError Unit) := ExceptT.lift p.run

/-- Takes over the answer of an order. -/
def conclude : Except DeskError Unit → Op Unit
  | .ok () => return
  | .error e => throw e

/-- Takes over the answer of the operating system. -/
def orSystemError {α : Type} (p : Procedure (Except SystemError α)) : Op α := do
  match ← p with
  | .ok a => return a
  | .error e => throw (.system e)

/-! ## Runs -/

/-- What remains to be done when both clocks are joined.  A fault that ended the run is kept for the next `stop` or `reset`
to report; when the runner died the state is lost. -/
def closeRun (whole : Bool) : Op Unit := do
  unless whole do
    single (.note .runnerDied)
    throw .disconnected
  if let some f ← single .readFault then single (.setPending f)
  single (.note .stopped)

/-- Stops both clocks and waits for them; the processor is parked. -/
def endRun : Op Unit := do
  single (.setMode .stopped)
  if ← single .isAttached then
    single .detach
    let whole ← single .joinRunner
    unless ← single .joinMetronome do single (.note .metronomeDied)
    closeRun whole

/-- Brings the tone in line with the sound timer.  Without a run nothing would end a tone, so there it stays off. -/
def settleTone : Procedure Unit := do
  if ← single .isAttached then
    if 0 < (← single .readSound) then single .startTone else single .stopTone
  else single .stopTone

/-- Makes the second clock; when it is refused, the run that has begun is given up. -/
def accompany : Op Unit := do
  unless ← single .spawnMetronome do
    single (.setMode .stopped)
    let _ ← single .joinRunner
    throw (.system .tryAgain)
  single .attach
  settleTone
  single (.note (.running (← single .readRate)))

/-- Makes both clocks, the first with the parked processor; when one is refused, the machine stays stopped. -/
def launch : Op Unit := do
  unless ← single .spawnRunner do
    single (.setMode .stopped)
    throw (.system .tryAgain)
  accompany

/-- Lets the clocks run from where the machine was left.  Does nothing if there is a run that has not stopped. -/
def start : Op Unit := do
  if ← single .isAttached then
    if (← single .readMode) ≠ .stopped then return
    endRun
  single .clearFault
  single (.setMode .running)
  launch

/-- Ends the run, puts a program into a fresh machine and starts it.  A program that is too long is refused before
anything is touched. -/
def reset (program : List UInt8) : Op Unit := do
  let some p := Processor.withProgram? program | throw (.romTooLarge program.length Memory.programRoom)
  if let .error e ← attempt endRun then single (.note (.discardingRun e))
  if let some f ← single .takePending then single (.note (.previousRunEnded f))
  single (.park p)
  single .resetBoard
  single (.note (.loaded program.length))
  start

def pause : Procedure Unit := do
  if (← single .readMode) = .running then
    single (.setMode .paused)
    single (.note .paused)

def resume : Procedure Unit := do
  if (← single .readMode) = .paused then
    single (.setMode .running)
    single (.note .resumed)

/-- Ends the run and reports the fault that ended it before, unless that was reported already. -/
def stop : Op Unit := do
  endRun
  if let some f ← single .takePending then throw (.fault f)

/-- What dropping the console does: the run ends, and an error can only be noted. -/
def abandon : Procedure Unit := do
  if let .error e ← endRun.run then single (.note (.leftBehind e))

/-! ## Copies -/

/-- Sends a job to the runner and waits; `none` when there is no run or it ended before it answered. -/
def ask (j : Job) : Procedure (Option Reply) := do
  if ← single .isAttached then
    if let some ticket ← single (.post j) then
      return ← single (.collect ticket)
  return none

def capture : Op Machine := do
  if let some (.captured m) ← ask .capture then return m
  if ← single .isAttached then endRun
  single .captureParked

/-- Replaces the whole machine; refused while it is running. -/
def restore (m : Machine) : Op Unit := do
  if (← single .readMode) = .running then throw .busy
  if let some .restored ← ask (.restore m) then
    settleTone
    return
  if ← single .isAttached then endRun
  single (.replaceParked m)
  settleTone

def save : Op Unit := do
  let m ← capture
  orSystemError (single .createFile)
  orSystemError (single (.appendFile (Image.encode m)))
  single (.note (.savedTo (← single .statePath)))

/-- Restores the image in the state file; refused while the machine is running. -/
def load : Op Unit := do
  if (← single .readMode) = .running then throw .busy
  let bytes ← orSystemError (single .readFile)
  match Image.decode bytes with
  | .error d => throw (.invalidImage d)
  | .ok m =>
    restore m
    single (.note (.loadedFrom (← single .statePath)))

/-! ## Speed and control keys -/

/-- Sets the number of instructions a second. -/
def setRate (hz : UInt32) : Procedure Unit := do
  single (.setRate hz)
  single (.note (.rateSet (← single .readRate)))

/-- By how much the speed keys change the number of instructions a second. -/
def rateStep : UInt32 := 100

/-- The rate after the key for more speed; it stops at the largest number. -/
def faster (hz : UInt32) : UInt32 := .ofNat (min (hz.toNat + rateStep.toNat) (UInt32.size - 1))

/-- The rate after the key for less speed; the result is one step at least. -/
def slower (hz : UInt32) : UInt32 := .ofNat (max (hz.toNat - rateStep.toNat) rateStep.toNat)

/-- What a control key asks for, as an order that can fail. -/
def ofControl (program : List UInt8) : Control → Op Unit
  | .togglePause => do
    match ← single .readMode with
    | .running => pause
    | .paused => resume
    | .stopped => single (.note .resetToRun)
  | .save => save
  | .load => do
    let wasRunning := (← single .readMode) = .running
    pause
    let answer ← attempt load
    if wasRunning then resume
    conclude answer
  | .reset => reset program
  | .faster => do setRate (faster (← single .readRate))
  | .slower => do setRate (slower (← single .readRate))
  | .quit => return

/-- Does what a control key asks for; a failure is noted. -/
def obey (program : List UInt8) (k : Control) : Procedure Unit := do
  if let .error e ← (ofControl program k).run then single (.note (.controlFailed k e))

end ChipEight.Order
