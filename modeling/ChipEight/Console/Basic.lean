import ChipEight.Board
import ChipEight.Journal
import ChipEight.Mailbox
import ChipEight.Settings
import ChipEight.StateFile

/-!
# The console

The whole of what runs a machine: three threads, which are the *runner* (the instruction clock), the *metronome* (the
timer clock) and the *desk* (whoever gives the orders), and everything they share.

* `Thread` : how far a thread has come.
* `Runner`, `Metronome` : what the two clocks, `run_interpreter` and `run_timer`, are about to do.
* `Desk` : what only the desk sees: whether `Machine` has a `Run`, the parked `State` and the unreported fault.
* `Console` : all of it.
* `Scenario` : the surroundings of the console, with what else may happen during a call.
-/

namespace ChipEight

/-- The life of a thread that works on an `α` and leaves a `β` to whoever joins it. -/
inductive Thread (α β : Type) where
  | none
  | live (work : α)
  | ended (result : β)
  | died
  deriving DecidableEq

/-- What the instruction clock does next. -/
inductive Runner.Stage where
  /-- Take the next job off the queue. -/
  | serving
  /-- Look at the run state. -/
  | looking
  /-- Read the rate and begin a batch. -/
  | sizing
  /-- Execute an instruction of a batch that has `left` of them to go. -/
  | batch (left : Nat)
  /-- Wait until the time of the batch is over. -/
  | waiting
  /-- Record the fault that ended the run. -/
  | failing (f : Fault)
  /-- Leave; from then on nobody takes jobs. -/
  | leaving
  deriving DecidableEq

/-- The instruction clock: it owns the processor of the run. -/
structure Runner where
  processor : Processor
  batchRate : UInt32
  stage : Runner.Stage := .serving
  deriving DecidableEq

/-- What the timer clock does next. -/
inductive Metronome where
  /-- Look at the run state. -/
  | looking
  /-- Tick the timers. -/
  | ticking
  /-- Stop the tone, because the sound timer has come to zero. -/
  | silencing
  /-- Stop the tone, because the run is over. -/
  | leaving
  deriving DecidableEq, Repr

/-- What only the desk sees. -/
structure Desk where
  settings : Settings := {}
  /-- Whether the desk has a run to join. -/
  attached : Bool := false
  /-- The processor, while no run has it. -/
  parked : Processor := .powerOn
  /-- The fault of a joined run that nobody was told of yet. -/
  pending : Option Fault := none
  deriving DecidableEq

structure Console where
  board : Board := {}
  tally : Tally := {}
  mail : Mailbox := {}
  runner : Thread Runner Processor := .none
  metronome : Thread Metronome Unit := .none
  desk : Desk := {}
  file : StateFile := .absent
  /-- The number of threads that can be made until one is refused, that one included; zero when none will be. -/
  refusal : Nat := 0
  journal : Journal := #[]
  deriving DecidableEq

/-- What may happen while the surroundings are asked for a key or start a tone. -/
inductive Happening where
  | mode (s : Mode)
  | rate (hz : UInt32)
  | post (j : Job)
  /-- The call fails and takes its thread down. -/
  | death
  deriving DecidableEq

/-- Surroundings in which something may happen during a call of the instruction clock, and in which stopping the tone may
take the timer clock down.  Like the answers, what happens is given by the number of the call: that for a key in
`happenings`, that to start a tone in `toneHappenings`. -/
structure Scenario extends Surroundings where
  happenings : Nat → List Happening := fun _ => []
  toneHappenings : Nat → List Happening := fun _ => []
  silencingKills : Bool := false

/-- What happens during the calls of an instruction that takes the tally from `t` to `t'`. -/
def Scenario.during (sc : Scenario) (t t' : Tally) : List Happening :=
  (if t'.asked = t.asked then [] else sc.happenings t.asked) ++
    if t'.started = t.started then [] else sc.toneHappenings t.started

namespace Console

/-- A console at rest with these settings. -/
def new (s : Settings) : Console := { board := { rate := s.cycleRate }, desk := { settings := s } }

def note (c : Console) (who : Voice) (n : Note) : Console := { c with journal := c.journal.add who n }

/-- What happens during a call, apart from a death. -/
def happen (c : Console) : Happening → Console
  | .mode s => { c with board := { c.board with mode := s } }
  | .rate hz => { c with board := c.board.setRate hz }
  | .post j => { c with mail := c.mail.post j }
  | .death => c

end Console

end ChipEight
