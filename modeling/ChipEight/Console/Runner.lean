import ChipEight.Console.Basic

/-!
# The instruction clock

`run_interpreter`, one move of the runner at a time, each of them one access to what it shares with the other threads.
A round of the runner: serve the jobs until none waits (`service`); look at the run state; when it is `running`, read
the rate and execute a batch; wait until the time of the batch is over, or the run state is no longer `running`
(`wait_until`).

* A batch ends early when a key is awaited; the instruction is tried again in the next one.
* A fault ends the run: it is recorded on the board, the jobs that wait are thrown away.
* Rate, run state and jobs that change during a batch are seen when it is over.
-/

namespace ChipEight.Console

/-- The session of a processor on the board of the console. -/
def session (c : Console) (p : Processor) : Session := { toMachine := c.board.machine p, tally := c.tally }

/-- The runner moves on to another stage. -/
def runnerAt (c : Console) (r : Runner) (stage : Runner.Stage) : Console :=
  { c with runner := .live { r with stage } }

/-- The runner is gone, with its processor. -/
def loseRunner (c : Console) : Console := { c with runner := .died, mail := c.mail.close }

/-- Takes a job off the queue, or goes on to look at the run state when there is none. -/
def serve (c : Console) (r : Runner) : Console :=
  match c.mail.jobs with
  | [] => c.runnerAt r .looking
  | (ticket, .capture) :: jobs =>
    { c with mail := { c.mail with jobs }.reply ticket (.captured (c.board.machine r.processor)) }
  | (ticket, .restore m) :: jobs =>
    { c with
      runner := .live { r with processor := m.toProcessor }
      board := c.board.restore m.toTimers m.screen
      mail := { c.mail with jobs }.reply ticket .restored
      journal := c.journal.add .runner (.imageApplied m.pc) }

/-- Acts on the run state. -/
def look (c : Console) (r : Runner) : Console :=
  match c.board.mode with
  | .stopped => (c.runnerAt r .leaving).note .runner (.runnerStopped r.processor.pc)
  | .paused => c.runnerAt r .serving
  | .running => c.runnerAt r .sizing

/-- Where the runner goes on after an instruction of a batch with `left` more of them. -/
def afterInstr (left : Nat) : Outcome → Runner.Stage
  | .next => .batch left
  | .awaitingKey => .waiting
  | .fault f => .failing f
  | .breakdown => .leaving

/-- Executes an instruction; what happens during its calls happens with it. -/
def instr (sc : Scenario) (c : Console) (r : Runner) (left : Nat) : Console :=
  let s := c.session r.processor
  let notes := s.narrate
  let (outcome, s') := s.step sc.toSurroundings
  let happenings := sc.during c.tally s'.tally
  let c := { c with
    runner := .live { r with processor := s'.toProcessor, stage := afterInstr left outcome }
    board := { c.board with timers := s'.toTimers, screen := s'.screen }
    tally := s'.tally }
  let c := notes.foldl (fun c n => c.note .runner n) c
  let c := happenings.foldl happen c
  match outcome with
  | .fault f => c.note .runner (.faulted f)
  | .breakdown => c.loseRunner
  | _ => if happenings.contains .death then c.loseRunner else c

/-- One move of a runner; `due` tells whether the time of the last batch is over. -/
def runnerMove (sc : Scenario) (due : Bool) (c : Console) (r : Runner) : Console :=
  match r.stage with
  | .serving => c.serve r
  | .looking => c.look r
  | .sizing => c.runnerAt r (.batch (Settings.perBatch c.board.rate r.batchRate).toNat)
  | .batch 0 => c.runnerAt r .waiting
  | .batch (left + 1) => c.instr sc r left
  | .waiting => if due || c.board.mode != .running then c.runnerAt r .serving else c
  | .failing f => { c.runnerAt r .leaving with board := c.board.fail f }
  | .leaving => { c with runner := .ended r.processor, mail := c.mail.close }

/-- One move of the instruction clock, if it is alive. -/
def moveRunner? (sc : Scenario) (due : Bool) (c : Console) : Option Console :=
  match c.runner with
  | .live r => some (c.runnerMove sc due r)
  | _ => none

end ChipEight.Console
