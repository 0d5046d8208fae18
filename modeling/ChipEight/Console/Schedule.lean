import ChipEight.Console.Metronome
import ChipEight.Console.Order
import ChipEight.Console.Runner

/-!
# One schedule

`Machine`, `run_interpreter` and `run_timer` may move in any order.  Here one order is chosen, in which everything can
be computed and no batch leaves time to wait for:

* `Procedure.perform` : an order of the desk, during which the clocks move only while the desk waits for them and for a
  moment after the run state was changed.
* `Console.beat` : a sixtieth of a second, with the batches that fall into it and one tick.
* `Console.runOn` : the runner alone, until it is gone or paused with nothing to do.
-/

namespace ChipEight

namespace Console

/-- One move of each clock, no tick being due. -/
def nudge (sc : Scenario) (c : Console) : Console :=
  let c := (c.moveRunner? sc true).getD c
  (c.moveMetronome? sc false).getD c

/-- A bound on the moves that the desk has to wait for: the rest of a batch, a batch, the jobs and the way out. -/
def patience (c : Console) : Nat :=
  match c.runner with
  | .live r =>
    let left := match r.stage with | .batch n => n | _ => 0
    left + (Settings.perBatch c.board.rate r.batchRate).toNat + c.mail.jobs.length + 10
  | _ => 8

/-- Lets the clocks move until an action can be done, at most `n` times. -/
def await (sc : Scenario) (a : Action) : (n : Nat) → Console → Option (a.Answer × Console)
  | 0, c => c.act a
  | n + 1, c =>
    match c.act a with
    | some r => some r
    | none => (c.nudge sc).await sc a n

/-- Whether the runner is at the top of its round, or gone. -/
def atTop (c : Console) : Bool :=
  match c.runner with
  | .live r => r.stage == .serving
  | _ => true

/-- Moves of the runner until it is at the top of its round, at most `n`. -/
def toTop (sc : Scenario) : (n : Nat) → Console → Console
  | 0, c => c
  | n + 1, c =>
    if c.atTop then c
    else
      match c.moveRunner? sc true with
      | some c => c.toTop sc n
      | none => c

/-- A moment in which no tick is due: a round of the runner, unless it is a long one, and a look of the metronome at the
run state. -/
def moment (sc : Scenario) (c : Console) : Console :=
  let c := match c.moveRunner? sc true with
    | some next =>
      let next := next.toTop sc 1000
      if next.atTop then next else c
    | none => c
  let c := (c.moveMetronome? sc false).getD c
  match c.metronome with
  | .live .leaving => (c.moveMetronome? sc false).getD c
  | _ => c

/-- What the clocks do when the desk has done an action: a change of the run state wakes them. -/
def wake (sc : Scenario) (a : Action) (c : Console) : Console :=
  match a with
  | .setMode _ => c.moment sc
  | _ => c

end Console

/-- Carries out a procedure; `none` when the desk would wait for ever. -/
def Procedure.perform {α : Type} (sc : Scenario) : Procedure α → Console → Option (α × Console)
  | .done r, c => some (r, c)
  | .act a next, c =>
    match c.await sc a c.patience with
    | some (x, c) => (next x).perform sc (c.wake sc a)
    | none => none

namespace Console

/-- One round of the runner. -/
def round (sc : Scenario) (c : Console) : Console :=
  match c.moveRunner? sc true with
  | some c => c.toTop sc c.patience
  | none => c

/-- So many rounds of the runner. -/
def rounds (sc : Scenario) : Nat → Console → Console
  | 0, c => c
  | n + 1, c => (c.round sc).rounds sc n

/-- What the metronome does when a tick is due: look, tick, stop the tone if it is over. -/
def tickDue (sc : Scenario) (c : Console) : Console :=
  match c.moveMetronome? sc true with
  | some c =>
    match c.metronome with
    | .live .looking => c
    | _ =>
      let c := (c.moveMetronome? sc true).getD c
      match c.metronome with
      | .live .silencing => (c.moveMetronome? sc true).getD c
      | _ => c
  | none => c

/-- The batches that fall into a sixtieth of a second: at least one, and no more than there is time for.  Batches that
overrun are not made up for. -/
def batchesPerTick (c : Console) : Nat :=
  let batchRate := c.desk.settings.batchRate
  let inTime := min 1000 (100000 / (Settings.perBatch c.board.rate batchRate).toNat)
  max 1 (min inTime (batchRate / Timers.rate).toNat)

/-- A sixtieth of a second. -/
def beat (sc : Scenario) (c : Console) : Console := (c.rounds sc c.batchesPerTick).tickDue sc

/-- Whether the runner only waits for the run state to change. -/
def idle (c : Console) : Bool :=
  match c.runner with
  | .live r => r.stage == .serving && c.mail.jobs.isEmpty && c.board.mode == .paused
  | _ => false

/-- Moves of the runner until it is gone or idle, at most `n`. -/
def runOn (sc : Scenario) : (n : Nat) → Console → Console
  | 0, c => c
  | n + 1, c =>
    if c.idle then c
    else
      match c.moveRunner? sc true with
      | some c => c.runOn sc n
      | none => c

end Console

end ChipEight
