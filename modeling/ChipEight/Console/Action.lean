import ChipEight.Console.Basic

/-!
# What the desk can do at once

An `Action` of the desk is one access to what it shares with the clocks, or one thing that it does alone; the methods of
`Machine` are made of these.  `Console.act` says what each of them does; it gives no result while the desk has to wait,
that is

* for the reply to a job, as long as the runner is alive and has not answered;
* for the end of a thread, as long as the thread is alive.

The actions on the board are the methods of `Shared` by these names: `run_state`, `set_run_state`, `fault`,
`clear_fault`, `cycle_frequency`, `set_cycle_frequency`, `sound_timer` and `reset`.  `captureParked` is
`Snapshot::capture` and `replaceParked` is `Snapshot::apply`, both on the parked `State`.
-/

namespace ChipEight

/-- A single action of the desk. -/
inductive Action where
  -- on the board
  | readMode
  | setMode (s : Mode)
  | readFault
  | clearFault
  | readRate
  | setRate (hz : UInt32)
  | readSound
  | resetBoard
  -- on the mailbox
  | post (j : Job)
  | collect (ticket : Nat)
  -- on the threads
  | spawnRunner
  | spawnMetronome
  | joinRunner
  | joinMetronome
  -- on what the desk keeps
  | isAttached
  | attach
  | detach
  | park (p : Processor)
  | captureParked
  | replaceParked (m : Machine)
  | setPending (f : Fault)
  | takePending
  -- on the world outside
  | startTone
  | stopTone
  | createFile
  | appendFile (bytes : List UInt8)
  | readFile
  | statePath
  | note (n : Note)
  deriving DecidableEq

/-- What an action answers. -/
@[reducible] def Action.Answer : Action → Type
  | .readMode => Mode
  | .readFault | .takePending => Option Fault
  | .readRate => UInt32
  | .readSound => UInt8
  | .post _ => Option Nat
  | .collect _ => Option Reply
  | .spawnRunner | .spawnMetronome | .joinRunner | .joinMetronome | .isAttached => Bool
  | .captureParked => Machine
  | .createFile | .appendFile _ => Except SystemError Unit
  | .readFile => Except SystemError (List UInt8)
  | .statePath => String
  | _ => Unit

namespace Console

/-- Counts a thread that is to be made; `true` when it is refused. -/
def countThread (c : Console) : Bool × Console := (c.refusal == 1, { c with refusal := c.refusal - 1 })

/-- The instruction clock starts with the parked processor and a mailbox of its own; when the thread is refused, that
processor is lost. -/
def spawnRunner (c : Console) : Bool × Console :=
  let (refused, c) := c.countThread
  let p := c.desk.parked
  let c := { c with desk := { c.desk with parked := .powerOn } }
  if refused then (false, c)
  else
    let r : Runner := { processor := p, batchRate := c.desk.settings.batchRate }
    (true, { c with runner := .live r, mail := {} }.note .runner (.runnerStarted p.pc))

/-- The timer clock starts. -/
def spawnMetronome (c : Console) : Bool × Console :=
  let (refused, c) := c.countThread
  if refused then (false, c) else (true, { c with metronome := .live .looking })

/-- Parks the processor that the runner left, or one after power-on when it died. -/
def joinRunner (c : Console) : Option (Bool × Console) :=
  match c.runner with
  | .live _ => none
  | .none => some (true, c)
  | .ended p => some (true, { c with runner := .none, desk := { c.desk with parked := p } })
  | .died => some (false, { c with runner := .none, desk := { c.desk with parked := .powerOn } })

/-- Waits for the timer clock; `false` when it died. -/
def joinMetronome (c : Console) : Option (Bool × Console) :=
  match c.metronome with
  | .live _ => none
  | .none => some (true, c)
  | .ended () => some (true, { c with metronome := .none })
  | .died => some (false, { c with metronome := .none })

/-- Waits for the reply to a job; `none` inside when the runner is gone and has not answered. -/
def collect (c : Console) (ticket : Nat) : Option (Option Reply × Console) :=
  match c.mail.collect? ticket, c.runner with
  | some (r, mail), _ => some (some r, { c with mail })
  | none, .live _ => none
  | none, _ => some (none, c)

/-- Sends a job if the runner is alive to take it; the answer is its ticket. -/
def post (c : Console) (j : Job) : Option Nat × Console :=
  match c.runner with
  | .live _ => (some c.mail.next, { c with mail := c.mail.post j })
  | _ => (none, c)

/-- The effect of an action; `none` while the desk has to wait. -/
def act (c : Console) : (a : Action) → Option (a.Answer × Console)
  | .readMode => some (c.board.mode, c)
  | .setMode s => some ((), { c with board := { c.board with mode := s } })
  | .readFault => some (c.board.fault, c)
  | .clearFault => some ((), { c with board := c.board.clearFault })
  | .readRate => some (c.board.rate, c)
  | .setRate hz => some ((), { c with board := c.board.setRate hz })
  | .readSound => some (c.board.timers.sound, c)
  | .resetBoard => some ((), { c with board := c.board.reset })
  | .post j => some (c.post j)
  | .collect ticket => c.collect ticket
  | .spawnRunner => some c.spawnRunner
  | .spawnMetronome => some c.spawnMetronome
  | .joinRunner => c.joinRunner
  | .joinMetronome => c.joinMetronome
  | .isAttached => some (c.desk.attached, c)
  | .attach => some ((), { c with desk := { c.desk with attached := true } })
  | .detach => some ((), { c with desk := { c.desk with attached := false } })
  | .park p => some ((), { c with desk := { c.desk with parked := p } })
  | .captureParked => some (c.board.machine c.desk.parked, c)
  | .replaceParked m =>
    some ((), { c with
      desk := { c.desk with parked := m.toProcessor }
      board := c.board.restore m.toTimers m.screen })
  | .setPending f => some ((), { c with desk := { c.desk with pending := some f } })
  | .takePending => some (c.desk.pending, { c with desk := { c.desk with pending := none } })
  | .startTone => some ((), { c with tally := c.tally.startTone })
  | .stopTone => some ((), { c with tally := c.tally.stopTone })
  | .createFile =>
    match c.file.create with
    | .ok file => some (.ok (), { c with file })
    | .error e => some (.error e, c)
  | .appendFile bytes =>
    match c.file.append bytes with
    | .ok file => some (.ok (), { c with file })
    | .error e => some (.error e, c)
  | .readFile => some (c.file.read, c)
  | .statePath => some (c.desk.settings.statePath, c)
  | .note n => some ((), c.note .desk n)

end Console

end ChipEight
