import ChipEight.Console.Metronome
import ChipEight.Console.Order
import ChipEight.Console.Runner

/-!
# Any order of turns

The two clocks and the desk take turns, in any order.  A turn is one move of a clock or one action of the desk; whoever
has to wait lets its turn pass.

* `Request` : what the desk can be asked for, a call of a method of `Machine`.  It is at one request at a time.
* `Event` : what is worth remembering of a turn.
* `Scene` : a console with its past.
* `Office` : a scene with the request that the desk is at, and what is left to do for it.
* `Office.advance`, `Office.run` : one turn, and turns one after the other.
-/

namespace ChipEight

/-- What the desk can be asked for. -/
inductive Request where
  | reset (program : List UInt8)
  | start
  | stop
  | pause
  | resume
  | capture
  | restore (m : Machine)
  | save
  | load
  | setRate (hz : UInt32)
  deriving DecidableEq

namespace Request

/-- The answer to a request.  Only a capture gives a machine. -/
abbrev Answer := Except DeskError (Option Machine)

/-- How the desk meets a request. -/
def order : Request → Order.Op (Option Machine)
  | .reset program => do
    Order.reset program
    return none
  | .start => do
    Order.start
    return none
  | .stop => do
    Order.stop
    return none
  | .pause => do
    Order.pause
    return none
  | .resume => do
    Order.resume
    return none
  | .capture => do return some (← Order.capture)
  | .restore m => do
    Order.restore m
    return none
  | .save => do
    Order.save
    return none
  | .load => do
    Order.load
    return none
  | .setRate hz => do
    Order.setRate hz
    return none

end Request

/-- What is worth remembering of a turn. -/
inductive Event where
  -- the desk and whoever asks it
  | called (q : Request)
  | answered (q : Request) (a : Request.Answer)
  /-- The note of a reset about the fault of an earlier run. -/
  | reported (f : Fault)
  -- the clocks
  /-- The runner has executed an instruction. -/
  | stepped
  | ticked
  /-- The runner has recorded the fault that ends its run. -/
  | faulted (f : Fault)
  /-- The runner was taken down, and its processor with it. -/
  | died
  -- the processor and the board
  /-- The machine was copied, by the runner or at the desk. -/
  | copied (who : Voice) (m : Machine)
  /-- The machine was replaced, by the runner or at the desk. -/
  | replaced (who : Voice) (m : Machine)
  /-- A processor was parked. -/
  | seated (p : Processor)
  /-- Timers and screen were cleared. -/
  | cleared
  /-- A runner was made of the parked processor. -/
  | begun
  /-- The runner was refused, and the parked processor was lost. -/
  | lost
  /-- The metronome was refused, and the run that had begun was given up. -/
  | givenUp

/-- What the runner does in a move that leaves the console `c'`. -/
def Runner.events (r : Runner) (c c' : Console) : List Event :=
  match r.stage with
  | .serving =>
    match c.mail.jobs with
    | [] => []
    | (_, .capture) :: _ => [.copied .runner (c.board.machine r.processor)]
    | (_, .restore m) :: _ => [.replaced .runner m]
  | .batch (_ + 1) => if c'.runner = .died then [.stepped, .died] else [.stepped]
  | .failing f => [.faulted f]
  | _ => []

/-- What the metronome does in a move. -/
def Metronome.events : Metronome → List Event
  | .ticking => [.ticked]
  | _ => []

/-- What the desk does in an action with this answer. -/
def Action.events : (a : Action) → a.Answer → List Event
  | .park p, _ => [.seated p]
  | .resetBoard, _ => [.cleared]
  | .captureParked, m => [.copied .desk m]
  | .replaceParked m, _ => [.replaced .desk m]
  | .spawnRunner, made => if made then [.begun] else [.lost]
  | .spawnMetronome, made => if made then [] else [.givenUp]
  | .note (.previousRunEnded f), _ => [.reported f]
  | _, _ => []

/-- A console with its past, the oldest event first. -/
structure Scene where
  console : Console
  past : List Event := []

namespace Scene

def add (s : Scene) (e : Event) : Scene := { s with past := s.past ++ [e] }

/-- The scene when an action has left this console with this answer. -/
def did (s : Scene) (a : Action) (x : a.Answer) (c : Console) : Scene := ⟨c, s.past ++ a.events x⟩

end Scene

/-- A scene with the request that the desk is at, and what is left to do for it. -/
structure Office extends Scene where
  task : Option (Request × Procedure Request.Answer) := none

/-- Whose turn it is. -/
inductive Turn where
  /-- The runner moves; `due` tells whether the time of its last batch is over. -/
  | runner (due : Bool)
  /-- The metronome moves; `due` tells whether the next tick is due, `fatal` whether stopping the tone takes it down. -/
  | metronome (due fatal : Bool)
  | desk
  /-- Somebody comes to the desk; one who finds it busy goes away again. -/
  | call (q : Request)
  /-- From now on the system refuses the `n`-th thread, or none if `n` is zero.  This happens between two requests. -/
  | refuse (n : Nat)
  /-- Somebody else puts something in the place of the state file, between two requests. -/
  | file (f : StateFile)
  deriving DecidableEq

namespace Office

/-- An office at rest with these settings. -/
def new (s : Settings) : Office := { console := .new s }

/-- The desk does its next action, or gives the answer. -/
def work (o : Office) : Office :=
  match o.task with
  | none => o
  | some (q, .done a) => { toScene := o.add (.answered q a) }
  | some (q, .act a next) =>
    match o.console.act a with
    | some (x, c) => { toScene := o.did a x c, task := some (q, next x) }
    | none => o

/-- Changes the world around a desk that is at no request. -/
def between (o : Office) (f : Console → Console) : Office :=
  match o.task with
  | none => { o with console := f o.console }
  | some _ => o

/-- One turn. -/
def advance (sc : Scenario) (o : Office) : Turn → Office
  | .runner due =>
    match o.console.runner with
    | .live r =>
      let c := o.console.runnerMove sc due r
      { o with console := c, past := o.past ++ r.events o.console c }
    | _ => o
  | .metronome due fatal =>
    match o.console.metronome with
    | .live m =>
      { o with
        console := o.console.metronomeMove { sc with silencingKills := fatal } due m
        past := o.past ++ m.events }
    | _ => o
  | .desk => o.work
  | .call q =>
    match o.task with
    | none => { toScene := o.add (.called q), task := some (q, q.order) }
    | some _ => o
  | .refuse n => o.between fun c => { c with refusal := n }
  | .file f => o.between fun c => { c with file := f }

/-- Turns one after the other. -/
def run (sc : Scenario) (o : Office) (turns : List Turn) : Office := turns.foldl (advance sc) o

end Office

end ChipEight
