import ChipEight.Board
import ChipEight.Step

/-!
# The core

A processor together with the board it works on.  Run state, rate and fault are on the board too, but no operation
here reads them.

* `Core.perform` : one operation on a core.  Two of them execute an instruction, the others tick the timers, clear
  timers and screen, and replace the machine.
* `Core.watch` : what is seen of operations one after the other.
-/

namespace ChipEight

/-- How many calls of each kind were made. -/
structure Calls where
  asked : Nat
  started : Nat
  drawn : Nat
  deriving DecidableEq, Repr

/-- The calls made since the tally was `t₀`. -/
def Tally.since (t t₀ : Tally) : Calls where
  asked := t.asked - t₀.asked
  started := t.started - t₀.started
  drawn := t.drawn - t₀.drawn

/-- A processor, the board it works on and the calls it has made. -/
structure Core where
  processor : Processor := .powerOn
  board : Board := {}
  tally : Tally := {}
  deriving DecidableEq

namespace Core

def machine (c : Core) : Machine := c.board.machine c.processor

def session (c : Core) : Session := { toMachine := c.machine, tally := c.tally }

/-- The core when instructions have left this session. -/
def resume (c : Core) (s : Session) : Core where
  processor := s.toProcessor
  board := c.board.restore s.toTimers s.screen
  tally := s.tally

def restore (c : Core) (m : Machine) : Core :=
  { c with processor := m.toProcessor, board := c.board.restore m.toTimers m.screen }

/-- What can be done with a core: fetch and execute an instruction, execute a word as if it had just been fetched, tick
the timers, clear timers and screen, replace the machine. -/
inductive Op where
  | step
  | exec (w : Word)
  | tick
  | reset
  | restore (m : Machine)
  deriving DecidableEq

inductive Answer where
  | ended (o : Outcome)
  | ticked (silent : Bool)
  | done
  deriving DecidableEq, Repr

/-- One operation: its answer and the core after it. -/
def perform (o : Surroundings) (c : Core) : Op → Answer × Core
  | .step =>
    let (outcome, s) := c.session.step o
    (.ended outcome, c.resume s)
  | .exec w =>
    let (outcome, s) := c.session.execWord o w
    (.ended outcome, c.resume s)
  | .tick =>
    let (board, silent) := c.board.tick
    (.ticked silent, { c with board })
  | .reset => (.done, { c with board := c.board.reset })
  | .restore m => (.done, c.restore m)

/-- What is seen of an operation: its answer, the calls that it made and the machine after it. -/
structure Sight where
  answer : Answer
  calls : Calls
  machine : Machine
  deriving DecidableEq

def sight (c c' : Core) (a : Answer) : Sight := { answer := a, calls := c'.tally.since c.tally, machine := c'.machine }

/-- What is seen of operations one after the other. -/
def watch (o : Surroundings) (c : Core) : List Op → List Sight
  | [] => []
  | op :: ops =>
    let (a, c') := c.perform o op
    c.sight c' a :: watch o c' ops

@[simp] theorem machine_resume (c : Core) (s : Session) : (c.resume s).machine = s.toMachine := rfl

@[simp] theorem machine_restore (c : Core) (m : Machine) : (c.restore m).machine = m := rfl

end Core

end ChipEight
