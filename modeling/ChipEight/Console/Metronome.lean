import ChipEight.Console.Basic

/-!
# The timer clock

`run_timer`, one move of the metronome at a time.  While the run state is `running` it ticks the timers whenever a
sixtieth of a second is over; when a tick takes the sound timer to zero it stops the tone.  While `paused` the timers
hold.  When it sees `stopped` it stops the tone once more and leaves.
-/

namespace ChipEight.Console

/-- The metronome moves on. -/
def metronomeAt (c : Console) (m : Metronome) : Console := { c with metronome := .live m }

/-- Stops the tone; the metronome goes on as `next` says unless the call takes it down. -/
def silence (sc : Scenario) (c : Console) (next : Thread Metronome Unit) : Console :=
  { c with tally := c.tally.stopTone, metronome := if sc.silencingKills then .died else next }

/-- One move of a metronome; `due` tells whether the next tick is due. -/
def metronomeMove (sc : Scenario) (due : Bool) (c : Console) : Metronome → Console
  | .looking =>
    match c.board.mode with
    | .stopped => c.metronomeAt .leaving
    | .paused => c
    | .running => if due then c.metronomeAt .ticking else c
  | .ticking =>
    let (board, silent) := c.board.tick
    { c with board, metronome := .live (if silent then .silencing else .looking) }
  | .silencing => c.silence sc (.live .looking)
  | .leaving => c.silence sc (.ended ())

/-- One move of the timer clock, if it is alive. -/
def moveMetronome? (sc : Scenario) (due : Bool) (c : Console) : Option Console :=
  match c.metronome with
  | .live m => some (c.metronomeMove sc due m)
  | _ => none

end ChipEight.Console
