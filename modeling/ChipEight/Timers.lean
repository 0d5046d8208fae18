/-!
# The timers

Two bytes that count down to zero sixty times a second and stay there.  The sound timer tells when its tone is over:
`Timers.tick` answers `true` on the tick that takes it to zero and on no other.
-/

namespace ChipEight

/-- The delay and the sound timer. -/
structure Timers where
  delay : UInt8 := 0
  sound : UInt8 := 0
  deriving DecidableEq, Repr

namespace Timers

/-- How many times a second the timers tick. -/
abbrev rate : UInt32 := 60

/-- One less, but not below zero. -/
def countDown (b : UInt8) : UInt8 := if b = 0 then 0 else b - 1

/-- One tick, and whether it took the sound timer to zero. -/
def tick (t : Timers) : Timers × Bool :=
  ({ delay := countDown t.delay, sound := countDown t.sound }, t.sound == 1)

/-- The timers after `n` ticks, and the numbers (from one on) of the ticks that ended the tone. -/
def ticks (t : Timers) (n : Nat) : Timers × List Nat :=
  n.fold (fun k _ (t, ended) =>
    let (t, silent) := t.tick
    (t, if silent then ended ++ [k + 1] else ended)) (t, [])

theorem ticks_succ (t : Timers) (n : Nat) :
    t.ticks (n + 1) =
      ((t.ticks n).1.tick.1, if (t.ticks n).1.tick.2 then (t.ticks n).2 ++ [n + 1] else (t.ticks n).2) := rfl

end Timers

end ChipEight
