import ChipEight.Sound.Binary32

/-!
# The tone

A square wave.  The phase moves on by a fixed amount with every sample and falls back by whole periods; the sample is
high in the first half of a period and low in the second.  While the tone is off the samples are silent, but the phase
moves on.
-/

namespace ChipEight

/-- A sample of the wave: silence or a quarter of the full swing up or down. -/
inductive Sample where
  | silent
  | high
  | low
  deriving DecidableEq, Repr

/-- The wave: how far the phase moves with a sample, and the phase. -/
structure Tone where
  increment : Binary32
  phase : Binary32
  deriving DecidableEq, Repr

namespace Tone

/-- The sample at the present phase. -/
def sample (w : Tone) (on : Bool) : Sample :=
  if !on then .silent else if w.phase.atMostHalf then .high else .low

/-- The wave one sample later. -/
def advance (w : Tone) : Tone := { w with phase := (w.phase.add w.increment).fract }

/-- So many samples, the newest first, put before the samples `acc`. -/
def samplesOnto (on : Bool) : Nat → Tone → List Sample → Tone × List Sample
  | 0, w, acc => (w, acc)
  | n + 1, w, acc => samplesOnto on n w.advance (w.sample on :: acc)

/-- So many samples, and the wave after them. -/
def samples (w : Tone) (on : Bool) (n : Nat) : Tone × List Sample :=
  let (w, acc) := samplesOnto on n w []
  (w, acc.reverse)

end Tone

end ChipEight
