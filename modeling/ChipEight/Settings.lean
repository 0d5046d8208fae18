/-!
# Settings

How many instructions a second the machine runs, in how many batches a second they are run, and where its state is
saved.  A rate that is set is at least one.
-/

namespace ChipEight

/-- What can be set about a machine. -/
structure Settings where
  cycleRate : UInt32 := 700
  batchRate : UInt32 := 50
  statePath : String := "chip8.state"
  deriving DecidableEq, Repr

namespace Settings

def withCycleRate (s : Settings) (hz : UInt32) : Settings := { s with cycleRate := max hz 1 }

def withBatchRate (s : Settings) (hz : UInt32) : Settings := { s with batchRate := max hz 1 }

def withStatePath (s : Settings) (path : String) : Settings := { s with statePath := path }

/-- The number of instructions in a batch; never zero, so every batch gets on. -/
def perBatch (cycleRate batchRate : UInt32) : UInt32 := max (cycleRate / max batchRate 1) 1

theorem one_le_perBatch (cycleRate batchRate : UInt32) : 1 ≤ perBatch cycleRate batchRate := by
  show 1 ≤ if cycleRate / max batchRate 1 ≤ 1 then 1 else cycleRate / max batchRate 1
  split
  · exact UInt32.le_refl 1
  · next h => exact UInt32.le_of_lt (UInt32.not_le.mp h)

end Settings

end ChipEight
