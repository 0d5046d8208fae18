import ChipEight.Glyph
import ChipEight.Memory
import ChipEight.Screen
import ChipEight.Timers

/-!
# The machine

* `Processor` : sixteen byte registers `v`, of which the last doubles as the flag; the index register `i`, of which only
  the low twelve bits address memory; the address `pc` of the next instruction; the call stack, sixteen return addresses
  of which the first `sp` are in use; and memory.
* `Machine` : a processor, the two timers and the screen.  This is all that an instruction can read, and all that a
  saved image holds.
-/

namespace ChipEight

/-- What the instructions work on, timers and screen apart. -/
structure Processor where
  v : Vector UInt8 16
  i : UInt16
  pc : UInt16
  sp : UInt8
  stack : Vector UInt16 16
  memory : Memory
  deriving DecidableEq

namespace Processor

/-- The processor after power-on: glyphs in memory, everything else zero, at the start of the program. -/
def powerOn : Processor where
  v := Vector.replicate 16 0
  i := 0
  pc := .ofNat Memory.programStart
  sp := 0
  stack := Vector.replicate 16 0
  memory := Glyph.install (Vector.replicate Memory.size 0)

/-- The processor after power-on with a program in memory; `none` when the program is too long. -/
def withProgram? (program : List UInt8) : Option Processor :=
  if program.length ≤ Memory.programRoom then
    some { powerOn with memory := powerOn.memory.put Memory.programStart program }
  else none

def reg (p : Processor) (x : Digit) : UInt8 := p.v.get x

/-- The address that the index register stands for. -/
def address (p : Processor) : UInt64 := (p.i % 0x1000).toUInt64

/-- The address of the instruction that was fetched last: the program counter has already passed it. -/
def here (p : Processor) : UInt16 := p.pc - 2

/-- The return addresses in use, the oldest first. -/
def calls (p : Processor) : List UInt16 := p.stack.toList.take p.sp.toNat

end Processor

/-- Processor, timers and screen. -/
structure Machine extends Processor, Timers where
  screen : Screen
  deriving DecidableEq

namespace Machine

/-- A processor with silent timers and a blank screen. -/
def ofProcessor (p : Processor) : Machine := { toProcessor := p, delay := 0, sound := 0, screen := .blank }

def powerOn : Machine := ofProcessor .powerOn

/-- Well-formed: the stack pointer does not pass the last slot, and every cell is dark or lit. -/
structure WellFormed (m : Machine) : Prop where
  sp_le : m.sp ≤ 16
  cell_le : ∀ c : Screen.Cell, m.screen.get c ≤ 1

end Machine

end ChipEight
