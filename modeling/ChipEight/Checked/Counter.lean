import ChipEight.Checked
import ChipEight.Journal

/-!
# The checked counter

Steps that take nothing for granted about the program counter: each time a word is passed, or the address of a word that
was passed is asked for, a sum or a difference that does not fit into its word is a hazard.

* `Counter.exec`, `Counter.step` : an instruction and a step, with the notes that it makes, or the first hazard.
-/

namespace ChipEight.Checked.Counter

/-- Passes the word at the program counter. -/
def advance (s : Session) : Risky Session := do return { s with pc := ← plusWord s.pc 2 }

/-- The address of the instruction that was fetched last. -/
def here (s : Session) : Risky UInt16 := minusWord s.pc 2

def passIf (s : Session) (c : Bool) : Risky Session := if c then advance s else return s

/-- The effect of an instruction.  Those that are not listed do not reckon with the program counter. -/
def exec (o : Surroundings) (s : Session) : Instr → Risky (Outcome × Session)
  | .ret => do
    if s.sp = 0 then return (.fault (.stackUnderflow (← here s)), s)
    return s.exec o .ret
  | .call a => do
    if 16 ≤ s.sp.toNat then return (.fault (.stackOverflow (← here s)), s)
    return s.exec o (.call a)
  | .skipEqByte x kk => do return (.next, ← passIf s (s.reg x == kk))
  | .skipNeByte x kk => do return (.next, ← passIf s (s.reg x != kk))
  | .skipEq x y => do return (.next, ← passIf s (s.reg x == s.reg y))
  | .skipNe x y => do return (.next, ← passIf s (s.reg x != s.reg y))
  | .skipHeld x => do
    return (.next, { (← passIf s (o.heldKey s.tally == some (s.reg x))) with tally := s.tally.ask })
  | .skipNotHeld x => do
    return (.next, { (← passIf s (o.heldKey s.tally != some (s.reg x))) with tally := s.tally.ask })
  | .awaitKey x => do
    match o.heldKey s.tally with
    | some k => return (.next, { s.setReg x k with tally := s.tally.ask })
    | none => return (.awaitingKey, { s with pc := ← here s, tally := s.tally.ask })
  | i => return s.exec o i

/-- The same for a word, with a note when it stands for no instruction. -/
def execWord (o : Surroundings) (s : Session) (w : Word) : Risky (List Note × Outcome × Session) := do
  match Instr.ofWord? w with
  | some i => return ([], ← exec o s i)
  | none => return ([.skipping w (← here s)], .next, s)

def step (o : Surroundings) (s : Session) : Risky (List Note × Outcome × Session) := do
  match s.memory.word s.pc with
  | .error f => return ([], .fault f, s)
  | .ok w =>
    let s ← advance s
    let (notes, r) ← execWord o s w
    return (.executing w s.v s.i s.pc :: notes, r)

end ChipEight.Checked.Counter
