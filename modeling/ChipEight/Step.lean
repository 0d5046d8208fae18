import ChipEight.Instr
import ChipEight.Surroundings

/-!
# Steps

* `exec` : the effect of one instruction.  The program counter has already passed it.
* `execWord` : the same for a word; a word that stands for no instruction does nothing.
* `step` : fetches the word at the program counter and executes it.

Every instruction ends in one of four ways (`Outcome`).  A fault leaves registers, memory, timers, screen and tally as
they were; only the fetch has moved the program counter.
-/

namespace ChipEight

/-- How an instruction ends. -/
inductive Outcome where
  /-- Go on with the next instruction. -/
  | next
  /-- No key was held; the same instruction has to be tried again. -/
  | awaitingKey
  /-- The run is over. -/
  | fault (f : Fault)
  /-- The stack pointer lies past the last slot, so there is no return address to take, or the address of a byte does not
  fit into 64 bits: the thread is lost. -/
  | breakdown
  deriving DecidableEq, Repr

/-- How an instruction ends that a span is denied to. -/
def Memory.Denial.outcome : Memory.Denial → Outcome
  | .fault f => .fault f
  | .overflow => .breakdown

namespace Session

/-- Passes over the next instruction if `c` holds. -/
def passIf (s : Session) (c : Bool) : Session := if c then { s with pc := s.pc + 2 } else s

def setReg (s : Session) (x : Digit) (b : UInt8) : Session := { s with v := s.v.setIfInBounds x b }

/-- Puts a result in register `x` and then its flag in the last register, so the flag wins when they are the same. -/
def setFlagged (s : Session) (x : Digit) (b : UInt8) (flag : Bool) : Session :=
  { s with v := (s.v.setIfInBounds x b).setIfInBounds 15 (if flag then 1 else 0) }

theorem passIf_eq (s : Session) (c : Bool) : s.passIf c = { s with pc := if c then s.pc + 2 else s.pc } := by
  cases c <;> rfl

theorem reg_setReg (s : Session) (x y : Digit) (b : UInt8) :
    (s.setReg x b).reg y = if x = y then b else s.reg y := Bytes.get_setIfInBounds ..

/-- The last register gets the flag, whatever `x` is. -/
theorem reg_setFlagged (s : Session) (x y : Digit) (b : UInt8) (flag : Bool) :
    (s.setFlagged x b flag).reg y =
      if 15 = y then if flag then 1 else 0 else if x = y then b else s.reg y :=
  (Bytes.get_setIfInBounds _ 15 y _).trans (by rw [Bytes.get_setIfInBounds]; rfl)

/-- The three decimal digits of a byte. -/
def decimals (b : UInt8) : List UInt8 := [b / 100, b / 10 % 10, b % 10]

@[simp] theorem length_decimals (b : UInt8) : (decimals b).length = 3 := rfl

/-- The registers with the first ones replaced by `bytes`. -/
def loadRegs (v : Vector UInt8 16) (bytes : List UInt8) : Vector UInt8 16 := Bytes.put v 0 bytes

/-- The effect of an instruction. -/
def exec (o : Surroundings) (s : Session) : Instr → Outcome × Session
  | .clear => (.next, { s with screen := .blank })
  | .ret =>
    if s.sp = 0 then (.fault (.stackUnderflow s.here), s)
    else
      match s.stack[(s.sp - 1).toNat]? with
      | some a => (.next, { s with sp := s.sp - 1, pc := a })
      | none => (.breakdown, s)
  | .jump a => (.next, { s with pc := a })
  | .call a =>
    if h : s.sp.toNat < 16 then (.next, { s with stack := s.stack.set s.sp.toNat s.pc h, sp := s.sp + 1, pc := a })
    else (.fault (.stackOverflow s.here), s)
  | .jumpPlus a => (.next, { s with pc := a + (s.reg 0).toUInt16 })
  | .skipEqByte x kk => (.next, s.passIf (s.reg x == kk))
  | .skipNeByte x kk => (.next, s.passIf (s.reg x != kk))
  | .skipEq x y => (.next, s.passIf (s.reg x == s.reg y))
  | .skipNe x y => (.next, s.passIf (s.reg x != s.reg y))
  | .setByte x kk => (.next, s.setReg x kk)
  | .addByte x kk => (.next, s.setReg x (s.reg x + kk))
  | .copy x y => (.next, s.setReg x (s.reg y))
  | .or x y => (.next, s.setReg x (s.reg x ||| s.reg y))
  | .and x y => (.next, s.setReg x (s.reg x &&& s.reg y))
  | .xor x y => (.next, s.setReg x (s.reg x ^^^ s.reg y))
  | .add x y => (.next, s.setFlagged x (s.reg x + s.reg y) (255 < (s.reg x).toNat + (s.reg y).toNat))
  | .sub x y => (.next, s.setFlagged x (s.reg x - s.reg y) (s.reg y ≤ s.reg x))
  | .subFrom x y => (.next, s.setFlagged x (s.reg y - s.reg x) (s.reg x ≤ s.reg y))
  | .shiftRight x => (.next, s.setFlagged x (s.reg x >>> 1) (s.reg x &&& 0x01 == 0x01))
  | .shiftLeft x => (.next, s.setFlagged x (s.reg x <<< 1) (s.reg x &&& 0x80 == 0x80))
  | .setIndex a => (.next, { s with i := a })
  | .addIndex x => (.next, { s with i := s.i + (s.reg x).toUInt16 })
  | .glyph x => (.next, { s with i := Glyph.address (s.reg x) })
  | .random x kk => (.next, { s.setReg x (o.random s.tally.drawn &&& kk) with tally := s.tally.draw })
  | .draw x y n =>
    match s.memory.read s.address (.ofNat n.val) with
    | .error denial => (denial.outcome, s)
    | .ok rows =>
      let (screen, hit) := s.screen.draw ((s.reg x).toNat % Screen.width) ((s.reg y).toNat % Screen.height) rows
      (.next, { s with screen, v := s.v.setIfInBounds 15 (if hit then 1 else 0) })
  | .skipHeld x => (.next, { s.passIf (o.heldKey s.tally == some (s.reg x)) with tally := s.tally.ask })
  | .skipNotHeld x => (.next, { s.passIf (o.heldKey s.tally != some (s.reg x)) with tally := s.tally.ask })
  | .awaitKey x =>
    match o.heldKey s.tally with
    | some k => (.next, { s.setReg x k with tally := s.tally.ask })
    | none => (.awaitingKey, { s with pc := s.here, tally := s.tally.ask })
  | .readDelay x => (.next, s.setReg x s.delay)
  | .setDelay x => (.next, { s with delay := s.reg x })
  | .setSound x =>
    (.next, { s with sound := s.reg x, tally := if s.reg x = 0 then s.tally else s.tally.startTone })
  | .digits x =>
    match s.memory.write s.address (decimals (s.reg x)) with
    | .error denial => (denial.outcome, s)
    | .ok memory => (.next, { s with memory })
  | .dump x =>
    match s.memory.write s.address (s.v.toList.take (x.val + 1)) with
    | .error denial => (denial.outcome, s)
    | .ok memory => (.next, { s with memory })
  | .fill x =>
    match s.memory.read s.address (.ofNat (x.val + 1)) with
    | .error denial => (denial.outcome, s)
    | .ok bytes => (.next, { s with v := loadRegs s.v bytes })

def execWord (o : Surroundings) (s : Session) (w : Word) : Outcome × Session :=
  match Instr.ofWord? w with
  | some i => s.exec o i
  | none => (.next, s)

/-- One step: fetch, move past the word, execute. -/
def step (o : Surroundings) (s : Session) : Outcome × Session :=
  match s.memory.word s.pc with
  | .error f => (.fault f, s)
  | .ok w => { s with pc := s.pc + 2 }.execWord o w

/-- Up to `max` steps, fewer if one does not end with `next`; the number made and how the last one ended. -/
def steps (o : Surroundings) (s : Session) : (max : Nat) → Nat × Outcome × Session
  | 0 => (0, .next, s)
  | max + 1 =>
    match s.step o with
    | (.next, s) =>
      let (made, outcome, s) := s.steps o max
      (made + 1, outcome, s)
    | (outcome, s) => (1, outcome, s)

end Session

end ChipEight
