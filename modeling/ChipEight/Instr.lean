import ChipEight.Word

/-!
# The instruction set

Thirty-four instructions, each with the operands it uses.  `Instr.ofWord?` reads them off a word: the family decides
alone except in the families `0`, `8`, `E` and `F`, which look at the low byte or the low digit as well.  A digit that
neither selects nor is an operand is ignored, so `5XY1` reads as `5XY0` and `01E0` as `00E0`.
-/

namespace ChipEight

/-- The instruction set; `x` and `y` are registers, `kk` a byte, `a` an address, `n` a count of sprite rows. -/
inductive Instr where
  | clear | ret
  | jump (a : UInt16) | call (a : UInt16) | jumpPlus (a : UInt16)
  | skipEqByte (x : Digit) (kk : UInt8) | skipNeByte (x : Digit) (kk : UInt8)
  | skipEq (x y : Digit) | skipNe (x y : Digit)
  | setByte (x : Digit) (kk : UInt8) | addByte (x : Digit) (kk : UInt8)
  | copy (x y : Digit) | or (x y : Digit) | and (x y : Digit) | xor (x y : Digit)
  | add (x y : Digit) | sub (x y : Digit) | subFrom (x y : Digit)
  | shiftRight (x : Digit) | shiftLeft (x : Digit)
  | setIndex (a : UInt16) | addIndex (x : Digit) | glyph (x : Digit)
  | random (x : Digit) (kk : UInt8)
  | draw (x y n : Digit)
  | skipHeld (x : Digit) | skipNotHeld (x : Digit) | awaitKey (x : Digit)
  | readDelay (x : Digit) | setDelay (x : Digit) | setSound (x : Digit)
  | digits (x : Digit) | dump (x : Digit) | fill (x : Digit)
  deriving DecidableEq, Repr

namespace Instr

/-- Family `0`: the two instructions without operands. -/
def ofFamily0? (w : Word) : Option Instr :=
  match w.kk.toNat with
  | 0xE0 => some .clear
  | 0xEE => some .ret
  | _ => none

/-- Family `8`: arithmetic on two registers, told apart by the low digit. -/
def ofFamily8? (w : Word) : Option Instr :=
  match w.n.val with
  | 0x0 => some (.copy w.x w.y)
  | 0x1 => some (.or w.x w.y)
  | 0x2 => some (.and w.x w.y)
  | 0x3 => some (.xor w.x w.y)
  | 0x4 => some (.add w.x w.y)
  | 0x5 => some (.sub w.x w.y)
  | 0x6 => some (.shiftRight w.x)
  | 0x7 => some (.subFrom w.x w.y)
  | 0xE => some (.shiftLeft w.x)
  | _ => none

/-- Family `E`: the two key tests. -/
def ofFamilyE? (w : Word) : Option Instr :=
  match w.kk.toNat with
  | 0x9E => some (.skipHeld w.x)
  | 0xA1 => some (.skipNotHeld w.x)
  | _ => none

/-- Family `F`: timers, the keypad and what works through the index register, told apart by the low byte. -/
def ofFamilyF? (w : Word) : Option Instr :=
  match w.kk.toNat with
  | 0x07 => some (.readDelay w.x)
  | 0x0A => some (.awaitKey w.x)
  | 0x15 => some (.setDelay w.x)
  | 0x18 => some (.setSound w.x)
  | 0x1E => some (.addIndex w.x)
  | 0x29 => some (.glyph w.x)
  | 0x33 => some (.digits w.x)
  | 0x55 => some (.dump w.x)
  | 0x65 => some (.fill w.x)
  | _ => none

/-- The instruction a word stands for; `none` when it is not part of the set. -/
def ofWord? (w : Word) : Option Instr :=
  match w.family.val with
  | 0x0 => ofFamily0? w
  | 0x1 => some (.jump w.addr)
  | 0x2 => some (.call w.addr)
  | 0x3 => some (.skipEqByte w.x w.kk)
  | 0x4 => some (.skipNeByte w.x w.kk)
  | 0x5 => some (.skipEq w.x w.y)
  | 0x6 => some (.setByte w.x w.kk)
  | 0x7 => some (.addByte w.x w.kk)
  | 0x8 => ofFamily8? w
  | 0x9 => some (.skipNe w.x w.y)
  | 0xA => some (.setIndex w.addr)
  | 0xB => some (.jumpPlus w.addr)
  | 0xC => some (.random w.x w.kk)
  | 0xD => some (.draw w.x w.y w.n)
  | 0xE => ofFamilyE? w
  | _ => ofFamilyF? w

end Instr

end ChipEight
