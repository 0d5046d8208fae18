import ChipEight.Word

/-!
# The keypad

Which of the sixteen keys are held, as a word with one bit a key.  When several are held the lowest one is reported.
-/

namespace ChipEight

/-- The held keys, one bit each. -/
structure Keypad where
  mask : UInt16 := 0
  deriving DecidableEq, Repr

namespace Keypad

def bit (k : Digit) : UInt16 := 1 <<< UInt16.ofNat k.val

def press (p : Keypad) (k : Digit) : Keypad := { mask := p.mask ||| bit k }

def release (p : Keypad) (k : Digit) : Keypad := { mask := p.mask &&& ~~~bit k }

def held (p : Keypad) (k : Digit) : Bool := p.mask &&& bit k != 0

/-- A word other than zero has a lowest bit. -/
theorem ctz_lt {p : Keypad} (h : p.mask ≠ 0) : p.mask.toBitVec.ctz.toNat < 16 :=
  BitVec.ctz_lt_iff_ne_zero.mpr fun hzero => h (UInt16.toBitVec_inj.mp hzero)

/-- The lowest key that is held: the word ends in as many zeros. -/
def lowest? (p : Keypad) : Option Digit := if h : p.mask = 0 then none else some ⟨p.mask.toBitVec.ctz.toNat, ctz_lt h⟩

end Keypad

end ChipEight
