import ChipEight.Text.Hex

/-!
# Instruction words

A word of program text is sixteen bits, the more significant byte first in memory.  Its four hexadecimal digits are
`f x y n`: the family `f` picks the instruction, `x` and `y` name registers, `n` is a count; the last two digits
together are the byte `kk` and the last three the address `addr`.
-/

namespace ChipEight

/-- A word of program text. -/
abbrev Word := UInt16

/-- A hexadecimal digit; registers, keys and glyphs are numbered by it. -/
abbrev Digit := Fin 16

/-- There is a digit, so numerals can stand for digits. -/
instance Digit.neZero : @NeZero Nat Zero.ofOfNat0 16 := ⟨by decide⟩

namespace Word

/-- The word whose bytes lie in memory as `hi`, `lo`. -/
def ofBytes (hi lo : UInt8) : Word := hi.toUInt16 * 256 + lo.toUInt16

def family (w : Word) : Digit := Fin.ofNat 16 (w.toNat / 4096)

def x (w : Word) : Digit := Fin.ofNat 16 (w.toNat / 256)

def y (w : Word) : Digit := Fin.ofNat 16 (w.toNat / 16)

def n (w : Word) : Digit := Fin.ofNat 16 w.toNat

def kk (w : Word) : UInt8 := w.toUInt8

def addr (w : Word) : UInt16 := w % 0x1000

def text (w : Word) : String := Text.Hex.upper 4 w.toNat

end Word

end ChipEight
