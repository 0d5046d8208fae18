import ChipEight.Bytes
import ChipEight.Word

/-!
# Glyphs

A picture of every hexadecimal digit, five rows of eight cells, the digit in the left half.  The pictures stand back to
back at the start of memory, so the one of digit `d` is at address `5 * d`.

```text
F0  ####
90  #  #
90  #  #
90  #  #
F0  ####
```
-/

namespace ChipEight.Glyph

/-- The number of rows, and so of bytes, of a glyph. -/
abbrev height : Nat := 5

/-- The rows of every glyph, top row first. -/
def table : Vector (List UInt8) 16 := #v[
  [0xF0, 0x90, 0x90, 0x90, 0xF0],
  [0x20, 0x60, 0x20, 0x20, 0x70],
  [0xF0, 0x10, 0xF0, 0x80, 0xF0],
  [0xF0, 0x10, 0xF0, 0x10, 0xF0],
  [0x90, 0x90, 0xF0, 0x10, 0x10],
  [0xF0, 0x80, 0xF0, 0x10, 0xF0],
  [0xF0, 0x80, 0xF0, 0x90, 0xF0],
  [0xF0, 0x10, 0x20, 0x40, 0x40],
  [0xF0, 0x90, 0xF0, 0x90, 0xF0],
  [0xF0, 0x90, 0xF0, 0x10, 0xF0],
  [0xF0, 0x90, 0xF0, 0x90, 0x90],
  [0xE0, 0x90, 0xE0, 0x90, 0xE0],
  [0xF0, 0x80, 0x80, 0x80, 0xF0],
  [0xE0, 0x90, 0x90, 0x90, 0xE0],
  [0xF0, 0x80, 0xF0, 0x80, 0xF0],
  [0xF0, 0x80, 0xF0, 0x80, 0x80]]

def rows (d : Digit) : List UInt8 := table.get d

def sheet : List UInt8 := table.toList.flatten

/-- A block of bytes with the glyphs put at its start. -/
def install {n : Nat} (m : Bytes n) : Bytes n := m.put 0 sheet

/-- The address of the glyph of a byte's low digit.  The product is taken in one byte. -/
def address (b : UInt8) : UInt16 := ((b % 16) * 5).toUInt16

end ChipEight.Glyph
