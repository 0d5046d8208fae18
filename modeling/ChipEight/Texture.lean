import ChipEight.Screen

/-!
# Textures

The screen as a picture with three bytes a cell, all of them full for a lit cell and empty for a dark one.  The
product with 255 is taken in one byte; it is exact because cells are zero or one.
-/

namespace ChipEight

/-- The red, green and blue byte of every cell. -/
def Screen.texture (s : Screen) : List UInt8 := s.toList.flatMap fun a => List.replicate 3 (a * 255)

end ChipEight
