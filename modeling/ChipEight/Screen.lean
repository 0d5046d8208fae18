import ChipEight.Bytes

/-!
# The screen

64 columns by 32 rows of cells, row after row.  A cell holds a byte: `0` is dark, `1` is lit, and any other value is
neither but can be stored.

* `Screen.cell?` : the cell of a column and a row, if they are on the screen.
* `Sprite.cells` : the cells that the set bits of a sprite fall on; what passes the right or the lower edge is cut off.
* `Screen.draw` : flips those cells and tells whether one of them was lit.
-/

namespace ChipEight

abbrev Screen.width : Nat := 64

abbrev Screen.height : Nat := 32

abbrev Screen.size : Nat := Screen.width * Screen.height

/-- The cells of the screen, row after row. -/
abbrev Screen := Bytes Screen.size

namespace Screen

/-- A position on the screen. -/
abbrev Cell := Fin size

def blank : Screen := Vector.replicate size 0

/-- The cell in column `a` of row `b`. -/
def cell? (a b : Nat) : Option Cell :=
  if h : a < width ∧ b < height then
    some ⟨b * width + a, by simp only [size, width, height] at h ⊢; omega⟩
  else none

def lit (s : Screen) (c : Cell) : Bool := s.get c == 1

/-- The screen with one cell turned over. -/
def flip (s : Screen) (c : Cell) : Screen := s.setIfInBounds c (s.get c ^^^ 1)

theorem get_flip (s : Screen) (c d : Cell) :
    Vector.get (s.flip c) d = if c = d then s.get c ^^^ 1 else s.get d := Bytes.get_setIfInBounds ..

/-- The screen with the cells of a list turned over one after the other. -/
def flipAll (s : Screen) (cs : List Cell) : Screen := cs.foldl flip s

def litCount (s : Screen) : Nat := s.toList.count 1

end Screen

namespace Sprite

/-- Whether bit `k` of a row is set, counted from the left. -/
def bit (row : UInt8) (k : Nat) : Bool := row.toNat.testBit (7 - k)

/-- The cells under the set bits of a row drawn from column `ox` of row `y` on. -/
def rowCells (ox y : Nat) (row : UInt8) : List Screen.Cell :=
  (List.range 8).filterMap fun k => if bit row k then Screen.cell? (ox + k) y else none

/-- The cells under the set bits of a sprite whose upper left corner is in column `ox` of row `oy`. -/
def cells (ox oy : Nat) : List UInt8 → List Screen.Cell
  | [] => []
  | row :: rows => rowCells ox oy row ++ cells ox (oy + 1) rows

end Sprite

/-- Draws a sprite and tells whether a lit cell was turned over. -/
def Screen.draw (s : Screen) (ox oy : Nat) (rows : List UInt8) : Screen × Bool :=
  let cells := Sprite.cells ox oy rows
  let hit := cells.any s.lit
  (s.flipAll cells, hit)

end ChipEight
