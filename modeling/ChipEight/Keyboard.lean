import ChipEight.Control
import ChipEight.Word

/-!
# The keyboard

The keypad lies on the four left columns of the keyboard:

```text
|1|2|3|C|      |1|2|3|4|
|4|5|6|D|  on  |Q|W|E|R|
|7|8|9|E|      |A|S|D|F|
|A|0|B|F|      |Z|X|C|V|
```

Keys are named as window systems name them.
-/

namespace ChipEight.Keyboard

/-- The keypad digit under a key. -/
def digit? : String → Option Digit
  | "X" => some 0x0
  | "Num1" => some 0x1
  | "Num2" => some 0x2
  | "Num3" => some 0x3
  | "Q" => some 0x4
  | "W" => some 0x5
  | "E" => some 0x6
  | "A" => some 0x7
  | "S" => some 0x8
  | "D" => some 0x9
  | "Z" => some 0xA
  | "C" => some 0xB
  | "Num4" => some 0xC
  | "R" => some 0xD
  | "F" => some 0xE
  | "V" => some 0xF
  | _ => none

/-- The wish under a key, if it is a control key. -/
def control? : String → Option Control
  | "P" => some .togglePause
  | "F5" => some .save
  | "F9" => some .load
  | "Backspace" => some .reset
  | "Plus" | "Equals" | "KpPlus" => some .faster
  | "Minus" | "KpMinus" => some .slower
  | "Escape" => some .quit
  | _ => none

end ChipEight.Keyboard
